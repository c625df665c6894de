import Mathlib

-- Values that are given to intervals of numbers, both ends included, in the order of the numbers.
namespace IntervalList

structure Entry (V : Type) where
  value : V
  start : ℕ
  stop : ℕ
  deriving DecidableEq

variable {V : Type}

-- The value of the first interval with the number.
def find : List (Entry V) → ℕ → Option V
  | [], _ => none
  | r :: l, x => if r.start ≤ x ∧ x ≤ r.stop then some r.value else find l x

structure Sorted (l : List (Entry V)) : Prop where
  apart : l.Pairwise fun a b => a.stop < b.start
  proper : ∀ r ∈ l, r.start ≤ r.stop

variable {front mid mid' back l l' : List (Entry V)} {r : Entry V} {x : ℕ}

theorem find_append (l l' : List (Entry V)) (x : ℕ) : find (l ++ l') x = (find l x).or (find l' x) := by
  induction l with
  | nil => rfl
  | cons r l ih =>
      rw [List.cons_append, find, find]
      split
      · rfl
      · exact ih

theorem find_eq_none (h : ∀ r ∈ l, ¬(r.start ≤ x ∧ x ≤ r.stop)) : find l x = none := by
  induction l with
  | nil => rfl
  | cons r l ih =>
      rw [find, if_neg (h r (by simp))]
      exact ih fun r' hr' => h r' (List.mem_cons_of_mem _ hr')

theorem sorted_nil : Sorted ([] : List (Entry V)) := ⟨List.Pairwise.nil, by simp⟩

theorem sorted_append :
    Sorted (l ++ l') ↔ Sorted l ∧ Sorted l' ∧ ∀ a ∈ l, ∀ b ∈ l', a.stop < b.start := by
  constructor
  · rintro ⟨hapart, hproper⟩
    obtain ⟨hl, hl', hcross⟩ := List.pairwise_append.mp hapart
    exact ⟨⟨hl, fun r hr => hproper r (List.mem_append_left _ hr)⟩,
      ⟨hl', fun r hr => hproper r (List.mem_append_right _ hr)⟩, hcross⟩
  · rintro ⟨⟨hl, hproper⟩, ⟨hl', hproper'⟩, hcross⟩
    refine ⟨List.pairwise_append.mpr ⟨hl, hl', hcross⟩, fun r hr => ?_⟩
    rcases List.mem_append.mp hr with hr | hr
    · exact hproper r hr
    · exact hproper' r hr

theorem sorted_cons :
    Sorted (r :: l) ↔ r.start ≤ r.stop ∧ Sorted l ∧ ∀ b ∈ l, r.stop < b.start := by
  have happend : Sorted ([r] ++ l) ↔ Sorted [r] ∧ Sorted l ∧ ∀ a ∈ [r], ∀ b ∈ l, a.stop < b.start := sorted_append
  have hone : Sorted [r] ↔ r.start ≤ r.stop :=
    ⟨fun h => h.proper r (by simp), fun h => ⟨List.pairwise_singleton _ _, by simpa using h⟩⟩
  rw [List.singleton_append, hone] at happend
  simpa using happend

-- A part of the list is exchanged for one with the interval from s to e set to a value.
theorem find_replace {s e : ℕ} {v : V} (hfront : ∀ a ∈ front, a.stop < s)
    (hmid : ∀ x, find mid' x = if s ≤ x ∧ x ≤ e then some v else find mid x) (x : ℕ) :
    find (front ++ (mid' ++ back)) x =
      if s ≤ x ∧ x ≤ e then some v else find (front ++ (mid ++ back)) x := by
  simp only [find_append, hmid x]
  by_cases hx : s ≤ x ∧ x ≤ e
  · have hnone : find front x = none := find_eq_none fun a ha hhas => by
      have := hfront a ha
      have := hhas.2
      omega
    rw [if_pos hx, if_pos hx, hnone]
    rfl
  · rw [if_neg hx, if_neg hx]

-- Without one of them its numbers have no value, and the others keep theirs.
theorem find_remove (h : Sorted (front ++ r :: back)) (x : ℕ) :
    find (front ++ back) x = if r.start ≤ x ∧ x ≤ r.stop then none else find (front ++ r :: back) x := by
  obtain ⟨hfront, hrest, hcross⟩ := sorted_append.mp h
  obtain ⟨-, -, hafter⟩ := sorted_cons.mp hrest
  rw [find_append, find_append, find]
  by_cases hx : r.start ≤ x ∧ x ≤ r.stop
  · have hleft : find front x = none := find_eq_none fun a ha hin => by
      have hbefore := hcross a ha r List.mem_cons_self
      omega
    have hright : find back x = none := find_eq_none fun b hb hin => by
      have hbehind := hafter b hb
      omega
    rw [if_pos hx, hleft, hright]
    rfl
  · rw [if_neg hx, if_neg hx]

end IntervalList
