import Mathlib

-- Ranges of addresses that are apart from each other.
namespace Ranges

structure Range where
  addr : Nat
  size : Nat
  deriving DecidableEq, Repr

variable {r s t : Range} {rs ss : List Range}

def Range.stop (r : Range) : Nat := r.addr + r.size

def Range.Apart (r s : Range) : Prop := r.stop ≤ s.addr ∨ s.stop ≤ r.addr

instance (r s : Range) : Decidable (r.Apart s) := inferInstanceAs (Decidable (_ ∨ _))

def Range.Within (r s : Range) : Prop := s.addr ≤ r.addr ∧ r.stop ≤ s.stop

theorem Range.Apart.symm (h : r.Apart s) : s.Apart r := Or.symm h

instance : Std.Symm Range.Apart := ⟨fun _ _ h => h.symm⟩

theorem Range.Within.refl (r : Range) : r.Within r := ⟨Nat.le_refl _, Nat.le_refl _⟩

theorem Range.Within.trans (h : r.Within s) (h' : s.Within t) : r.Within t :=
  ⟨Nat.le_trans h'.1 h.1, Nat.le_trans h.2 h'.2⟩

theorem Range.Apart.within (h : s.Apart t) {r' : Range} (hr : r.Within s) (ht : r'.Within t) : r.Apart r' := by
  obtain ⟨hr₁, hr₂⟩ := hr
  obtain ⟨ht₁, ht₂⟩ := ht
  rcases h with h | h
  · exact Or.inl (by omega)
  · exact Or.inr (by omega)

-- Two ranges that are apart and not empty start at different addresses.
theorem Range.Apart.addr_ne (h : r.Apart s) (hr : 0 < r.size) (hs : 0 < s.size) : r.addr ≠ s.addr := by
  unfold Range.Apart Range.stop at h
  omega

def AllApart (rs : List Range) : Prop := rs.Pairwise Range.Apart

theorem allApart_cons : AllApart (r :: rs) ↔ (∀ s ∈ rs, r.Apart s) ∧ AllApart rs := List.pairwise_cons

theorem allApart_append : AllApart (rs ++ ss) ↔ AllApart rs ∧ AllApart ss ∧ ∀ r ∈ rs, ∀ s ∈ ss, r.Apart s :=
  List.pairwise_append

theorem AllApart.perm (h : AllApart rs) (hperm : rs.Perm ss) : AllApart ss :=
  (hperm.pairwise_iff fun h => Range.Apart.symm h).mp h

theorem AllApart.sublist (h : AllApart ss) (hsub : rs.Sublist ss) : AllApart rs := List.Pairwise.sublist hsub h

theorem AllApart.of_mem (h : AllApart rs) (hr : r ∈ rs) (hs : s ∈ rs) (hne : r ≠ s) : r.Apart s :=
  List.Pairwise.forall h hr hs hne

variable {α : Type} {r : Range} {rs : List Range}

-- The members of a list at the positions of a range
def Range.slice (l : List α) (r : Range) : List α := (l.drop r.addr).take r.size

def Range.Has (r : Range) (i : Nat) : Prop := r.addr ≤ i ∧ i < r.stop

instance (r : Range) (i : Nat) : Decidable (r.Has i) := inferInstanceAs (Decidable (_ ∧ _))

theorem countP_slice (p : α → Bool) (l : List α) (r : Range) :
    (r.slice l).countP p = ∑ i ∈ Finset.range l.length, if r.Has i ∧ l[i]?.any p then 1 else 0 := by
  induction l generalizing r with
  | nil => simp [Range.slice]
  | cons x l ih =>
      obtain ⟨addr, size⟩ := r
      rw [List.length_cons, Finset.sum_range_succ']
      cases addr with
      | succ addr =>
          have hslice : Range.slice (x :: l) ⟨addr + 1, size⟩ = Range.slice l ⟨addr, size⟩ := rfl
          rw [hslice, ih]
          have hzero : ¬Range.Has ⟨addr + 1, size⟩ 0 := fun h => Nat.not_succ_le_zero addr h.1
          simp only [hzero, false_and, if_false, Nat.add_zero]
          apply Finset.sum_congr rfl
          intro i _
          have hhas : Range.Has ⟨addr + 1, size⟩ (i + 1) ↔ Range.Has ⟨addr, size⟩ i := by
            simp only [Range.Has, Range.stop]
            omega
          simp only [hhas, List.getElem?_cons_succ]
      | zero =>
          cases size with
          | zero =>
              have hnone : ∀ i, ¬Range.Has ⟨0, 0⟩ i := fun i h => Nat.not_lt_zero i h.2
              simp [Range.slice, hnone]
          | succ size =>
              have hslice : Range.slice (x :: l) ⟨0, size + 1⟩ = x :: Range.slice l ⟨0, size⟩ := rfl
              have hfirst : Range.Has ⟨0, size + 1⟩ 0 := ⟨Nat.le_refl 0, Nat.succ_pos _⟩
              rw [hslice, List.countP_cons, ih]
              simp only [hfirst, true_and, List.getElem?_cons_zero, Option.any_some]
              congr 1
              apply Finset.sum_congr rfl
              intro i _
              have hhas : Range.Has ⟨0, size + 1⟩ (i + 1) ↔ Range.Has ⟨0, size⟩ i := by
                simp only [Range.Has, Range.stop]
                omega
              simp only [hhas, List.getElem?_cons_succ]

theorem Range.Apart.not_has (h : r.Apart s) (hr : r.Has i) : ¬s.Has i := by
  unfold Range.Apart at h
  unfold Range.Has at hr ⊢
  omega

-- A position is in one of the ranges at most.
theorem AllApart.sum_has_le (h : AllApart rs) (i : Nat) :
    (rs.map fun r => if r.Has i then 1 else 0).sum ≤ 1 := by
  induction rs with
  | nil => simp
  | cons r rs ih =>
      obtain ⟨hr, hrs⟩ := allApart_cons.mp h
      rw [List.map_cons, List.sum_cons]
      by_cases hi : r.Has i
      · have hzero : (rs.map fun r => if r.Has i then 1 else 0).sum = 0 := by
          apply List.sum_eq_zero
          intro n hn
          obtain ⟨s, hs, rfl⟩ := List.mem_map.mp hn
          exact if_neg ((hr s hs).not_has hi)
        rw [hzero, if_pos hi]
      · rw [if_neg hi, Nat.zero_add]
        exact ih hrs

theorem sum_list_swap (l : List Range) (f : Range → Nat → Nat) (n : Nat) :
    (l.map fun r => ∑ i ∈ Finset.range n, f r i).sum = ∑ i ∈ Finset.range n, (l.map fun r => f r i).sum := by
  induction l with
  | nil => simp
  | cons r l ih => simp [ih, Finset.sum_add_distrib]

-- What ranges that are apart select of a list is not more than there is in the list.
theorem AllApart.sum_countP_le (h : AllApart rs) (p : α → Bool) (l : List α) :
    (rs.map fun r => (r.slice l).countP p).sum ≤ l.countP p := by
  have hall : l.countP p = ∑ i ∈ Finset.range l.length, if l[i]?.any p then 1 else 0 := by
    have hslice := countP_slice p l ⟨0, l.length⟩
    have htake : Range.slice l ⟨0, l.length⟩ = l := List.take_length
    rw [htake] at hslice
    rw [hslice]
    apply Finset.sum_congr rfl
    intro i hi
    have hhas : Range.Has ⟨0, l.length⟩ i := by
      have hlt := Finset.mem_range.mp hi
      simp only [Range.Has, Range.stop]
      omega
    simp only [hhas, true_and]
  simp only [countP_slice]
  rw [sum_list_swap, hall]
  apply Finset.sum_le_sum
  intro i _
  by_cases hp : l[i]?.any p = true
  · simp only [hp, and_true, if_true]
    exact h.sum_has_le i
  · simp [hp]

end Ranges
