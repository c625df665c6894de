import Nginx.Http.Geo.Ranges

namespace Nginx.Geo

open IntervalList

variable {V : Type} {a b before passed : List (Range V)} {s e n : ℕ} {v : V} {line : Line V}
  {low low' : Low V} {log : List (Line V × Low V)}

-- The accepted lines of a geo block, the last one first, each with the table it came to.
inductive Accepted : List (Line V × Low V) → Low V → Prop
  | start : Accepted [] fun _ => none
  | add {log : List (Line V × Low V)} {low low' : Low V} (line : Line V) (fuel : ℕ) : Accepted log low →
      addRange line fuel low line.start = some (.ok low') → Accepted ((line, low) :: log) low'

-- The value of the last line that contains an address.
def lastValue (lines : List (Line V)) (addr : ℕ) : Option V :=
  (lines.find? fun line => line.start ≤ addr && addr ≤ line.stop).map (·.value)

theorem scan_eq (ha : a ≠ []) : scan n a = some (find a n) := by
  induction a with
  | nil => exact absurd rfl ha
  | cons r a ih =>
      cases a with
      | nil => simp [scan, find]
      | cons r' a =>
          rw [scan, find]
          · split
            · rfl
            · exact ih (by simp)
          · simp

theorem rangeVariable_eq (htable : Table low) (d : V) (addr : ℕ) :
    rangeVariable (some d) low addr = some ((value low addr).getD d) := by
  rw [rangeVariable, value, shift_high, and_low]
  cases hlow : low (addr / 65536) with
  | none => rfl
  | some a => simp [scan_eq (htable _ _ hlow).2]

theorem accepted_table (h : Accepted log low) (hfits : ∀ step ∈ log, Fits step.2 step.1) :
    Table low ∧ ∀ addr, value low addr = lastValue (log.map (·.1)) addr := by
  induction h with
  | start => exact ⟨fun h a hnone => by simp at hnone, fun addr => rfl⟩
  | @add log low low' line fuel _ hrun ih =>
      obtain ⟨htable, hvalue⟩ := ih fun step hstep => hfits step (List.mem_cons_of_mem _ hstep)
      obtain ⟨htable', hvalue'⟩ := addRange_spec fuel line.start htable (.inl rfl) (hfits (line, low) (by simp)) hrun
      refine ⟨htable', fun addr => ?_⟩
      rw [hvalue', hvalue, lastValue, lastValue, List.map_cons, List.find?_cons]
      by_cases hin : line.start ≤ addr ∧ addr ≤ line.stop
      · simp [hin.1, hin.2]
      · rw [if_neg hin]
        have hfalse : (decide (line.start ≤ addr) && decide (addr ≤ line.stop)) = false := by simpa using hin
        simp [hfalse]

theorem last_range_wins (h : Accepted log low) (hfits : ∀ step ∈ log, Fits step.2 step.1) (d : V) :
    (∀ k a, low k = some a → Sorted a) ∧
      ∀ addr, rangeVariable (some d) low addr = some ((lastValue (log.map (·.1)) addr).getD d) := by
  obtain ⟨htable, hvalue⟩ := accepted_table h hfits
  refine ⟨fun k a hk => (htable k a hk).1.sorted, fun addr => ?_⟩
  rw [rangeVariable_eq htable, hvalue]

def blank : Low ℕ := fun _ => none

-- 0.0.0.5-0.1.17.112 with 0.0.0.7-0.0.0.9 inside of it
def wide : Line ℕ := ⟨5, 70000, 1, by decide, by decide⟩

def inner : Line ℕ := ⟨7, 9, 2, by decide, by decide⟩

def wideTable : Low ℕ := put (put blank 0 [⟨1, 5, 65535⟩]) 1 [⟨1, 0, 4464⟩]

def innerTable : Low ℕ := put wideTable 0 [⟨1, 5, 6⟩, ⟨2, 7, 9⟩, ⟨1, 10, 65535⟩]

theorem wide_accepted : Accepted [(wide, blank)] wideTable := by
  refine .add wide 3 .start ?_
  simp [addRange, place, wide, wideTable, blank, ushort, put]

theorem inner_accepted : Accepted [(inner, wideTable), (wide, blank)] innerTable := by
  refine .add inner 2 wide_accepted ?_
  simp [addRange, place, inner, innerTable, wideTable, ushort, put]

theorem last_range_wins_inner :
    (∀ k a, innerTable k = some a → Sorted a) ∧
      ∀ addr, rangeVariable (some 0) innerTable addr = some ((lastValue [inner, wide] addr).getD 0) := by
  refine last_range_wins inner_accepted ?_ 0
  intro step hstep
  simp only [List.mem_cons, List.not_mem_nil, or_false] at hstep
  rcases hstep with rfl | rfl
  · intro a ha
    cases ha
    exact ⟨⟨1, 5, 65535⟩, by simp, by decide⟩
  · intro a ha
    cases ha

-- A piece before everything that its block holds is put at the end of the array.
theorem place_behind (h : ∀ r ∈ before, e < r.start) :
    place v s e before passed = .ok (before.reverse ++ passed ++ [⟨v, ushort s, ushort e⟩]) := by
  induction before generalizing passed with
  | nil => rfl
  | cons r before ih =>
      rw [place, if_pos (h r (by simp)), ih fun r' hr' => h r' (List.mem_cons_of_mem _ hr')]
      simp

-- Outside of the condition an accepted line leaves an array that is not sorted.
theorem unfit_unsorted (fuel : ℕ) (hn : n = line.start ∨ n % 65536 = 0 ∧ line.start < n) (hle : n ≤ line.stop)
    (hb : low (line.stop / 65536) = some b) (hne : b ≠ []) (hproper : ∀ r ∈ b, r.start ≤ r.stop)
    (hbehind : ∀ r ∈ b, line.stop % 65536 < r.start) (hrun : addRange line fuel low n = some (.ok low')) :
    ∃ a, low' (line.stop / 65536) = some a ∧ ¬Sorted a := by
  have hstop : line.stop < 0xffff0000 := by
    by_contra hno
    exact addRange_wraps fuel n (by omega) hle hrun
  induction fuel generalizing low n with
  | zero => cases hrun
  | succ fuel ih =>
      rw [addRange, if_pos hle] at hrun
      have hpiece := piece_spec hn hle
      dsimp only at hrun
      generalize n >>> 16 = h at hpiece hrun
      generalize (if n = line.start then n &&& 0xffff else 0) = s at hpiece hrun
      generalize (if line.stop < n ||| 0xffff then line.stop &&& 0xffff else 0xffff) = e at hpiece hrun
      obtain ⟨rfl, hfirst, hsmall, hlast⟩ := hpiece
      split at hrun
      · cases hrun
      · rename_i a hplace
        rw [next_block n (by omega)] at hrun
        rcases Nat.lt_or_ge (n / 65536) (line.stop / 65536) with hbefore | hhere
        · have hother : put low (n / 65536) a (line.stop / 65536) = some b := by
            rw [put, if_neg (by omega), hb]
          exact ih (.inr ⟨by omega, by omega⟩) (by omega) hother hrun
        · have hsame : n / 65536 = line.stop / 65536 := by omega
          have he : e = line.stop % 65536 := by omega
          rw [hsame, hb, Option.getD_some, he, place_behind (by simpa using hbehind)] at hplace
          cases hplace
          have hdone : addRange line fuel
              (put low (n / 65536) (b.reverse.reverse ++ [] ++ [⟨line.value, ushort s, ushort (line.stop % 65536)⟩]))
              ((n / 65536 + 1) * 65536) = some (.ok low') := hrun
          cases fuel with
          | zero => cases hdone
          | succ fuel =>
              rw [addRange, if_neg (by omega)] at hdone
              cases hdone
              refine ⟨_, by rw [put, if_pos hsame.symm], fun hsorted => ?_⟩
              obtain ⟨r, b', rfl⟩ := List.exists_cons_of_ne_nil hne
              rw [List.reverse_reverse, List.append_nil] at hsorted
              obtain ⟨-, hnew, hcross⟩ := sorted_append.mp hsorted
              have h1 := hcross r (by simp) ⟨line.value, ushort s, ushort (line.stop % 65536)⟩ (by simp)
              have h2 := hnew.proper ⟨line.value, ushort s, ushort (line.stop % 65536)⟩ (by simp)
              have h3 := hproper r (by simp)
              have h4 := hbehind r (by simp)
              have h5 : ushort (line.stop % 65536) = line.stop % 65536 := ushort_of_lt (Nat.mod_lt _ (by decide))
              dsimp only at h1 h2
              omega

-- 0.0.0.5-0.0.0.9, then 0.0.0.1-0.0.0.2 before it, then 0.0.0.6-0.0.0.7 inside of the first one
def behind : Line ℕ := ⟨5, 9, 1, by decide, by decide⟩

def ahead : Line ℕ := ⟨1, 2, 2, by decide, by decide⟩

def covered : Line ℕ := ⟨6, 7, 3, by decide, by decide⟩

def behindTable : Low ℕ := put blank 0 [⟨1, 5, 9⟩]

def aheadTable : Low ℕ := put behindTable 0 [⟨1, 5, 9⟩, ⟨2, 1, 2⟩]

def coveredTable : Low ℕ := put aheadTable 0 [⟨1, 5, 9⟩, ⟨2, 1, 2⟩, ⟨3, 6, 7⟩]

theorem ahead_not_sorted :
    Accepted [(ahead, behindTable), (behind, blank)] aheadTable ∧ ¬(∀ k a, aheadTable k = some a → Sorted a) ∧
      Accepted [(covered, aheadTable), (ahead, behindTable), (behind, blank)] coveredTable ∧
      rangeVariable (some 0) coveredTable 6 = some 1 ∧ lastValue [covered, ahead, behind] 6 = some 3 := by
  have hbehind : Accepted [(behind, blank)] behindTable := by
    refine .add behind 2 .start ?_
    simp [addRange, place, behind, behindTable, blank, ushort]
  have hahead : Accepted [(ahead, behindTable), (behind, blank)] aheadTable := by
    refine .add ahead 2 hbehind ?_
    simp [addRange, place, ahead, aheadTable, behindTable, ushort, put]
  have hcovered : Accepted [(covered, aheadTable), (ahead, behindTable), (behind, blank)] coveredTable := by
    refine .add covered 2 hahead ?_
    simp [addRange, place, covered, coveredTable, aheadTable, behindTable, ushort, put]
  refine ⟨hahead, fun hsorted => ?_, hcovered, by decide, by decide⟩
  have hapart := (hsorted 0 [⟨1, 5, 9⟩, ⟨2, 1, 2⟩] rfl).apart
  simp at hapart

end Nginx.Geo
