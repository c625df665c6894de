import Mathlib

-- Processes that take turns on a shared part, each at a place of its own.
namespace Interleaving

variable {P S L : Type} [DecidableEq P]

structure State (P S L : Type) where
  shared : S
  place : P → L

-- The turn of one process tells the shared part and the place it may leave behind.
inductive Step (turn : S → L → S → L → Prop) : State P S L → State P S L → Prop
  | turn (s : State P S L) (p : P) (shared : S) (place : L) :
      turn s.shared (s.place p) shared place →
      Step turn s ⟨shared, Function.update s.place p place⟩

inductive Reachable (turn : S → L → S → L → Prop) (start : State P S L) : State P S L → Prop
  | start : Reachable turn start start
  | step {s s' : State P S L} : Reachable turn start s → Step turn s s' → Reachable turn start s'

theorem Reachable.invariant {turn : S → L → S → L → Prop} {start s : State P S L}
    {inv : State P S L → Prop} (hstart : inv start)
    (hstep : ∀ s s', inv s → Step turn s s' → inv s') (h : Reachable turn start s) : inv s := by
  induction h with
  | start => exact hstart
  | step _ hs ih => exact hstep _ _ ih hs

section Tally

variable [Fintype P]

-- The weight of all the processes, by the places they are at.
def tally (weight : L → ℕ) (place : P → L) : ℕ := ∑ p, weight (place p)

variable (weight : L → ℕ) (place : P → L) (p q : P) (l : L)

theorem tally_update :
    tally weight (Function.update place p l) + weight (place p) = tally weight place + weight l := by
  have hnew := Finset.add_sum_erase Finset.univ
    (fun q => weight (Function.update place p l q)) (Finset.mem_univ p)
  have hold := Finset.add_sum_erase Finset.univ (fun q => weight (place q)) (Finset.mem_univ p)
  have hsame : ∑ q ∈ Finset.univ.erase p, weight (Function.update place p l q) =
      ∑ q ∈ Finset.univ.erase p, weight (place q) := by
    apply Finset.sum_congr rfl
    intro q hq
    rw [Function.update_of_ne (Finset.ne_of_mem_erase hq)]
  simp only [Function.update_self] at hnew
  unfold tally
  omega

omit [DecidableEq P] in
theorem le_tally : weight (place p) ≤ tally weight place :=
  Finset.single_le_sum (f := fun q => weight (place q)) (fun _ _ => Nat.zero_le _)
    (Finset.mem_univ p)

theorem add_le_tally (h : p ≠ q) : weight (place p) + weight (place q) ≤ tally weight place := by
  have hold := Finset.add_sum_erase Finset.univ (fun q => weight (place q)) (Finset.mem_univ p)
  have hq := Finset.single_le_sum (f := fun q => weight (place q)) (s := Finset.univ.erase p)
    (fun _ _ => Nat.zero_le _) (Finset.mem_erase.mpr ⟨h.symm, Finset.mem_univ q⟩)
  unfold tally
  omega

omit [DecidableEq P] in
theorem tally_const (h : ∀ p, weight (place p) = 0) : tally weight place = 0 :=
  Finset.sum_eq_zero fun p _ => h p

omit [DecidableEq P] in
theorem tally_add (other : L → ℕ) :
    tally (fun l => weight l + other l) place = tally weight place + tally other place :=
  Finset.sum_add_distrib

-- A weight of at most one counts processes.
omit [DecidableEq P] in
theorem tally_le_card (h : ∀ l, weight l ≤ 1) : tally weight place ≤ Fintype.card P := by
  have hsum := Finset.sum_le_card_nsmul Finset.univ (fun q => weight (place q)) 1 fun q _ => h _
  simpa [tally] using hsum

omit [DecidableEq P] in
theorem exists_of_tally_pos (h : 0 < tally weight place) : ∃ p, 0 < weight (place p) := by
  by_contra hno
  have hzero := tally_const weight place fun p => Nat.eq_zero_of_not_pos fun hp => hno ⟨p, hp⟩
  omega

end Tally

end Interleaving
