import Mathlib

-- The part of a stream between two positions, and what of it is in a piece of the stream that begins at an offset
namespace Window

variable {α : Type}

def slice (start stop : Nat) (data : List α) : List α := (data.take stop).drop start

def cut (start stop offset : Nat) (piece : List α) : List α := slice (start - offset) (stop - offset) piece

@[simp] theorem cut_nil (start stop offset : Nat) : cut start stop offset ([] : List α) = [] := by
  simp [cut, slice]

theorem slice_length (start stop : Nat) (data : List α) (h : stop ≤ data.length) :
    (slice start stop data).length = stop - start := by
  rw [slice, List.length_drop, List.length_take, Nat.min_eq_left h]

theorem cut_append (start stop offset : Nat) (one two : List α) :
    cut start stop offset (one ++ two) = cut start stop offset one ++ cut start stop (offset + one.length) two := by
  rw [cut, cut, cut, slice, slice, slice, List.take_append, List.drop_append, List.length_take]
  by_cases hlong : one.length ≤ stop - offset
  · rw [Nat.min_eq_right hlong, Nat.sub_sub, Nat.sub_sub]
  · have hnone : stop - offset - one.length = 0 := by omega
    have hnone' : stop - (offset + one.length) = 0 := by omega
    rw [hnone, hnone', List.take_zero, List.drop_nil, List.drop_nil]

-- Nothing of the part is in a piece that lies before it or behind it.
theorem cut_outside (start stop offset : Nat) (piece : List α)
    (h : stop ≤ offset ∨ offset + piece.length ≤ start) : cut start stop offset piece = [] := by
  rw [cut, slice]
  apply List.drop_eq_nil_of_le
  rw [List.length_take]
  omega

end Window
