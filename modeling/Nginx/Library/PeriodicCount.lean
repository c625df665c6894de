import Mathlib

-- Sequences that repeat themselves, and what each of their blocks holds.
namespace PeriodicCount

theorem drop_range_map {α : Type*} (f : Nat → α) (j n : Nat) :
    ((List.range (j + n)).map f).drop j = (List.range n).map fun k => f (j + k) := by
  rw [← List.map_drop, List.range_add, List.drop_left' List.length_range, List.map_map]
  rfl

-- A window of one period holds the same values wherever it starts.
theorem count_window {α : Type*} [DecidableEq α] (f : Nat → α) (n : Nat) (hf : ∀ k, f (k + n) = f k) (j : Nat) (a : α) :
    (((List.range (j + n)).map f).drop j).count a = ((List.range n).map f).count a := by
  induction j with
  | zero => rw [Nat.zero_add, List.drop_zero]
  | succ j ih =>
      rw [← ih, drop_range_map, drop_range_map]
      -- the window loses its first value and gets it back at its end
      have hall : (List.range (n + 1)).map (fun k => f (j + k))
          = f j :: (List.range n).map fun k => f (j + 1 + k) := by
        rw [List.range_succ_eq_map, List.map_cons, List.map_map, Nat.add_zero]
        congr 1
        apply List.map_congr_left
        intro k _
        show f (j + (k + 1)) = f (j + 1 + k)
        congr 1
        omega
      have hcount := congrArg (List.count a) hall
      rw [List.range_succ, List.map_append, List.count_append, List.map_singleton, hf, List.count_cons,
        List.count_nil, List.count_cons] at hcount
      omega

-- What a deterministic machine shows repeats itself once it shows the start again, if the next
-- state depends on what is shown only.
theorem shown_periodic {α β : Type*} (next : β → β) (view : β → α) (h : ∀ a b, view a = view b → next a = next b)
    (s : β) (n : Nat) (hn : view (next^[n] s) = view s) (k : Nat) : view (next^[k + n] s) = view (next^[k] s) := by
  rw [Function.iterate_add_apply]
  cases k with
  | zero => exact hn
  | succ k => rw [Function.iterate_succ_apply, Function.iterate_succ_apply, h _ _ hn]

end PeriodicCount
