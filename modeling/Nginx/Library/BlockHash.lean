import Mathlib

-- A message that goes through a function in blocks of a fixed length. What is behind the last whole block waits.
namespace BlockHash

variable {α σ : Type} (size : Nat) (f : List α → σ → σ)

def blocks : Nat → List α → σ → σ
  | 0, _, w => w
  | n + 1, p, w => blocks n (p.drop size) (f p w)

-- All the whole blocks of a message, and what waits behind them
def absorb (p : List α) (w : σ) : σ := blocks size f (p.length / size) p w

def rest (p : List α) : List α := p.drop (p.length / size * size)

-- The function reads no more than one block.
def Local : Prop := ∀ p q w, size ≤ p.length → f (p ++ q) w = f p w

variable {size f}

theorem blocks_append (hf : Local size f) {n : Nat} {p : List α} (q : List α) (w : σ) (h : n * size ≤ p.length) :
    blocks size f n (p ++ q) w = blocks size f n p w := by
  induction n generalizing p w with
  | zero => rfl
  | succ n ih =>
      rw [Nat.add_mul, Nat.one_mul] at h
      have hdrop : n * size ≤ (p.drop size).length := by rw [List.length_drop]; omega
      rw [blocks, blocks, hf p q w (by omega), List.drop_append_of_le_length (by omega), ih _ hdrop]

theorem blocks_add (m n : Nat) (p : List α) (w : σ) :
    blocks size f (m + n) p w = blocks size f n (p.drop (m * size)) (blocks size f m p w) := by
  induction m generalizing p w with
  | zero => simp [blocks]
  | succ m ih =>
      have hdrop : size + m * size = (m + 1) * size := by rw [Nat.add_mul, Nat.one_mul, Nat.add_comm]
      rw [Nat.add_right_comm, blocks, ih, List.drop_drop, hdrop, blocks]

-- A function of other states that does the same
theorem blocks_map (size : Nat) {τ : Type} {g : List α → τ → τ} (φ : σ → τ) (h : ∀ p w, φ (f p w) = g p (φ w)) (n : Nat)
    (p : List α) (w : σ) : φ (blocks size f n p w) = blocks size g n p (φ w) := by
  induction n generalizing p w with
  | zero => rfl
  | succ n ih => rw [blocks, blocks, ih, h]

theorem rest_length (p : List α) : (rest size p).length = p.length % size := by
  rw [rest, List.length_drop, Nat.mod_eq_sub, Nat.mul_comm]

theorem count_append {p : List α} (hp : p.length % size = 0) (q : List α) :
    (p ++ q).length / size = p.length / size + q.length / size := by
  rw [List.length_append, Nat.add_div_of_dvd_right (Nat.dvd_of_mod_eq_zero hp)]

-- Nothing is in the way of a message behind whole blocks.
theorem absorb_append (hf : Local size f) {p : List α} (hp : p.length % size = 0) (q : List α) (w : σ) :
    absorb size f (p ++ q) w = absorb size f q (absorb size f p w) := by
  have hwhole : p.length / size * size = p.length := Nat.div_mul_cancel (Nat.dvd_of_mod_eq_zero hp)
  rw [absorb, count_append hp, blocks_add, hwhole, List.drop_left, blocks_append hf _ _ (by omega)]
  rfl

theorem rest_append {p : List α} (hp : p.length % size = 0) (q : List α) :
    rest size (p ++ q) = rest size q := by
  have hwhole : p.length / size * size = p.length := Nat.div_mul_cancel (Nat.dvd_of_mod_eq_zero hp)
  rw [rest, count_append hp, Nat.add_mul, hwhole, ← List.drop_drop, List.drop_left]
  rfl

theorem absorb_short {p : List α} (h : p.length < size) (w : σ) : absorb size f p w = w := by
  rw [absorb, Nat.div_eq_of_lt h]
  rfl

theorem rest_short {p : List α} (h : p.length < size) : rest size p = p := by
  rw [rest, Nat.div_eq_of_lt h, Nat.zero_mul, List.drop_zero]

theorem absorb_block (hsize : 0 < size) {p : List α} (h : p.length = size) (w : σ) : absorb size f p w = f p w := by
  rw [absorb, h, Nat.div_self hsize]
  rfl

-- A message is its whole blocks and the rest.
theorem whole_rest (p : List α) : p.take (p.length / size * size) ++ rest size p = p := List.take_append_drop ..

theorem whole_length (p : List α) : (p.take (p.length / size * size)).length % size = 0 := by
  rw [List.length_take_of_le (Nat.div_mul_le_self ..), Nat.mul_mod_left]

theorem absorb_whole (hf : Local size f) (hsize : 0 < size) (p : List α) (w : σ) :
    absorb size f (p.take (p.length / size * size)) w = absorb size f p w := by
  have happend := absorb_append hf (p := p.take (p.length / size * size)) (whole_length p) (rest size p) w
  have hrest : (rest size p).length < size := by rw [rest_length]; exact Nat.mod_lt _ hsize
  rw [whole_rest, absorb_short hrest] at happend
  exact happend.symm

-- More of a message goes behind its rest.
theorem absorb_more (hf : Local size f) (hsize : 0 < size) (p q : List α) (w : σ) :
    absorb size f (p ++ q) w = absorb size f (rest size p ++ q) (absorb size f p w) := by
  rw [← absorb_whole hf hsize p, ← absorb_append hf (whole_length p), ← List.append_assoc, whole_rest]

theorem rest_more (p q : List α) : rest size (p ++ q) = rest size (rest size p ++ q) := by
  rw [← rest_append (whole_length p) (rest size p ++ q), ← List.append_assoc, whole_rest]

end BlockHash
