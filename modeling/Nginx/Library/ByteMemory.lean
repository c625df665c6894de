import Mathlib

-- A memory of bytes, and what its addresses hold.
namespace ByteMemory

abbrev Memory := Nat → UInt8

def store (mem : Memory) (a : Nat) (bs : List UInt8) : Memory :=
  fun p => if a ≤ p ∧ p < a + bs.length then bs.getD (p - a) 0 else mem p

def load (mem : Memory) (a n : Nat) : List UInt8 := (List.range n).map fun i => mem (a + i)

-- Numbers of n bytes, the lowest byte first.
def encode : Nat → Nat → List UInt8
  | 0, _ => []
  | n + 1, v => UInt8.ofNat v :: encode n (v / 256)

def decode : List UInt8 → Nat
  | [] => 0
  | b :: bs => b.toNat + 256 * decode bs

@[simp] theorem encode_length (n v : Nat) : (encode n v).length = n := by
  induction n generalizing v with
  | zero => rfl
  | succ n ih => simp [encode, ih]

theorem decode_encode (n v : Nat) (h : v < 256 ^ n) : decode (encode n v) = v := by
  induction n generalizing v with
  | zero =>
      rw [Nat.pow_zero] at h
      simp only [encode, decode]
      omega
  | succ n ih =>
      rw [Nat.pow_succ] at h
      have hdiv : v / 256 < 256 ^ n := Nat.div_lt_of_lt_mul (by omega)
      have hlow : (UInt8.ofNat v).toNat = v % 256 := UInt8.toNat_ofNat
      rw [encode, decode, ih _ hdiv, hlow]
      omega

variable {mem : Memory} {a b n : Nat} {bs cs : List UInt8}

@[simp] theorem load_length (mem : Memory) (a n : Nat) : (load mem a n).length = n := by simp [load]

theorem load_append (mem : Memory) (a m n : Nat) : load mem a (m + n) = load mem a m ++ load mem (a + m) n := by
  simp only [load, List.range_add, List.map_append, List.map_map]
  congr 1
  refine List.map_congr_left fun i _ => ?_
  simp [Nat.add_assoc]

theorem load_store_same (mem : Memory) (a : Nat) (bs : List UInt8) : load (store mem a bs) a bs.length = bs := by
  refine List.ext_getElem (by simp) fun i hi hi' => ?_
  simp only [load, List.getElem_map, List.getElem_range, store]
  rw [if_pos ⟨by omega, by omega⟩, Nat.add_sub_cancel_left, List.getD_eq_getElem?_getD, List.getElem?_eq_getElem hi', Option.getD_some]

theorem load_store_disjoint (mem : Memory) (bs : List UInt8) (h : a + n ≤ b ∨ b + bs.length ≤ a) :
    load (store mem b bs) a n = load mem a n := by
  refine List.map_congr_left fun i hi => ?_
  rw [List.mem_range] at hi
  rw [store, if_neg]
  omega

theorem store_nil (mem : Memory) (a : Nat) : store mem a [] = mem := by
  funext p
  rw [store, if_neg]
  simp only [List.length_nil]
  omega

theorem store_append (mem : Memory) (a : Nat) (bs cs : List UInt8) :
    store (store mem a bs) (a + bs.length) cs = store mem a (bs ++ cs) := by
  funext p
  simp only [store, List.length_append]
  by_cases hfirst : p < a + bs.length
  · rw [if_neg (by omega)]
    by_cases hin : a ≤ p
    · rw [if_pos (by omega), if_pos (by omega), List.getD_eq_getElem?_getD, List.getD_eq_getElem?_getD,
        List.getElem?_append_left (by omega)]
    · rw [if_neg (by omega), if_neg (by omega)]
  · by_cases hsecond : p < a + (bs.length + cs.length)
    · rw [if_pos (by omega), if_pos (by omega), List.getD_eq_getElem?_getD, List.getD_eq_getElem?_getD,
        List.getElem?_append_right (by omega), Nat.sub_sub]
    · rw [if_neg (by omega), if_neg (by omega), if_neg (by omega)]

-- The bytes are at the address.
def Holds (mem : Memory) (a : Nat) (bs : List UInt8) : Prop := load mem a bs.length = bs

theorem holds_store (mem : Memory) (a : Nat) (bs : List UInt8) : Holds (store mem a bs) a bs :=
  load_store_same mem a bs

theorem Holds.store (h : Holds mem a bs) (cs : List UInt8)
    (hdisj : a + bs.length ≤ b ∨ b + cs.length ≤ a) : Holds (store mem b cs) a bs := by
  rw [Holds, load_store_disjoint mem cs hdisj]
  exact h

theorem holds_append (mem : Memory) (a : Nat) (bs cs : List UInt8) :
    Holds mem a (bs ++ cs) ↔ Holds mem a bs ∧ Holds mem (a + bs.length) cs := by
  rw [Holds, Holds, Holds, List.length_append, load_append]
  exact List.append_eq_append_iff_of_size_eq_left (by simp)

end ByteMemory
