import Mathlib

-- A memory of bytes in which a machine word is the eight pieces of one value, and junk is what
-- nobody has written yet.
namespace WordMemory

variable {W : Type _}

inductive Slot (W : Type _) where
  | junk
  | byte (b : UInt8)
  | piece (w : W) (i : Nat)
deriving DecidableEq

def word (w : W) : List (Slot W) := (List.range 8).map (.piece w)

def loadWord [DecidableEq W] (l : List (Slot W)) (a : Nat) : Option W :=
  match l[a]? with
  | some (.piece w _) => if (l.drop a).take 8 = word w then some w else none
  | _ => none

def Slot.byte? : Slot W → Option UInt8
  | .byte b => some b
  | _ => none

def loadBytes (l : List (Slot W)) (a n : Nat) : Option (List UInt8) :=
  if a + n ≤ l.length then ((l.drop a).take n).mapM Slot.byte? else none

def store (l : List (Slot W)) (a : Nat) (xs : List (Slot W)) : List (Slot W) :=
  l.take a ++ xs ++ l.drop (a + xs.length)

@[simp] theorem length_word (w : W) : (word w).length = 8 := by simp [word]

theorem loadWord_append [DecidableEq W] (pre post : List (Slot W)) (w : W) :
    loadWord (pre ++ (word w ++ post)) pre.length = some w := by
  have hget : (pre ++ (word w ++ post))[pre.length]? = some (.piece w 0) := by
    rw [List.getElem?_append_right (Nat.le_refl _), Nat.sub_self]
    rfl
  have htake : ((pre ++ (word w ++ post)).drop pre.length).take 8 = word w := by
    rw [List.drop_left]
    exact List.take_left' (length_word w)
  simp only [loadWord, hget, htake, if_true]

theorem mapM_byte (bs : List UInt8) :
    (bs.map (Slot.byte : UInt8 → Slot W)).mapM Slot.byte? = some bs := by
  induction bs with
  | nil => rfl
  | cons b bs ih =>
      rw [List.map_cons, List.mapM_cons, ih]
      rfl

theorem loadBytes_append (pre post : List (Slot W)) (bs : List UInt8) :
    loadBytes (pre ++ (bs.map .byte ++ post)) pre.length bs.length = some bs := by
  have hle : pre.length + bs.length ≤ (pre ++ (bs.map Slot.byte ++ post)).length := by
    simp only [List.length_append, List.length_map]
    omega
  have htake : ((pre ++ (bs.map Slot.byte ++ post)).drop pre.length).take bs.length = bs.map .byte := by
    rw [List.drop_left]
    exact List.take_left' (List.length_map _)
  rw [loadBytes, if_pos hle, htake, mapM_byte]

theorem length_le_store (l : List (Slot W)) (a : Nat) (xs : List (Slot W)) :
    l.length ≤ (store l a xs).length := by
  simp only [store, List.length_append, List.length_take, List.length_drop]
  omega

-- A store behind a and inside what follows it.
theorem store_append (pre l post xs : List (Slot W)) (k : Nat) (h : k + xs.length ≤ l.length) :
    store (pre ++ (l ++ post)) (pre.length + k) xs =
      pre ++ (l.take k ++ xs ++ l.drop (k + xs.length) ++ post) := by
  have htake : (pre ++ (l ++ post)).take (pre.length + k) = pre ++ l.take k := by
    rw [List.take_length_add_append, List.take_append_of_le_length (by omega)]
  have hdrop : (pre ++ (l ++ post)).drop (pre.length + k + xs.length) =
      l.drop (k + xs.length) ++ post := by
    rw [Nat.add_assoc, List.drop_length_add_append, List.drop_append_of_le_length h]
  rw [store, htake, hdrop]
  simp only [List.append_assoc]

end WordMemory
