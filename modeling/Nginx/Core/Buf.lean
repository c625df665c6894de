import Nginx.Core.Bytes
import Nginx.Library.ByteMemory

namespace Nginx

open ByteMemory

-- ngx_buf_t. The file is named by its descriptor; bufEnd is end.
structure Buf where
  pos : Nat
  last : Nat
  filePos : Nat
  fileLast : Nat
  start : Nat
  bufEnd : Nat
  tag : Nat
  file : Nat
  temporary : Bool
  memory : Bool
  mmap : Bool
  recycled : Bool
  inFile : Bool
  flush : Bool
  sync : Bool
  lastBuf : Bool
  lastInChain : Bool
  deriving DecidableEq, Repr

-- ngx_calloc_buf
def Buf.empty : Buf := ⟨0, 0, 0, 0, 0, 0, 0, 0, false, false, false, false, false, false, false, false, false⟩

abbrev Chain := List Buf

namespace Buf

-- ngx_buf_in_memory, ngx_buf_in_memory_only, ngx_buf_special and ngx_buf_size
def inMemory (b : Buf) : Bool := b.temporary || b.memory || b.mmap

def inMemoryOnly (b : Buf) : Bool := b.inMemory && !b.inFile

def special (b : Buf) : Bool := (b.flush || b.lastBuf || b.sync) && !b.inMemory && !b.inFile

def size (b : Buf) : Nat := if b.inMemory then b.last - b.pos else b.fileLast - b.filePos

-- What a buf loses from its front
def advance (n : Nat) (b : Buf) : Buf :=
  { b with
    pos := if b.inMemory then b.pos + n else b.pos
    filePos := if b.inFile then b.filePos + n else b.filePos }

@[simp] theorem advance_inMemory (n : Nat) (b : Buf) : (b.advance n).inMemory = b.inMemory := rfl
@[simp] theorem advance_inFile (n : Nat) (b : Buf) : (b.advance n).inFile = b.inFile := rfl
@[simp] theorem advance_special (n : Nat) (b : Buf) : (b.advance n).special = b.special := rfl

end Buf

-- The memory, and the files by their descriptors
structure World where
  mem : Memory
  file : Nat → Memory

variable (w : World)

def Buf.bytes (b : Buf) : Bytes :=
  if b.inMemory then load w.mem b.pos (b.last - b.pos) else load (w.file b.file) b.filePos (b.fileLast - b.filePos)

def chainBytes (chain : Chain) : Bytes := chain.flatMap (Buf.bytes w)

-- A buf as its makers promise it. One that is in memory and in a file has the same bytes in both places.
structure Buf.Wf (b : Buf) : Prop where
  mem : b.inMemory = true → b.pos ≤ b.last
  file : b.inFile = true → b.filePos ≤ b.fileLast
  place : b.inMemory = false → b.inFile = false → b.fileLast ≤ b.filePos
  both : b.inMemory = true → b.inFile = true →
    b.last - b.pos = b.fileLast - b.filePos ∧
      load w.mem b.pos (b.last - b.pos) = load (w.file b.file) b.filePos (b.fileLast - b.filePos)

def ChainWf (chain : Chain) : Prop := ∀ b ∈ chain, b.Wf w

variable {w : World}

@[simp] theorem chainBytes_nil : chainBytes w [] = [] := rfl

@[simp] theorem chainBytes_cons (b : Buf) (chain : Chain) :
    chainBytes w (b :: chain) = b.bytes w ++ chainBytes w chain := rfl

@[simp] theorem chainBytes_append (one two : Chain) :
    chainBytes w (one ++ two) = chainBytes w one ++ chainBytes w two := List.flatMap_append

@[simp] theorem Buf.bytes_length (b : Buf) : (b.bytes w).length = b.size := by
  unfold Buf.bytes Buf.size
  split <;> simp

theorem Buf.bytes_of_size {b : Buf} (h : b.size = 0) : b.bytes w = [] := by
  rw [← List.length_eq_zero_iff, Buf.bytes_length, h]

theorem Buf.Wf.placeless_size {b : Buf} (h : b.Wf w) (hmem : b.inMemory = false) (hfile : b.inFile = false) :
    b.size = 0 := by
  have hplace := h.place hmem hfile
  rw [Buf.size, hmem]
  simp only [Bool.false_eq_true, if_false]
  omega

theorem Buf.special_place {b : Buf} (h : b.special = true) : b.inMemory = false ∧ b.inFile = false := by
  simp only [Buf.special, Bool.and_eq_true, Bool.not_eq_true'] at h
  exact ⟨h.1.2, h.2⟩

theorem Buf.Wf.special_bytes {b : Buf} (h : b.Wf w) (hspecial : b.special = true) : b.bytes w = [] := by
  obtain ⟨hmem, hfile⟩ := Buf.special_place hspecial
  exact Buf.bytes_of_size (h.placeless_size hmem hfile)

-- A buf that is in a file can be read there.
theorem Buf.Wf.file_bytes {b : Buf} (h : b.Wf w) (hfile : b.inFile = true) :
    b.size = b.fileLast - b.filePos ∧ b.bytes w = load (w.file b.file) b.filePos (b.fileLast - b.filePos) := by
  unfold Buf.size Buf.bytes
  cases hmem : b.inMemory with
  | true =>
      obtain ⟨hlen, hbytes⟩ := h.both hmem hfile
      exact ⟨hlen, hbytes⟩
  | false => exact ⟨rfl, rfl⟩

theorem load_drop (mem : Memory) (a m n : Nat) (h : n ≤ m) : load mem (a + n) (m - n) = (load mem a m).drop n := by
  have hsplit := load_append mem a n (m - n)
  rw [Nat.add_sub_of_le h] at hsplit
  rw [hsplit, List.drop_left' (load_length mem a n)]

theorem load_take (mem : Memory) (a m n : Nat) (h : n ≤ m) : load mem a n = (load mem a m).take n := by
  have hsplit := load_append mem a n (m - n)
  rw [Nat.add_sub_of_le h] at hsplit
  rw [hsplit, List.take_left' (load_length mem a n)]

theorem Buf.Wf.advance_bytes {b : Buf} (h : b.Wf w) {n : Nat} (hn : n ≤ b.size) :
    (b.advance n).bytes w = (b.bytes w).drop n := by
  unfold Buf.bytes
  rw [Buf.advance_inMemory]
  cases hmem : b.inMemory with
  | true =>
      rw [Buf.size, hmem, if_pos rfl] at hn
      simp only [if_true, Buf.advance, hmem]
      rw [Nat.sub_add_eq, load_drop _ _ _ _ hn]
  | false =>
      cases hfile : b.inFile with
      | true =>
          rw [Buf.size, hmem, if_neg Bool.false_ne_true] at hn
          simp only [Bool.false_eq_true, if_false, Buf.advance, hfile, if_true]
          rw [Nat.sub_add_eq, load_drop _ _ _ _ hn]
      | false =>
          have hsize := h.placeless_size hmem hfile
          rw [hsize] at hn
          simp only [Bool.false_eq_true, if_false, Buf.advance, hfile]
          rw [Nat.le_zero.mp hn, List.drop_zero]

theorem Buf.Wf.advance {b : Buf} (h : b.Wf w) {n : Nat} (hn : n ≤ b.size) : (b.advance n).Wf w := by
  have hfile : b.inFile = true → b.filePos + n ≤ b.fileLast := by
    intro hin
    have hsize := (h.file_bytes hin).1
    have hle := h.file hin
    omega
  constructor
  · intro hmem
    rw [Buf.advance_inMemory] at hmem
    have hle := h.mem hmem
    simp only [Buf.size, hmem, if_true] at hn
    simp only [Buf.advance, hmem, if_true]
    omega
  · intro hin
    rw [Buf.advance_inFile] at hin
    simp only [Buf.advance, hin, if_true]
    exact hfile hin
  · intro hmem hin
    rw [Buf.advance_inMemory] at hmem
    rw [Buf.advance_inFile] at hin
    simp only [Buf.advance, hin, Bool.false_eq_true, if_false]
    exact h.place hmem hin
  · intro hmem hin
    rw [Buf.advance_inMemory] at hmem
    rw [Buf.advance_inFile] at hin
    obtain ⟨hlen, hbytes⟩ := h.both hmem hin
    simp only [Buf.size, hmem, if_true] at hn
    simp only [Buf.advance, hmem, hin, if_true]
    refine ⟨by omega, ?_⟩
    rw [Nat.sub_add_eq, Nat.sub_add_eq, load_drop _ _ _ _ hn, load_drop _ _ _ _ (hlen ▸ hn), hbytes]

theorem ChainWf.cons {b : Buf} {chain : Chain} : ChainWf w (b :: chain) ↔ b.Wf w ∧ ChainWf w chain :=
  List.forall_mem_cons

end Nginx
