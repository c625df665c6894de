import Nginx.Library.LinkedTree
import Nginx.Core.Bytes

namespace Nginx.RadixTree

open LinkedTree

-- NGX_RADIX_NO_VALUE
def noValue : Nat := 2 ^ 64 - 1

-- ngx_radix_tree_t with its nodes, whose labels are the values. The root is that of the heap, and
-- calls counts the pages the tree has asked for.
structure Radix where
  nodes : Heap Nat
  free : Ptr
  start : Nat
  size : Nat
  calls : Nat

inductive Rc where
  | ok
  | busy
  | error
deriving DecidableEq

-- The pool of a tree: the size of a page and the answer to each call of ngx_pmemalign, none for NULL.
structure Pool where
  pagesize : Nat
  page : Nat → Option Nat

variable (pool : Pool)

-- sizeof(ngx_radix_node_t) and sizeof(ngx_radix_tree_t)
def nodeSize : Nat := 32

def treeSize : Nat := 40

def carve (T : Radix) : Ptr × Radix :=
  (T.start, { T with start := T.start + nodeSize, size := T.size - nodeSize })

-- ngx_radix_alloc; 0 is NULL.
def alloc (T : Radix) : Ptr × Radix :=
  if T.free ≠ 0 then (T.free, { T with free := T.nodes.child .right T.free })
  else if T.size < nodeSize then
    match pool.page T.calls with
    | none => (0, { T with start := 0, calls := T.calls + 1 })
    | some p => carve { T with start := p, size := pool.pagesize, calls := T.calls + 1 }
  else carve T

-- next->right = next->left = NULL; next->parent = node; next->value = NGX_RADIX_NO_VALUE;
def initNode (H : Heap Nat) (next node : Ptr) : Heap Nat :=
  (((H.setChild .right next 0).setChild .left next 0).setParent next node).setLabel next noValue

-- The side that key & bit selects, for bit = 1 << n.
def side (key n : Nat) : Dir := if key.testBit n then .right else .left

-- The first loop of an insert, with bit = 1 << n >> 1: what is left of bit, node and next.
def descend (H : Heap Nat) (key mask : Nat) : Nat → Ptr → Option (Nat × Ptr × Ptr)
  | 0, node => some (0, node, node)
  | n + 1, node =>
      if mask.testBit n then do
        let next ← deref node (H.child (side key n) node)
        if next = 0 then return (n + 1, node, 0) else descend H key mask n next
      else some (n + 1, node, node)

-- The second loop; no node is NGX_ERROR.
def extend (key mask : Nat) : Nat → Radix → Ptr → Option (Option Ptr × Radix)
  | 0, T, node => some (some node, T)
  | n + 1, T, node =>
      if mask.testBit n then
        let (next, T) := alloc pool T
        if next = 0 then some (none, T)
        else do
          let H ← deref node ((initNode T.nodes next node).setChild (side key n) node next)
          extend key mask n { T with nodes := H } next
      else some (some node, T)

-- ngx_radix32tree_insert
def insert (T : Radix) (key mask value : Nat) : Option (Rc × Radix) := do
  let (n, node, next) ← descend T.nodes key mask 32 T.nodes.root
  if next ≠ 0 then
    if T.nodes.label node ≠ noValue then return (.busy, T)
    else return (.ok, { T with nodes := T.nodes.setLabel node value })
  else
    let (last, T) ← extend pool key mask n T node
    match last with
    | none => return (.error, T)
    | some node => return (.ok, { T with nodes := T.nodes.setLabel node value })

-- while (node && (bit & mask))
def locate (H : Heap Nat) (key mask : Nat) : Nat → Ptr → Ptr
  | 0, node => node
  | n + 1, node =>
      if node ≠ 0 ∧ mask.testBit n = true then locate H key mask n (H.child (side key n) node) else node

-- The loop that frees a leaf and the ancestors it leaves without a purpose.
def prune : Nat → Radix → Ptr → Option Radix
  | 0, _, _ => none
  | n + 1, T, node => do
      let up := T.nodes.parent node
      let right ← deref up (T.nodes.child .right up)
      let H := if right = node then T.nodes.setChild .right up 0 else T.nodes.setChild .left up 0
      let T := { T with nodes := H.setChild .right node T.free, free := node }
      if T.nodes.child .right up ≠ 0 ∨ T.nodes.child .left up ≠ 0 then return T
      else if T.nodes.label up ≠ noValue then return T
      else if T.nodes.parent up = 0 then return T
      else prune n T up

-- ngx_radix32tree_delete
def delete (fuel : Nat) (T : Radix) (key mask : Nat) : Option (Rc × Radix) :=
  let node := locate T.nodes key mask 32 T.nodes.root
  if node = 0 then some (.error, T)
  else if T.nodes.child .right node ≠ 0 ∨ T.nodes.child .left node ≠ 0 then
    if T.nodes.label node ≠ noValue then
      some (.ok, { T with nodes := T.nodes.setLabel node noValue })
    else some (.error, T)
  else do
    let T ← prune fuel T node
    return (.ok, T)

-- The loop of ngx_radix32tree_find, with bit = 1 << n >> 1.
def findLoop (H : Heap Nat) (key : Nat) : Nat → Nat → Ptr → Nat → Option Nat
  | 0, _, _, _ => none
  | fuel + 1, n, node, value =>
      if node = 0 then some value
      else
        let value := if H.label node ≠ noValue then H.label node else value
        let d := if n = 0 then .left else side key (n - 1)
        findLoop H key fuel (n - 1) (H.child d node) value

-- ngx_radix32tree_find
def find (fuel : Nat) (T : Radix) (key : Nat) : Option Nat :=
  findLoop T.nodes key fuel 32 T.nodes.root noValue

-- do { insert; key += inc; } while (key), without the value; false is an insert that fails.
def fill (mask inc : Nat) : Nat → Radix → Nat → Option (Bool × Radix)
  | 0, _, _ => none
  | fuel + 1, T, key => do
      let (rc, T) ← insert pool T key mask noValue
      if rc ≠ .ok then return (false, T)
      else if (key + inc) % 2 ^ 32 = 0 then return (true, T)
      else fill mask inc fuel T ((key + inc) % 2 ^ 32)

-- while (preallocate--)
def grow (fuel : Nat) : Nat → Radix → Nat → Nat → Option (Bool × Radix)
  | 0, T, _, _ => some (true, T)
  | n + 1, T, mask, inc => do
      let mask := mask / 2 ||| 2 ^ 31
      let (done, T) ← fill pool mask inc fuel T 0
      if done then grow fuel n T mask (inc / 2) else return (false, T)

-- The number of rounds: -1 stands for what fills a page, and other negative numbers wrap around.
def rounds (preallocate : Int) : Nat :=
  if preallocate = -1 then
    if pool.pagesize / treeSize = 128 then 6
    else if pool.pagesize / treeSize = 256 then 7
    else 8
  else toSize preallocate

-- ngx_radix_tree_create, in a heap of any contents; the outer none is an access through NULL and the
-- inner one the result NULL.
def create (fuel : Nat) (H : Heap Nat) (preallocate : Int) : Option (Option Radix) :=
  let (root, T) := alloc pool ⟨H, 0, 0, 0, 0⟩
  if root = 0 then some none
  else do
    let T := { T with nodes := (initNode T.nodes root 0).setRoot root }
    let (done, T) ← grow pool fuel (rounds pool preallocate) T 0 (2 ^ 31)
    return if done then some T else none

open LinkedTree

-- ngx_pmemalign succeeds, with pages that share no byte.
structure Pool.Sound (pool : Pool) : Prop where
  room : nodeSize ≤ pool.pagesize
  page : ∀ i, ∃ p, pool.page i = some p ∧ p ≠ 0
  disjoint : ∀ i j p q, i ≠ j → pool.page i = some p → pool.page j = some q →
    p + pool.pagesize ≤ q ∨ q + pool.pagesize ≤ p

-- The free nodes, linked through their right pointers.
def FreeList (H : Heap Nat) : Ptr → List Ptr → Prop
  | p, [] => p = 0
  | p, q :: l => p = q ∧ FreeList H (H.child .right q) l

theorem FreeList.congr {H H' : Heap Nat} {p : Ptr} {l : List Ptr} (h : FreeList H p l)
    (hright : ∀ q ∈ l, H'.child .right q = H.child .right q) : FreeList H' p l := by
  induction l generalizing p with
  | nil => exact h
  | cons q l ih =>
      obtain ⟨rfl, hrest⟩ := h
      refine ⟨rfl, ?_⟩
      rw [hright p (by simp)]
      exact ih hrest fun q hq => hright q (List.mem_cons_of_mem p hq)

-- The address lies in a page below the space that is still unused.
def Carved (pool : Pool) (T : Radix) (q : Nat) : Prop :=
  ∃ i p, i < T.calls ∧ pool.page i = some p ∧ p ≤ q ∧ q + nodeSize ≤ p + pool.pagesize ∧
    (i + 1 = T.calls → q + nodeSize ≤ T.start)

-- The unused space is the rest of the last page.
def Rest (pool : Pool) (T : Radix) : Prop :=
  T.calls = 0 ∧ T.size = 0 ∨
    ∃ i p, T.calls = i + 1 ∧ pool.page i = some p ∧ p ≤ T.start ∧ T.start + T.size = p + pool.pagesize

-- The nodes L in the tree and the free ones l are all that was allocated.
structure Owned (pool : Pool) (T : Radix) (L l : List Ptr) : Prop where
  free : FreeList T.nodes T.free l
  nodup : (L ++ l).Nodup
  null : 0 ∉ L ++ l
  carved : ∀ q ∈ L ++ l, Carved pool T q
  rest : Rest pool T

variable {pool : Pool} {T : Radix} {L l : List Ptr}

theorem carve_spec (hpool : pool.Sound) (hrest : Rest pool T) (hsize : nodeSize ≤ T.size)
    (hcarved : ∀ q ∈ L, Carved pool T q) :
    Rest pool (carve T).2 ∧ T.start ∉ L ∧ T.start ≠ 0 ∧ ∀ q ∈ T.start :: L, Carved pool (carve T).2 q := by
  have hpos : 0 < nodeSize := by decide
  rcases hrest with ⟨-, hzero⟩ | ⟨i, p, hcalls, hpage, hle, hend⟩
  · omega
  · have hstart : T.start ≠ 0 := by
      obtain ⟨p', hp', hne⟩ := hpool.page i
      rw [hpage, Option.some.injEq] at hp'
      omega
    refine ⟨.inr ⟨i, p, hcalls, hpage, ?_, ?_⟩, ?_, hstart, ?_⟩
    · simp only [carve]
      omega
    · simp only [carve]
      omega
    · intro hmem
      obtain ⟨j, p', hj, hpage', hle', hend', hlast⟩ := hcarved _ hmem
      by_cases hji : j = i
      · have hstop := hlast (by omega)
        omega
      · rcases hpool.disjoint j i p' p hji hpage' hpage with h | h <;> omega
    · intro q hq
      rcases List.mem_cons.mp hq with rfl | hq
      · exact ⟨i, p, by simp only [carve]; omega, hpage, hle, by omega, fun _ => Nat.le_refl _⟩
      · obtain ⟨j, p', hj, hpage', hle', hend', hlast⟩ := hcarved q hq
        refine ⟨j, p', hj, hpage', hle', hend', fun heq => ?_⟩
        have hstop := hlast heq
        simp only [carve]
        omega

theorem refill_spec (hcarved : ∀ q ∈ L, Carved pool T q) (p : Nat) (hpage : pool.page T.calls = some p) :
    let T' := { T with start := p, size := pool.pagesize, calls := T.calls + 1 }
    Rest pool T' ∧ ∀ q ∈ L, Carved pool T' q := by
  refine ⟨.inr ⟨T.calls, p, rfl, hpage, Nat.le_refl _, rfl⟩, fun q hq => ?_⟩
  obtain ⟨j, p', hj, hpage', hle', hend', -⟩ := hcarved q hq
  refine ⟨j, p', Nat.lt_succ_of_lt hj, hpage', hle', hend', fun heq => ?_⟩
  have hlast : j + 1 = T.calls + 1 := heq
  omega

-- A new node is none of the allocated ones.
theorem alloc_spec (hpool : pool.Sound) (h : Owned pool T L l) :
    ∃ x T' l', alloc pool T = (x, T') ∧ T'.nodes = T.nodes ∧ x ≠ 0 ∧ Owned pool T' (x :: L) l' := by
  obtain ⟨hfree, hnodup, hnull, hcarved, hrest⟩ := h
  have hfresh : ∀ U : Radix, U.nodes = T.nodes → U.free = T.free → T.free = 0 → Rest pool U →
      nodeSize ≤ U.size → (∀ q ∈ L ++ l, Carved pool U q) →
      ∃ x T' l', carve U = (x, T') ∧ T'.nodes = T.nodes ∧ x ≠ 0 ∧ Owned pool T' (x :: L) l' := by
    intro U hnodes hfreeU hzero hrestU hsize hcarvedU
    obtain ⟨hrest', hnew, hne, hcarved'⟩ := carve_spec hpool hrestU hsize hcarvedU
    refine ⟨U.start, (carve U).2, l, rfl, hnodes, hne, ?_, ?_, ?_, hcarved', hrest'⟩
    · show FreeList U.nodes U.free l
      rw [hnodes, hfreeU]
      exact hfree
    · rw [List.cons_append, List.nodup_cons]
      exact ⟨hnew, hnodup⟩
    · rw [List.cons_append, List.mem_cons, not_or]
      exact ⟨hne.symm, hnull⟩
  by_cases hzero : T.free = 0
  · rw [alloc, if_neg (by simpa using hzero)]
    by_cases hsize : T.size < nodeSize
    · obtain ⟨p, hpage, -⟩ := hpool.page T.calls
      obtain ⟨hrest', hcarved'⟩ := refill_spec hcarved p hpage
      rw [if_pos hsize, hpage]
      exact hfresh _ rfl rfl hzero hrest' hpool.room hcarved'
    · rw [if_neg hsize]
      exact hfresh T rfl rfl hzero hrest (by omega) hcarved
  · rw [alloc, if_pos hzero]
    cases l with
    | nil => exact absurd hfree hzero
    | cons q l =>
        obtain ⟨hq, hrestl⟩ := hfree
        have hperm : (L ++ q :: l).Perm (q :: (L ++ l)) := List.perm_middle
        refine ⟨T.free, _, l, rfl, rfl, hzero, ?_, ?_, ?_, fun p hp => ?_, hrest⟩
        · show FreeList T.nodes (T.nodes.child .right T.free) l
          rw [hq]
          exact hrestl
        · rw [hq]
          exact hperm.nodup_iff.mp hnodup
        · rw [hq]
          exact hperm.mem_iff.not.mp hnull
        · rw [hq] at hp
          exact hcarved p (hperm.mem_iff.mpr hp)

-- Only the right pointers of free nodes matter to the free list.
theorem Owned.write {H : Heap Nat} {L' : List Ptr} (h : Owned pool T L l) (hperm : L'.Perm L)
    (hright : ∀ q ∈ l, H.child .right q = T.nodes.child .right q) :
    Owned pool { T with nodes := H } L' l := by
  obtain ⟨hfree, hnodup, hnull, hcarved, hrest⟩ := h
  have hall := hperm.append_right l
  exact ⟨hfree.congr hright, hall.nodup_iff.mpr hnodup, hall.mem_iff.not.mpr hnull,
    fun q hq => hcarved q (hall.mem_iff.mp hq), hrest⟩

theorem Owned.mem_free {q : Ptr} (h : Owned pool T L l) (hq : q ∈ l) : q ∉ L :=
  fun hL => (List.nodup_append.mp h.nodup).2.2 q hL q hq rfl

-- A node moves from the tree to the free list.
theorem Owned.release {x : Ptr} (h : Owned pool T (x :: L) l) :
    Owned pool { T with nodes := T.nodes.setChild .right x T.free, free := x } L (x :: l) := by
  have hx : ∀ q ∈ l, q ≠ x := fun q hq heq => h.mem_free hq (by simp [heq])
  obtain ⟨hfree, hnodup, hnull, hcarved, hrest⟩ := h
  have hall : (L ++ x :: l).Perm (x :: L ++ l) := List.perm_middle
  refine ⟨⟨rfl, ?_⟩, hall.nodup_iff.mpr hnodup, hall.mem_iff.not.mpr hnull,
    fun q hq => hcarved q (hall.mem_iff.mp hq), hrest⟩
  rw [show (T.nodes.setChild .right x T.free).child .right x = T.free by simp]
  exact hfree.congr fun q hq => by simp [hx q hq]

end Nginx.RadixTree
