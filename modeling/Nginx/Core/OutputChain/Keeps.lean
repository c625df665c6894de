import Nginx.Core.OutputChain

namespace Nginx.OutputChain

open ByteMemory

variable {env : Env} {s : State} {out : List Nat}

def Cell.Wf (env : Env) (c : Cell) : Prop := c.buf.Wf ⟨c.mem, env.file⟩

def State.Wf (env : Env) (s : State) (i : Nat) : Prop := (s.cells i).Wf env

-- Each buf is in one place, the filter holds what it has not consumed, and nothing is lost.
structure Keeps (env : Env) (tag : Nat) (given : Bytes) (s : State) (out : List Nat) : Prop where
  tag : s.ctx.tag = tag
  once : ∀ i, s.ctx.inChain.count i + out.count i + s.ctx.busy.count i + s.ctx.free.count i ≤ 1
  inNew : ∀ i ∈ s.ctx.inChain, i < s.next ∧ s.rest i = [] ∧ s.Wf env i ∧ (s.cells i).buf.tag ≠ s.ctx.tag
  outNew : ∀ i ∈ out, i < s.next ∧ s.rest i = [] ∧ s.Wf env i
  outOwn : ∀ i ∈ out, (s.cells i).buf.tag = s.ctx.tag → (s.cells i).buf.temporary = true
  busyHeld : ∀ i ∈ s.ctx.busy, i < s.next ∧ s.bytes env i = s.rest i
  busyOwn : ∀ i ∈ s.ctx.busy, (s.cells i).buf.tag = s.ctx.tag → (s.cells i).buf.temporary = true
  freeReady : ∀ i ∈ s.ctx.free, i < s.next ∧ s.rest i = [] ∧ (s.cells i).buf.temporary = true ∧
    (s.cells i).buf.last = (s.cells i).buf.pos
  held : ∀ i, s.rest i ≠ [] → i < s.next ∧ s.bytes env i = s.rest i ∧ s.Wf env i
  conserved : s.passed ++ s.chainBytes env out ++ s.chainBytes env s.ctx.inChain = given

theorem setCell_same (cells : Nat → Cell) (i : Nat) (c : Cell) : setCell cells i c i = c := if_pos rfl

theorem setCell_other {cells : Nat → Cell} {i j : Nat} (h : j ≠ i) (c : Cell) : setCell cells i c j = cells j := if_neg h

@[simp] theorem chainBytes_nil (s : State) : s.chainBytes env [] = [] := rfl

@[simp] theorem chainBytes_cons (s : State) (i : Nat) (ids : List Nat) :
    s.chainBytes env (i :: ids) = s.bytes env i ++ s.chainBytes env ids := rfl

@[simp] theorem chainBytes_append (s : State) (ids ids' : List Nat) :
    s.chainBytes env (ids ++ ids') = s.chainBytes env ids ++ s.chainBytes env ids' := List.flatMap_append

theorem chainBytes_congr {s s' : State} {ids : List Nat} (h : ∀ i ∈ ids, s'.bytes env i = s.bytes env i) :
    s'.chainBytes env ids = s.chainBytes env ids := by
  induction ids with
  | nil => rfl
  | cons i ids ih =>
      obtain ⟨hi, hids⟩ := List.forall_mem_cons.mp h
      rw [chainBytes_cons, chainBytes_cons, hi, ih hids]

-- A buf as it is: the sender of it can only have lost its file.
theorem asIs_same (env : Env) (ctx : Ctx) (b : Buf) :
    (asIs env ctx b).2 = b ∨ (b.inMemory = true ∧ (asIs env ctx b).2 = { b with inFile := false }) := by
  unfold asIs
  split
  · exact Or.inl rfl
  · split
    · exact Or.inl rfl
    · split
      · exact Or.inl rfl
      · rename_i hplace
        dsimp only
        cases hsend : ctx.sendfile with
        | true =>
            simp only [if_true]
            left
            split
            · rfl
            · split <;> rfl
        | false =>
            rw [hsend] at hplace
            simp only [Bool.not_false, Bool.true_and, Bool.not_eq_true', Bool.not_eq_false] at hplace
            simp only [Bool.false_eq_true, if_false]
            right
            refine ⟨hplace, ?_⟩
            split
            · rfl
            · split <;> rfl

-- What a change of a buf that keeps its bytes keeps of it
structure SameBuf (w : World) (b b' : Buf) : Prop where
  bytes : b'.bytes w = b.bytes w
  wf : b.Wf w → b'.Wf w
  tag : b'.tag = b.tag
  temporary : b'.temporary = b.temporary

theorem asIs_sameBuf (env : Env) (ctx : Ctx) (w : World) (b : Buf) : SameBuf w b (asIs env ctx b).2 := by
  obtain h | ⟨hmem, h⟩ := asIs_same env ctx b
  · rw [h]
    exact ⟨rfl, id, rfl, rfl⟩
  · rw [h]
    refine ⟨?_, ?_, rfl, rfl⟩
    · unfold Buf.bytes
      have hmem' : ({ b with inFile := false } : Buf).inMemory = true := hmem
      rw [hmem, hmem']
    · intro hwf
      exact ⟨hwf.mem, fun hin => Bool.noConfusion hin, fun hnot => absurd (hmem.symm.trans hnot) (by decide),
        fun _ hin => Bool.noConfusion hin⟩

theorem SameBuf.size {w : World} {b b' : Buf} (h : SameBuf w b b') : b'.size = b.size := by
  rw [← Buf.bytes_length (w := w), ← Buf.bytes_length (w := w), h.bytes]

-- The buf that was written: its memory has the bytes, and its file, if it has one now, has them too.
theorem written_spec {file : Nat → Memory} {mem : Memory} {src dst : Buf} {bs : Bytes} {mark finished : Bool}
    (htemp : dst.temporary = true) (hempty : dst.last = dst.pos)
    (hmark : mark = true → load (file src.file) src.filePos bs.length = bs) :
    let b := moveFlags finished src (markFile mark src { dst with last := dst.last + bs.length } bs.length)
    let w : World := ⟨store mem dst.pos bs, file⟩
    b.bytes w = bs ∧ b.Wf w ∧ b.tag = dst.tag ∧ b.temporary = true := by
  intro b w
  have hfields : b.pos = dst.pos ∧ b.last = dst.pos + bs.length ∧ b.tag = dst.tag ∧ b.temporary = true ∧
      b.inFile = mark ∧ (mark = true → b.file = src.file ∧ b.filePos = src.filePos ∧ b.fileLast = src.filePos + bs.length) := by
    simp only [b, moveFlags, markFile, ← hempty]
    cases mark <;> cases finished <;> simp [htemp]
  obtain ⟨hpos, hlast, htag, htemp', hin, hrange⟩ := hfields
  have hmem : b.inMemory = true := by rw [Buf.inMemory, htemp', Bool.true_or, Bool.true_or]
  have hload : load w.mem b.pos (b.last - b.pos) = bs := by
    rw [hpos, hlast, Nat.add_sub_cancel_left]
    exact load_store_same mem dst.pos bs
  refine ⟨?_, ?_, htag, htemp'⟩
  · rw [Buf.bytes, hmem, if_pos rfl, hload]
  · constructor
    · intro _
      omega
    · intro hfile
      have hrange' := hrange (hin ▸ hfile)
      omega
    · intro hnot
      exact absurd (hmem.symm.trans hnot) (by decide)
    · intro _ hfile
      obtain ⟨hf, hfpos, hflast⟩ := hrange (hin ▸ hfile)
      refine ⟨by omega, ?_⟩
      rw [hload, hf, hfpos, hflast, Nat.add_sub_cancel_left]
      exact (hmark (hin ▸ hfile)).symm

-- What the copy takes leaves the source.
theorem moved_spec {w : World} {b : Buf} (hwf : b.Wf w) (hmem : b.inMemory = false) {n : Nat} (hn : n ≤ b.size) :
    let b' := { b with filePos := b.filePos + n }
    b'.bytes w = (b.bytes w).drop n ∧ b'.Wf w ∧ load (w.file b.file) b.filePos n = (b.bytes w).take n := by
  intro b'
  have hmem' : b'.inMemory = false := hmem
  have hbytes : b.bytes w = load (w.file b.file) b.filePos (b.fileLast - b.filePos) := by
    rw [Buf.bytes, hmem, if_neg Bool.false_ne_true]
  rw [Buf.size, hmem, if_neg Bool.false_ne_true] at hn
  refine ⟨?_, ?_, ?_⟩
  · rw [hbytes, Buf.bytes, hmem', if_neg Bool.false_ne_true, ← load_drop _ _ _ _ hn, ← Nat.sub_add_eq]
  · constructor
    · intro h
      exact absurd (hmem'.symm.trans h) (by decide)
    · intro hfile
      have hle := hwf.file hfile
      show b.filePos + n ≤ b.fileLast
      omega
    · intro _ hfile
      have hle := hwf.place hmem hfile
      show b.fileLast ≤ b.filePos + n
      omega
    · intro h
      exact absurd (hmem'.symm.trans h) (by decide)
  · rw [hbytes, load_take _ _ _ _ hn]

-- The copy moves the first bytes of src to dst, and changes nothing else.
structure Copied (env : Env) (s s' : State) (i d n : Nat) : Prop where
  src : s'.bytes env i = (s.bytes env i).drop n
  srcWf : s'.Wf env i
  srcTag : (s'.cells i).buf.tag = (s.cells i).buf.tag
  dst : s'.bytes env d = (s.bytes env i).take n
  dstWf : s'.Wf env d
  dstTag : (s'.cells d).buf.tag = (s.cells d).buf.tag
  dstTemporary : (s'.cells d).buf.temporary = true
  others : ∀ j, j ≠ i → j ≠ d → s'.cells j = s.cells j
  ctx : s'.ctx = s.ctx
  next : s'.next = s.next
  rest : s'.rest = s.rest
  passed : s'.passed = s.passed

theorem Copied.of_cells {s s' : State} {i d n : Nat} {moved dst : Buf} {mem : Memory} (hne : i ≠ d)
    (hcells : s'.cells = setCell (setCell s.cells i { s.cells i with buf := moved }) d ⟨dst, mem⟩)
    (hsame : s'.ctx = s.ctx ∧ s'.next = s.next ∧ s'.rest = s.rest ∧ s'.passed = s.passed)
    (hsrc : moved.bytes ⟨(s.cells i).mem, env.file⟩ = (s.bytes env i).drop n ∧ moved.Wf ⟨(s.cells i).mem, env.file⟩)
    (hsrcTag : moved.tag = (s.cells i).buf.tag)
    (hdst : dst.bytes ⟨mem, env.file⟩ = (s.bytes env i).take n ∧ dst.Wf ⟨mem, env.file⟩ ∧
      dst.tag = (s.cells d).buf.tag ∧ dst.temporary = true) : Copied env s s' i d n := by
  have hi : s'.cells i = { s.cells i with buf := moved } := by
    rw [hcells, setCell_other hne, setCell_same]
  have hd : s'.cells d = ⟨dst, mem⟩ := by rw [hcells, setCell_same]
  obtain ⟨hbytes, hwf, htag, htemp⟩ := hdst
  obtain ⟨hctx, hnext, hrest, hpassed⟩ := hsame
  constructor
  · rw [State.bytes, hi]
    exact hsrc.1
  · rw [State.Wf, hi]
    exact hsrc.2
  · rw [hi]
    exact hsrcTag
  · rw [State.bytes, hd]
    exact hbytes
  · rw [State.Wf, hd]
    exact hwf
  · rw [hd]
    exact htag
  · rw [hd]
    exact htemp
  · intro j hji hjd
    rw [hcells, setCell_other hjd, setCell_other hji]
  · exact hctx
  · exact hnext
  · exact hrest
  · exact hpassed

theorem copyBuf_spec (hreads : ∀ n, env.reads n = true) {i d : Nat} (hne : i ≠ d) (hwf : s.Wf env i)
    (htemp : (s.cells d).buf.temporary = true) (hempty : (s.cells d).buf.last = (s.cells d).buf.pos) :
    ∃ s' n, copyBuf env s i d = some s' ∧ Copied env s s' i d n := by
  have hle : min (s.cells i).buf.size ((s.cells d).buf.bufEnd - (s.cells d).buf.pos) ≤ (s.cells i).buf.size :=
    Nat.min_le_left _ _
  unfold copyBuf
  dsimp only
  generalize min (s.cells i).buf.size ((s.cells d).buf.bufEnd - (s.cells d).buf.pos) = n at hle
  cases hmem : (s.cells i).buf.inMemory with
  | true =>
      rw [if_pos rfl]
      have hbytes : s.bytes env i = load (s.cells i).mem (s.cells i).buf.pos ((s.cells i).buf.last - (s.cells i).buf.pos) := by
        rw [State.bytes, Cell.bytes, Buf.bytes, hmem, if_pos rfl]
      have hsize : (s.cells i).buf.size = (s.cells i).buf.last - (s.cells i).buf.pos := by
        rw [Buf.size, hmem, if_pos rfl]
      have htake : load (s.cells i).mem (s.cells i).buf.pos n = (s.bytes env i).take n := by
        rw [hbytes, load_take _ _ _ _ (hsize ▸ hle)]
      have hlen : (load (s.cells i).mem (s.cells i).buf.pos n).length = n := load_length _ _ _
      have hwritten := @written_spec env.file (s.cells d).mem (s.cells i).buf (s.cells d).buf
        (load (s.cells i).mem (s.cells i).buf.pos n)
        ((s.cells i).buf.inFile && (s.ctx.sendfile && !s.ctx.directio))
        (((s.cells i).buf.advance n).pos == ((s.cells i).buf.advance n).last) htemp hempty (by
          intro hmark
          rw [Bool.and_eq_true] at hmark
          obtain ⟨hlens, hboth⟩ := hwf.both hmem hmark.1
          rw [hlen, load_take _ _ _ n (hlens ▸ hsize ▸ hle), ← hboth, ← load_take _ _ _ n (hsize ▸ hle)])
      rw [hlen, htake] at hwritten
      rw [htake]
      exact ⟨_, n, rfl, Copied.of_cells hne rfl ⟨rfl, rfl, rfl, rfl⟩ ⟨hwf.advance_bytes hle, hwf.advance hle⟩ rfl hwritten⟩
  | false =>
      obtain ⟨hbytes, hwf', htake⟩ := moved_spec hwf hmem hle
      rw [if_neg Bool.false_ne_true, hreads, Bool.not_true, if_neg Bool.false_ne_true]
      have hlen : (load (env.file (s.cells i).buf.file) (s.cells i).buf.filePos n).length = n := load_length _ _ _
      have hwritten := @written_spec env.file (s.cells d).mem (s.cells i).buf (s.cells d).buf
        (load (env.file (s.cells i).buf.file) (s.cells i).buf.filePos n) (s.ctx.sendfile && !s.ctx.directio)
        ((s.cells i).buf.filePos + n == (s.cells i).buf.fileLast) htemp hempty (by
          intro _
          rw [hlen])
      rw [hlen, htake] at hwritten
      rw [htake]
      exact ⟨_, n, rfl, Copied.of_cells hne rfl ⟨rfl, rfl, rfl, rfl⟩ ⟨hbytes, hwf'⟩ rfl hwritten⟩

-- A step that changes only counters and flags
structure Unchanged (s s' : State) : Prop where
  buf : s'.ctx.buf = s.ctx.buf
  inChain : s'.ctx.inChain = s.ctx.inChain
  free : s'.ctx.free = s.ctx.free
  busy : s'.ctx.busy = s.ctx.busy
  tag : s'.ctx.tag = s.ctx.tag
  cells : s'.cells = s.cells
  next : s'.next = s.next
  rest : s'.rest = s.rest
  passed : s'.passed = s.passed

theorem Unchanged.refl (s : State) : Unchanged s s := ⟨rfl, rfl, rfl, rfl, rfl, rfl, rfl, rfl, rfl⟩

-- A buf to copy to: the first free one, or a new one
structure Got (s s' : State) (d : Nat) : Prop where
  place : (s.ctx.free = d :: s'.ctx.free ∧ s'.next = s.next) ∨
    (d = s.next ∧ s'.ctx.free = s.ctx.free ∧ s'.next = s.next + 1)
  temporary : (s'.cells d).buf.temporary = true
  empty : (s'.cells d).buf.last = (s'.cells d).buf.pos
  others : ∀ j, j ≠ d → s'.cells j = s.cells j
  inChain : s'.ctx.inChain = s.ctx.inChain
  busy : s'.ctx.busy = s.ctx.busy
  tag : s'.ctx.tag = s.ctx.tag
  rest : s'.rest = s.rest
  passed : s'.passed = s.passed

def Taken.Spec (s : State) : Taken → Prop
  | .got d s' => Got s s' d
  | .declined s' => Unchanged s s'
  | .full s' => Unchanged s s'
  | .error _ => False

theorem newBuf_spec (hallocs : ∀ n, env.allocs n = true) {b : Buf} (htemp : b.temporary = true) (hempty : b.last = b.pos)
    {s₁ : State} (h : Unchanged s s₁) : ∃ s', newBuf env s₁ b = (some s.next, s') ∧ Got s s' s.next := by
  refine ⟨{ s₁ with
    asked := s₁.asked + 1 + 1
    cells := setCell s₁.cells s₁.next ⟨b, fun _ => 0⟩
    next := s₁.next + 1
    ctx := { s₁.ctx with buf := some s₁.next } }, ?_, ?_⟩
  · simp only [newBuf, State.ask, hallocs, Bool.not_true, Bool.false_eq_true, if_false, h.next]
  · refine ⟨Or.inr ⟨rfl, h.free, ?_⟩, ?_, ?_, ?_, h.inChain, h.busy, h.tag, h.rest, h.passed⟩
    · show s₁.next + 1 = s.next + 1
      rw [h.next]
    · show (setCell s₁.cells s₁.next _ s.next).buf.temporary = true
      rw [← h.next, setCell_same]
      exact htemp
    · show (setCell s₁.cells s₁.next _ s.next).buf.last = (setCell s₁.cells s₁.next _ s.next).buf.pos
      rw [← h.next, setCell_same]
      exact hempty
    · intro j hj
      show setCell s₁.cells s₁.next _ j = s.cells j
      rw [h.next, setCell_other hj, h.cells]

theorem alignFileBuf_spec (hallocs : ∀ n, env.allocs n = true) (s : State) (i bsize : Nat) :
    (alignFileBuf env s i bsize).Spec s := by
  unfold alignFileBuf
  dsimp only
  split
  · exact Unchanged.refl s
  · have hdirect : Unchanged s { s with ctx := { s.ctx with directio := true } } :=
      ⟨rfl, rfl, rfl, rfl, rfl, rfl, rfl, rfl, rfl⟩
    split
    · exact hdirect
    · obtain ⟨s', hnew, hgot⟩ := newBuf_spec hallocs (b := { Buf.empty with
        bufEnd := if (s.cells i).buf.filePos &&& (s.ctx.alignment - 1) = 0 then bsize
          else min (s.ctx.alignment - ((s.cells i).buf.filePos &&& (s.ctx.alignment - 1))) bsize
        temporary := true }) rfl rfl hdirect
      rw [hnew]
      exact hgot

theorem getBuf_spec (hallocs : ∀ n, env.allocs n = true) {s₁ : State} (h : Unchanged s s₁) (i bsize : Nat) :
    (getBuf env s₁ i bsize).Spec s := by
  unfold getBuf
  dsimp only
  generalize ((s₁.cells i).buf.lastInChain && _) = small
  obtain ⟨s', hnew, hgot⟩ := newBuf_spec hallocs (b := { Buf.empty with
    bufEnd := if small = true then bsize else s₁.ctx.size
    temporary := true
    tag := s₁.ctx.tag
    recycled := !small }) rfl rfl h
  rw [hnew]
  exact ⟨hgot.place, hgot.temporary, hgot.empty, hgot.others, hgot.inChain, hgot.busy, hgot.tag, hgot.rest, hgot.passed⟩

theorem takeBuf_spec (hallocs : ∀ n, env.allocs n = true) (hbuf : s.ctx.buf = none)
    (hfree : ∀ d ∈ s.ctx.free, (s.cells d).buf.temporary = true ∧ (s.cells d).buf.last = (s.cells d).buf.pos)
    (out : List Nat) (i bsize : Nat) : (takeBuf env s out i bsize).Spec s := by
  unfold takeBuf
  rw [hbuf]
  dsimp only
  have halign := alignFileBuf_spec hallocs s i bsize
  generalize alignFileBuf env s i bsize = taken at halign
  cases taken with
  | got d s' => exact halign
  | full s' => exact halign
  | error s' => exact halign
  | declined s₁ =>
      have hsame : Unchanged s s₁ := halign
      dsimp only
      cases hlist : s₁.ctx.free with
      | cons d free =>
          have hlist' := hsame.free ▸ hlist
          obtain ⟨htemp, hempty⟩ := hfree d (hlist' ▸ List.mem_cons_self)
          refine ⟨Or.inl ⟨hlist', hsame.next⟩, ?_, ?_, ?_, hsame.inChain, hsame.busy, hsame.tag, hsame.rest, hsame.passed⟩
          · show (s₁.cells d).buf.temporary = true
            rw [hsame.cells]
            exact htemp
          · show (s₁.cells d).buf.last = (s₁.cells d).buf.pos
            rw [hsame.cells]
            exact hempty
          · intro j _
            exact congrFun hsame.cells j
      | nil =>
          dsimp only
          split
          · exact hsame
          · exact getBuf_spec hallocs hsame i bsize

section

variable {tag : Nat} {given : Bytes} {i : Nat} {tail : List Nat}

theorem Keeps.unchanged {s' : State} (h : Keeps env tag given s out) (hsame : Unchanged s s') : Keeps env tag given s' out := by
  obtain ⟨-, hin, hfree, hbusy, htag, hcells, hnext, hrest, hpassed⟩ := hsame
  have hbytes : ∀ j, s'.bytes env j = s.bytes env j := fun j => by rw [State.bytes, State.bytes, hcells]
  constructor <;> simp only [hbytes, State.Wf, hin, hfree, hbusy, htag, hcells, hnext, hrest, hpassed]
  · exact h.tag
  · exact h.once
  · exact h.inNew
  · exact h.outNew
  · exact h.outOwn
  · exact h.busyHeld
  · exact h.busyOwn
  · exact h.freeReady
  · exact h.held
  · rw [chainBytes_congr fun j _ => hbytes j, chainBytes_congr fun j _ => hbytes j]
    exact h.conserved

-- The first buf of ctx->in has nothing left.
theorem Keeps.dropHead (h : Keeps env tag given s out) (hin : s.ctx.inChain = i :: tail)
    (hempty : s.bytes env i = []) : Keeps env tag given (s.setIn tail) out := by
  constructor
  · exact h.tag
  · intro j
    have honce := h.once j
    rw [hin, List.count_cons] at honce
    show tail.count j + out.count j + s.ctx.busy.count j + s.ctx.free.count j ≤ 1
    omega
  · intro j hj
    exact h.inNew j (hin ▸ List.mem_cons_of_mem i hj)
  · exact h.outNew
  · exact h.outOwn
  · exact h.busyHeld
  · exact h.busyOwn
  · exact h.freeReady
  · exact h.held
  · have hconserved := h.conserved
    rw [hin, chainBytes_cons, hempty, List.nil_append] at hconserved
    exact hconserved

-- It goes to the output chain as it is.
theorem Keeps.moveHead (h : Keeps env tag given s out) (hin : s.ctx.inChain = i :: tail) :
    Keeps env tag given (s.setIn tail) (out ++ [i]) := by
  have hi := h.inNew i (hin ▸ List.mem_cons_self)
  constructor
  · exact h.tag
  · intro j
    have honce := h.once j
    rw [hin, List.count_cons] at honce
    show tail.count j + (out ++ [i]).count j + s.ctx.busy.count j + s.ctx.free.count j ≤ 1
    rw [List.count_append, List.count_singleton]
    omega
  · intro j hj
    exact h.inNew j (hin ▸ List.mem_cons_of_mem i hj)
  · intro j hj
    obtain hout | hlast := List.mem_append.mp hj
    · exact h.outNew j hout
    · obtain rfl := List.mem_singleton.mp hlast
      exact ⟨hi.1, hi.2.1, hi.2.2.1⟩
  · intro j hj htag
    obtain hout | hlast := List.mem_append.mp hj
    · exact h.outOwn j hout htag
    · obtain rfl := List.mem_singleton.mp hlast
      exact absurd htag hi.2.2.2
  · exact h.busyHeld
  · exact h.busyOwn
  · exact h.freeReady
  · exact h.held
  · have hconserved := h.conserved
    rw [hin, chainBytes_cons] at hconserved
    rw [← hconserved]
    show s.passed ++ s.chainBytes env (out ++ [i]) ++ s.chainBytes env tail = _
    rw [chainBytes_append, chainBytes_cons, chainBytes_nil, List.append_nil]
    simp only [List.append_assoc]

theorem Keeps.setBuf (h : Keeps env tag given s out) (hi : i ∈ s.ctx.inChain) {b : Buf}
    (hb : SameBuf ⟨(s.cells i).mem, env.file⟩ (s.cells i).buf b) : Keeps env tag given (s.setBuf i b) out := by
  have hself : (s.setBuf i b).cells i = { s.cells i with buf := b } := setCell_same s.cells i _
  have hother : ∀ j, j ≠ i → (s.setBuf i b).cells j = s.cells j := fun j hj => setCell_other hj _
  have hbytes : ∀ j, (s.setBuf i b).bytes env j = s.bytes env j := by
    intro j
    by_cases hj : j = i
    · subst hj
      rw [State.bytes, hself]
      exact hb.bytes
    · rw [State.bytes, hother j hj]
      rfl
  have hwf : ∀ j, s.Wf env j → (s.setBuf i b).Wf env j := by
    intro j hj'
    by_cases hj : j = i
    · subst hj
      rw [State.Wf, hself]
      exact hb.wf hj'
    · rw [State.Wf, hother j hj]
      exact hj'
  have htag : ∀ j, ((s.setBuf i b).cells j).buf.tag = (s.cells j).buf.tag := by
    intro j
    by_cases hj : j = i
    · subst hj
      rw [hself]
      exact hb.tag
    · rw [hother j hj]
  have htemp : ∀ j, ((s.setBuf i b).cells j).buf.temporary = (s.cells j).buf.temporary := by
    intro j
    by_cases hj : j = i
    · subst hj
      rw [hself]
      exact hb.temporary
    · rw [hother j hj]
  constructor
  · exact h.tag
  · exact h.once
  · intro j hj
    obtain ⟨hlt, hrest, hwf', htag'⟩ := h.inNew j hj
    exact ⟨hlt, hrest, hwf j hwf', htag j ▸ htag'⟩
  · intro j hj
    obtain ⟨hlt, hrest, hwf'⟩ := h.outNew j hj
    exact ⟨hlt, hrest, hwf j hwf'⟩
  · intro j hj htag'
    rw [htemp]
    exact h.outOwn j hj (htag j ▸ htag')
  · intro j hj
    rw [hbytes]
    exact h.busyHeld j hj
  · intro j hj htag'
    rw [htemp]
    exact h.busyOwn j hj (htag j ▸ htag')
  · intro j hj
    have hne : j ≠ i := by
      intro heq
      subst heq
      have honce := h.once j
      have hin := List.count_pos_iff.mpr hi
      have hfree := List.count_pos_iff.mpr hj
      have hfree' : 0 < s.ctx.free.count j := hfree
      omega
    rw [hother j hne]
    exact h.freeReady j hj
  · intro j hj
    obtain ⟨hlt, hbytes', hwf'⟩ := h.held j hj
    rw [hbytes]
    exact ⟨hlt, hbytes', hwf j hwf'⟩
  · have hconserved := h.conserved
    rw [chainBytes_congr fun j _ => hbytes j, chainBytes_congr fun j _ => hbytes j]
    exact hconserved

theorem Keeps.lt_next (h : Keeps env tag given s out) {j : Nat}
    (hj : 0 < s.ctx.inChain.count j + out.count j + s.ctx.busy.count j + s.ctx.free.count j) : j < s.next := by
  by_contra hle
  have hin : s.ctx.inChain.count j = 0 := List.count_eq_zero.mpr fun hmem => hle (h.inNew j hmem).1
  have hout : out.count j = 0 := List.count_eq_zero.mpr fun hmem => hle (h.outNew j hmem).1
  have hbusy : s.ctx.busy.count j = 0 := List.count_eq_zero.mpr fun hmem => hle (h.busyHeld j hmem).1
  have hfree : s.ctx.free.count j = 0 := List.count_eq_zero.mpr fun hmem => hle (h.freeReady j hmem).1
  omega

-- The buf to copy to is in no other place, and the filter holds nothing of it.
theorem Keeps.got_fresh (h : Keeps env tag given s out) {s₁ : State} {d : Nat} (hgot : Got s s₁ d) :
    (∀ j, s.ctx.inChain.count j + (out ++ [d]).count j + s.ctx.busy.count j + s₁.ctx.free.count j ≤ 1) ∧
      s.rest d = [] ∧ d < s₁.next ∧ s.next ≤ s₁.next ∧ s₁.ctx.free ⊆ s.ctx.free := by
  obtain ⟨hfree, hnext⟩ | ⟨hd, hfree, hnext⟩ := hgot.place
  · have hd := h.freeReady d (hfree ▸ List.mem_cons_self)
    refine ⟨?_, hd.2.1, hnext ▸ hd.1, Nat.le_of_eq hnext.symm, hfree ▸ List.subset_cons_self d _⟩
    intro j
    have honce := h.once j
    rw [hfree, List.count_cons] at honce
    rw [List.count_append, List.count_singleton]
    omega
  · refine ⟨?_, ?_, by omega, by omega, fun j hj => hfree ▸ hj⟩
    · intro j
      have honce := h.once j
      have hlt := @Keeps.lt_next _ _ _ _ _ h j
      rw [List.count_append, List.count_singleton, hfree]
      cases hj : d == j with
      | false =>
          simp only [Bool.false_eq_true, if_false]
          omega
      | true =>
          have hj' := eq_of_beq hj
          simp only [if_true]
          omega
    · by_contra hrest
      have hlt := (h.held d hrest).1
      omega

-- Its first bytes go to a free buf or to a new one.
theorem Keeps.copyHead (h : Keeps env tag given s out) (hin : s.ctx.inChain = i :: tail) {s₁ s₂ : State} {d n : Nat}
    (hgot : Got s s₁ d) (hcopied : Copied env s₁ s₂ i d n) : Keeps env tag given s₂ (out ++ [d]) := by
  have hmem : i ∈ s.ctx.inChain := hin ▸ List.mem_cons_self
  obtain ⟨hlt, hrestI, -, htagI⟩ := h.inNew i hmem
  obtain ⟨honce, hrestD, hltD, hnext, hsub⟩ := h.got_fresh hgot
  have hctx : s₂.ctx.inChain = s.ctx.inChain ∧ s₂.ctx.busy = s.ctx.busy ∧ s₂.ctx.tag = s.ctx.tag ∧
      s₂.ctx.free = s₁.ctx.free := by
    rw [hcopied.ctx]
    exact ⟨hgot.inChain, hgot.busy, hgot.tag, rfl⟩
  obtain ⟨hin₂, hbusy₂, htag₂, hfree₂⟩ := hctx
  have hrest₂ : s₂.rest = s.rest := hcopied.rest.trans hgot.rest
  have hnext₂ : s.next ≤ s₂.next := hcopied.next ▸ hnext
  have hcount : ∀ j, j ∈ s.ctx.inChain ∨ j ∈ out ∨ j ∈ s.ctx.busy ∨ j ∈ s₁.ctx.free → j ≠ d := by
    intro j hj heq
    subst heq
    have hone := honce j
    rw [List.count_append, List.count_singleton_self] at hone
    obtain hj | hj | hj | hj := hj
    all_goals
      have hpos := List.count_pos_iff.mpr hj
      omega
  have hne : i ≠ d := hcount i (Or.inl hmem)
  have hcell : ∀ j, j ≠ i → j ≠ d → s₂.cells j = s.cells j :=
    fun j hji hjd => (hcopied.others j hji hjd).trans (hgot.others j hjd)
  have hsrc : s₁.cells i = s.cells i := hgot.others i hne
  have hbytesI : s₁.bytes env i = s.bytes env i := by rw [State.bytes, State.bytes, hsrc]
  have hbytes : ∀ j, j ≠ i → j ≠ d → s₂.bytes env j = s.bytes env j := by
    intro j hji hjd
    rw [State.bytes, State.bytes, hcell j hji hjd]
  have hnotI : ∀ j, j ∈ out ∨ j ∈ s.ctx.busy ∨ j ∈ s₁.ctx.free → j ≠ i := by
    intro j hj heq
    subst heq
    have hone := honce j
    have hpos := List.count_pos_iff.mpr hmem
    rw [List.count_append] at hone
    obtain hj | hj | hj := hj
    all_goals
      have hpos' := List.count_pos_iff.mpr hj
      omega
  constructor
  · exact htag₂.trans h.tag
  · intro j
    rw [hin₂, hbusy₂, hfree₂]
    exact honce j
  · intro j hj
    rw [hin₂] at hj
    obtain ⟨hltJ, hrestJ, hwfJ, htagJ⟩ := h.inNew j hj
    rw [hrest₂, htag₂]
    by_cases hji : j = i
    · subst hji
      refine ⟨by omega, hrestJ, hcopied.srcWf, ?_⟩
      rw [hcopied.srcTag, hsrc]
      exact htagJ
    · have hjd := hcount j (Or.inl hj)
      rw [State.Wf, hcell j hji hjd]
      exact ⟨by omega, hrestJ, hwfJ, htagJ⟩
  · intro j hj
    rw [hrest₂]
    obtain hout | hlast := List.mem_append.mp hj
    · obtain ⟨hltJ, hrestJ, hwfJ⟩ := h.outNew j hout
      rw [State.Wf, hcell j (hnotI j (Or.inl hout)) (hcount j (Or.inr (Or.inl hout)))]
      exact ⟨by omega, hrestJ, hwfJ⟩
    · obtain rfl := List.mem_singleton.mp hlast
      exact ⟨hcopied.next ▸ hltD, hrestD, hcopied.dstWf⟩
  · intro j hj htagJ
    obtain hout | hlast := List.mem_append.mp hj
    · rw [hcell j (hnotI j (Or.inl hout)) (hcount j (Or.inr (Or.inl hout)))] at htagJ ⊢
      exact h.outOwn j hout (htag₂ ▸ htagJ)
    · obtain rfl := List.mem_singleton.mp hlast
      exact hcopied.dstTemporary
  · intro j hj
    rw [hbusy₂] at hj
    obtain ⟨hltJ, hbytesJ⟩ := h.busyHeld j hj
    rw [hrest₂, hbytes j (hnotI j (Or.inr (Or.inl hj))) (hcount j (Or.inr (Or.inr (Or.inl hj))))]
    exact ⟨by omega, hbytesJ⟩
  · intro j hj htagJ
    rw [hbusy₂] at hj
    rw [hcell j (hnotI j (Or.inr (Or.inl hj))) (hcount j (Or.inr (Or.inr (Or.inl hj))))] at htagJ ⊢
    exact h.busyOwn j hj (htag₂ ▸ htagJ)
  · intro j hj
    rw [hfree₂] at hj
    obtain ⟨hltJ, hready⟩ := h.freeReady j (hsub hj)
    rw [hrest₂, hcell j (hnotI j (Or.inr (Or.inr hj))) (hcount j (Or.inr (Or.inr (Or.inr hj))))]
    exact ⟨by omega, hready⟩
  · intro j hj
    rw [hrest₂] at hj ⊢
    have hji : j ≠ i := fun heq => hj (heq ▸ hrestI)
    have hjd : j ≠ d := fun heq => hj (heq ▸ hrestD)
    obtain ⟨hltJ, hbytesJ, hwfJ⟩ := h.held j hj
    rw [hbytes j hji hjd, State.Wf, hcell j hji hjd]
    exact ⟨by omega, hbytesJ, hwfJ⟩
  · have hconserved := h.conserved
    have hone := honce i
    rw [List.count_append, hin, List.count_cons_self] at hone
    have houtSame : s₂.chainBytes env out = s.chainBytes env out :=
      chainBytes_congr fun j hj => hbytes j (hnotI j (Or.inl hj)) (hcount j (Or.inr (Or.inl hj)))
    have htailSame : s₂.chainBytes env tail = s.chainBytes env tail := by
      apply chainBytes_congr
      intro j hj
      have hji : j ≠ i := by
        intro heq
        subst heq
        have hpos := List.count_pos_iff.mpr hj
        omega
      exact hbytes j hji (hcount j (Or.inl (hin ▸ List.mem_cons_of_mem i hj)))
    rw [hin, chainBytes_cons] at hconserved
    rw [hin₂, hin, chainBytes_append, chainBytes_cons, chainBytes_nil, List.append_nil, chainBytes_cons, houtSame, htailSame,
      hcopied.dst, hcopied.src, hbytesI, hcopied.passed, hgot.passed, ← hconserved]
    simp only [List.append_assoc]
    rw [← List.append_assoc (List.take n _), List.take_append_drop]

theorem Keeps.setIn_head (h : Keeps env tag given s out) (hin : s.ctx.inChain = i :: tail) :
    Keeps env tag given (if (s.cells i).buf.size = 0 then s.setIn tail else s) out := by
  split
  · rename_i hsize
    exact h.dropHead hin (Buf.bytes_of_size hsize)
  · exact h

theorem ask_unchanged (env : Env) (s : State) : Unchanged s (s.ask env).2 :=
  ⟨rfl, rfl, rfl, rfl, rfl, rfl, rfl, rfl, rfl⟩

-- One turn of while (ctx->in)
theorem fill_keeps (hallocs : ∀ n, env.allocs n = true) (hreads : ∀ n, env.reads n = true)
    (h : Keeps env tag given s out) (hbuf : s.ctx.buf = none) :
    (∃ s' out', fill env s out = .more s' out' ∧ Keeps env tag given s' out' ∧ s'.ctx.buf = none) ∨
    ∃ s', fill env s out = .full s' ∧ Keeps env tag given s' out ∧ s'.ctx.buf = none := by
  cases hin : s.ctx.inChain with
  | nil =>
      refine Or.inr ⟨s, ?_, h, hbuf⟩
      simp only [fill, hin]
  | cons i tail =>
      simp only [fill, hin]
      split
      · rename_i hzero
        exact Or.inl ⟨_, _, rfl, h.dropHead hin (Buf.bytes_of_size hzero.1), hbuf⟩
      · have hmem : i ∈ s.ctx.inChain := hin ▸ List.mem_cons_self
        have hset := h.setBuf hmem (asIs_sameBuf env s.ctx ⟨(s.cells i).mem, env.file⟩ (s.cells i).buf)
        generalize asIs env s.ctx (s.cells i).buf = whole at hset
        generalize hs₀ : s.setBuf i whole.2 = s₀ at hset
        have hin₀ : s₀.ctx.inChain = i :: tail := by
          rw [← hs₀]
          exact hin
        have hbuf₀ : s₀.ctx.buf = none := by
          rw [← hs₀]
          exact hbuf
        split
        · exact Or.inl ⟨_, _, rfl, hset.moveHead hin₀, hbuf₀⟩
        · have hfree : ∀ d ∈ s₀.ctx.free, (s₀.cells d).buf.temporary = true ∧
              (s₀.cells d).buf.last = (s₀.cells d).buf.pos := fun d hd => (hset.freeReady d hd).2.2
          have htaken := takeBuf_spec hallocs hbuf₀ hfree out i (s.cells i).buf.size
          generalize takeBuf env s₀ out i (s.cells i).buf.size = taken at htaken
          cases taken with
          | error s₁ => exact htaken.elim
          | declined s₁ => exact Or.inr ⟨s₁, rfl, hset.unchanged htaken, htaken.buf.trans hbuf₀⟩
          | full s₁ => exact Or.inr ⟨s₁, rfl, hset.unchanged htaken, htaken.buf.trans hbuf₀⟩
          | got d s₁ =>
              have hgot : Got s₀ s₁ d := htaken
              have hone := (hset.got_fresh hgot).1 i
              have hne : i ≠ d := by
                intro heq
                subst heq
                rw [List.count_append, List.count_singleton_self, hin₀, List.count_cons_self] at hone
                omega
              have hwf : s₁.Wf env i := by
                rw [State.Wf, hgot.others i hne]
                exact (hset.inNew i (hin₀ ▸ List.mem_cons_self)).2.2.1
              obtain ⟨s₂, n, hcopy, hcopied⟩ := copyBuf_spec hreads hne hwf hgot.temporary hgot.empty
              have hkeeps := hset.copyHead hin₀ hgot hcopied
              have hin₂ : s₂.ctx.inChain = i :: tail := by rw [hcopied.ctx, hgot.inChain, hin₀]
              have hdrop := hkeeps.setIn_head hin₂
              left
              dsimp only
              rw [hcopy]
              dsimp only
              have hasked := hdrop.unchanged (ask_unchanged env _)
              generalize (if (s₂.cells i).buf.size = 0 then s₂.setIn tail else s₂) = s₃ at hasked
              have hfound : (s₃.ask env).1 = true := hallocs _
              rw [if_pos hfound]
              refine ⟨_, _, rfl, ?_, rfl⟩
              exact ⟨hasked.tag, hasked.once, hasked.inNew, hasked.outNew, hasked.outOwn, hasked.busyHeld, hasked.busyOwn,
                hasked.freeReady, hasked.held, hasked.conserved⟩

end

end Nginx.OutputChain
