import Nginx.Core.OutputChain.Keeps

namespace Nginx.OutputChain

variable {env : Env} {s : State} {out : List Nat} {tag : Nat} {given : Bytes} {i : Nat}

theorem advance_zero (b : Buf) : b.advance 0 = b := by
  unfold Buf.advance
  simp

-- The bufs that were passed are busy.
def State.attach (s : State) (out : List Nat) : State := { s with ctx := { s.ctx with busy := s.ctx.busy ++ out } }

theorem callFilter_keeps (h : Keeps env tag given s out) : Keeps env tag given ((callFilter env s out).2.attach out) [] := by
  generalize hs' : (callFilter env s out).2.attach out = s'
  have heaten : ∀ j, s.eaten env out j ≤ (s.held env out j).length := fun j => Nat.min_le_right _ _
  have hcells : ∀ j, s'.cells j = { s.cells j with buf := (s.cells j).buf.advance (s.eaten env out j) } := by
    intro j
    rw [← hs']
    rfl
  have hrest : ∀ j, s'.rest j = (s.held env out j).drop (s.eaten env out j) := by
    intro j
    rw [← hs']
    rfl
  have hctx : s'.ctx.inChain = s.ctx.inChain ∧ s'.ctx.busy = s.ctx.busy ++ out ∧ s'.ctx.free = s.ctx.free ∧
      s'.ctx.tag = s.ctx.tag ∧ s'.next = s.next ∧ s'.passed = s.passed ++ s.chainBytes env out := by
    rw [← hs']
    exact ⟨rfl, rfl, rfl, rfl, rfl, rfl⟩
  obtain ⟨hin, hbusy, hfree, htag, hnext, hpassed⟩ := hctx
  have hstill : ∀ j, s.held env out j = [] → s'.cells j = s.cells j ∧ s'.rest j = [] := by
    intro j hj
    have hzero := heaten j
    rw [hj] at hzero
    rw [hcells, hrest, hj, Nat.le_zero.mp hzero, advance_zero]
    exact ⟨rfl, rfl⟩
  have hstep : ∀ j, s.bytes env j = s.held env out j → s.Wf env j → s'.bytes env j = s'.rest j ∧ s'.Wf env j := by
    intro j hbytes hwf
    have hle : s.eaten env out j ≤ (s.cells j).buf.size := by
      have hlen := heaten j
      rw [← hbytes, State.bytes, Cell.bytes, Buf.bytes_length] at hlen
      exact hlen
    rw [State.bytes, State.Wf, hcells, hrest, ← hbytes]
    exact ⟨Buf.Wf.advance_bytes hwf hle, Buf.Wf.advance hwf hle⟩
  have hnone : ∀ j, j ∈ s.ctx.inChain ∨ j ∈ s.ctx.free → s.rest j = [] → s.held env out j = [] := by
    intro j hj hrestJ
    have honce := h.once j
    have hnot : j ∉ out := by
      intro hout
      have hpos := List.count_pos_iff.mpr hout
      obtain hj | hj := hj
      all_goals
        have hpos' := List.count_pos_iff.mpr hj
        omega
    rw [State.held, if_neg hnot]
    exact hrestJ
  have hout : ∀ j ∈ out, s.bytes env j = s.held env out j := fun j hj => by rw [State.held, if_pos hj]
  have hold : ∀ j, j ∉ out → s.held env out j = s.rest j := fun j hj => by rw [State.held, if_neg hj]
  have hbusyOut : ∀ j ∈ s.ctx.busy, j ∉ out := by
    intro j hj hout'
    have honce := h.once j
    have hpos := List.count_pos_iff.mpr hj
    have hpos' := List.count_pos_iff.mpr hout'
    omega
  constructor
  · exact htag.trans h.tag
  · intro j
    have honce := h.once j
    rw [hin, hbusy, hfree, List.count_append, List.count_nil]
    omega
  · intro j hj
    rw [hin] at hj
    obtain ⟨hlt, hrestJ, hwf, htagJ⟩ := h.inNew j hj
    obtain ⟨hcell, hrest'⟩ := hstill j (hnone j (Or.inl hj) hrestJ)
    rw [State.Wf, hcell, hnext, htag]
    exact ⟨hlt, hrest', hwf, htagJ⟩
  · intro j hj
    cases hj
  · intro j hj
    cases hj
  · intro j hj
    rw [hbusy] at hj
    rw [hnext]
    obtain hj | hj := List.mem_append.mp hj
    · obtain ⟨hlt, hbytes⟩ := h.busyHeld j hj
      have hsame := hold j (hbusyOut j hj)
      by_cases hempty : s.rest j = []
      · obtain ⟨hcell, hrest'⟩ := hstill j (hsame.trans hempty)
        rw [State.bytes, hcell, hrest']
        exact ⟨hlt, hbytes.trans hempty⟩
      · exact ⟨hlt, (hstep j (hbytes.trans hsame.symm) (h.held j hempty).2.2).1⟩
    · obtain ⟨hlt, -, hwf⟩ := h.outNew j hj
      exact ⟨hlt, (hstep j (hout j hj) hwf).1⟩
  · intro j hj htagJ
    rw [hbusy] at hj
    rw [hcells, htag] at htagJ
    rw [hcells]
    obtain hj | hj := List.mem_append.mp hj
    · exact h.busyOwn j hj htagJ
    · exact h.outOwn j hj htagJ
  · intro j hj
    rw [hfree] at hj
    obtain ⟨hlt, hrestJ, hready⟩ := h.freeReady j hj
    obtain ⟨hcell, hrest'⟩ := hstill j (hnone j (Or.inr hj) hrestJ)
    rw [hcell, hnext]
    exact ⟨hlt, hrest', hready⟩
  · intro j hj
    rw [hnext]
    have hne : s.held env out j ≠ [] := fun heq => hj (hstill j heq).2
    by_cases hj' : j ∈ out
    · obtain ⟨hlt, -, hwf⟩ := h.outNew j hj'
      exact ⟨hlt, hstep j (hout j hj') hwf⟩
    · have hsame := hold j hj'
      obtain ⟨hlt, hbytes, hwf⟩ := h.held j (hsame ▸ hne)
      exact ⟨hlt, hstep j (hbytes.trans hsame.symm) hwf⟩
  · have hconserved := h.conserved
    rw [hpassed, hin, chainBytes_nil, List.append_nil, ← hconserved]
    congr 1
    apply chainBytes_congr
    intro j hj
    rw [State.bytes, State.bytes, (hstill j (hnone j (Or.inl hj) (h.inNew j hj).2.1)).1]

-- A busy buf that is left to its owner, or for the filter alone
theorem Keeps.dropBusy {busy : List Nat} (h : Keeps env tag given s []) (hsub : busy.Sublist s.ctx.busy) :
    Keeps env tag given { s with ctx := { s.ctx with busy := busy } } [] := by
  constructor
  · exact h.tag
  · intro j
    have honce := h.once j
    have hle := hsub.count_le j
    show s.ctx.inChain.count j + List.count j [] + busy.count j + s.ctx.free.count j ≤ 1
    omega
  · exact h.inNew
  · exact h.outNew
  · exact h.outOwn
  · exact fun j hj => h.busyHeld j (hsub.subset hj)
  · exact fun j hj => h.busyOwn j (hsub.subset hj)
  · exact h.freeReady
  · exact h.held
  · exact h.conserved

-- A busy buf of the context that has nothing left is free again.
theorem Keeps.freeBusy {busy : List Nat} (h : Keeps env tag given s []) (hbusy : s.ctx.busy = i :: busy)
    (hsize : (s.cells i).buf.size = 0) (htag : (s.cells i).buf.tag = s.ctx.tag) :
    Keeps env tag given
      { s with
        cells := setCell s.cells i { s.cells i with buf := { (s.cells i).buf with pos := (s.cells i).buf.start, last := (s.cells i).buf.start } }
        ctx := { s.ctx with busy := busy, free := i :: s.ctx.free } } [] := by
  generalize hs' : ({ s with
        cells := setCell s.cells i { s.cells i with buf := { (s.cells i).buf with pos := (s.cells i).buf.start, last := (s.cells i).buf.start } }
        ctx := { s.ctx with busy := busy, free := i :: s.ctx.free } } : State) = s'
  have hmem : i ∈ s.ctx.busy := hbusy ▸ List.mem_cons_self
  obtain ⟨hlt, hbytes⟩ := h.busyHeld i hmem
  have hrest : s.rest i = [] := hbytes.symm.trans (Buf.bytes_of_size hsize)
  have htemp := h.busyOwn i hmem htag
  have hcell : ∀ j, j ≠ i → s'.cells j = s.cells j := by
    intro j hj
    rw [← hs']
    exact setCell_other hj _
  have hfields : s'.ctx.inChain = s.ctx.inChain ∧ s'.ctx.busy = busy ∧ s'.ctx.free = i :: s.ctx.free ∧
      s'.ctx.tag = s.ctx.tag ∧ s'.next = s.next ∧ s'.rest = s.rest ∧ s'.passed = s.passed := by
    rw [← hs']
    exact ⟨rfl, rfl, rfl, rfl, rfl, rfl, rfl⟩
  obtain ⟨hin', hbusy', hfree', htag', hnext', hrest', hpassed'⟩ := hfields
  have honce := h.once i
  rw [hbusy, List.count_cons_self] at honce
  have hnot : ∀ j, j ∈ s.ctx.inChain ∨ j ∈ busy ∨ j ∈ s.ctx.free → j ≠ i := by
    intro j hj heq
    subst heq
    obtain hj | hj | hj := hj
    all_goals
      have hpos := List.count_pos_iff.mpr hj
      omega
  constructor
  · exact htag'.trans h.tag
  · intro j
    have honceJ := h.once j
    rw [hbusy, List.count_cons] at honceJ
    rw [hin', hbusy', hfree', List.count_cons]
    omega
  · intro j hj
    rw [hin'] at hj
    rw [State.Wf, hcell j (hnot j (Or.inl hj)), hnext', hrest', htag']
    exact h.inNew j hj
  · intro j hj
    cases hj
  · intro j hj
    cases hj
  · intro j hj
    rw [hbusy'] at hj
    rw [State.bytes, hcell j (hnot j (Or.inr (Or.inl hj))), hnext', hrest']
    exact h.busyHeld j (hbusy ▸ List.mem_cons_of_mem i hj)
  · intro j hj
    rw [hbusy'] at hj
    rw [hcell j (hnot j (Or.inr (Or.inl hj))), htag']
    exact h.busyOwn j (hbusy ▸ List.mem_cons_of_mem i hj)
  · intro j hj
    rw [hfree'] at hj
    rw [hnext', hrest']
    obtain rfl | hj := List.mem_cons.mp hj
    · have hself : s'.cells j = { s.cells j with buf := { (s.cells j).buf with pos := (s.cells j).buf.start, last := (s.cells j).buf.start } } := by
        rw [← hs']
        exact setCell_same s.cells j _
      rw [hself]
      exact ⟨hlt, hrest, htemp, rfl⟩
    · rw [hcell j (hnot j (Or.inr (Or.inr hj)))]
      exact h.freeReady j hj
  · intro j hj
    rw [hrest'] at hj ⊢
    have hne : j ≠ i := fun heq => hj (heq ▸ hrest)
    rw [State.bytes, State.Wf, hcell j hne, hnext']
    exact h.held j hj
  · rw [hpassed', hin', chainBytes_nil, List.append_nil, ← h.conserved, chainBytes_nil, List.append_nil]
    congr 1
    apply chainBytes_congr
    intro j hj
    rw [State.bytes, State.bytes, hcell j (hnot j (Or.inl hj))]

theorem recycle_keeps (busy : List Nat) {s : State} (h : Keeps env tag given s []) (hbusy : s.ctx.busy = busy) :
    Keeps env tag given
      { s with
        cells := (recycle s.ctx.tag busy s.ctx.free s.cells).2.2
        ctx := { s.ctx with
          busy := (recycle s.ctx.tag busy s.ctx.free s.cells).1
          free := (recycle s.ctx.tag busy s.ctx.free s.cells).2.1 } } [] := by
  induction busy generalizing s with
  | nil =>
      have hdrop := h.dropBusy (List.nil_sublist s.ctx.busy)
      exact hdrop
  | cons i busy ih =>
      rw [recycle]
      dsimp only
      split
      · have hsame := h.dropBusy (List.Sublist.refl s.ctx.busy)
        rw [hbusy] at hsame
        exact hsame
      · rename_i hsize
        have hsub : busy.Sublist s.ctx.busy := hbusy ▸ List.sublist_cons_self i busy
        split
        · have hdrop := h.dropBusy hsub
          have hrest := ih hdrop rfl
          exact hrest
        · rename_i htag
          have hfree := h.freeBusy hbusy (not_not.mp hsize) (not_not.mp htag)
          have hrest := ih hfree rfl
          exact hrest

theorem updateChains_keeps (h : Keeps env tag given (s.attach out) []) : Keeps env tag given (updateChains s out) [] := by
  have hrecycled := recycle_keeps (s.ctx.busy ++ out) h rfl
  exact hrecycled

-- The bufs in the output chain of a call
def Place.pending : Place → List Nat
  | .loop ids _ => ids
  | .returned _ => []

-- What holds between the steps of a call and between the calls
def Settled (env : Env) (tag : Nat) (given : Bytes) (sp : State × Place) : Prop :=
  Keeps env tag given sp.1 sp.2.pending ∧ sp.1.ctx.buf = none

theorem callFilter_settled (h : Keeps env tag given s out) (hbuf : s.ctx.buf = none) (rc : Code) :
    Settled env tag given ((callFilter env s out).2, .returned rc) := by
  have hattached := callFilter_keeps h
  exact ⟨hattached.dropBusy (List.sublist_append_left s.ctx.busy out), hbuf⟩

theorem pass_settled (h : Keeps env tag given s out) (hbuf : s.ctx.buf = none) (last : Option Code) :
    Settled env tag given (pass env s out last) := by
  have hcall : Settled env tag given
      (if (callFilter env s out).1 = .error ∨ (callFilter env s out).1 = .done then
        ((callFilter env s out).2, .returned (callFilter env s out).1)
      else (updateChains (callFilter env s out).2 out, .loop [] (some (callFilter env s out).1))) := by
    split
    · exact callFilter_settled h hbuf _
    · exact ⟨updateChains_keeps (callFilter_keeps h), hbuf⟩
  cases out with
  | nil =>
      cases last with
      | none => exact hcall
      | some last => exact ⟨h, hbuf⟩
  | cons i out => exact hcall

theorem turn_settled (hallocs : ∀ n, env.allocs n = true) (hreads : ∀ n, env.reads n = true)
    (h : Keeps env tag given s out) (hbuf : s.ctx.buf = none) (last : Option Code) :
    Settled env tag given (turn env s out last) := by
  unfold turn
  obtain ⟨s', out', hfill, hkeeps, hbuf'⟩ | ⟨s', hfill, hkeeps, hbuf'⟩ := fill_keeps hallocs hreads h hbuf
  · rw [hfill]
    exact ⟨hkeeps, hbuf'⟩
  · rw [hfill]
    exact pass_settled hkeeps hbuf' last

-- A new buf at the end of ctx->in
def State.addOne (s : State) (c : Cell) : State :=
  { s with
    cells := setCell s.cells s.next c
    next := s.next + 1
    ctx := { s.ctx with inChain := s.ctx.inChain ++ [s.next] } }

theorem addOne_keeps (h : Keeps env tag given s []) {c : Cell} (hc : c.Wf env) (htag : c.buf.tag ≠ tag) :
    Keeps env tag (given ++ c.bytes env) (s.addOne c) [] := by
  have hself : (s.addOne c).cells s.next = c := setCell_same s.cells s.next c
  have hother : ∀ j, j < s.next → (s.addOne c).cells j = s.cells j :=
    fun j hj => setCell_other (Nat.ne_of_lt hj) c
  have hrestNew : s.rest s.next = [] := by
    by_contra hrest
    exact Nat.lt_irrefl s.next (h.held s.next hrest).1
  constructor
  · exact h.tag
  · intro j
    have honce := h.once j
    show (s.ctx.inChain ++ [s.next]).count j + List.count j [] + s.ctx.busy.count j + s.ctx.free.count j ≤ 1
    have hlt := @Keeps.lt_next _ _ _ _ _ h j
    rw [List.count_append, List.count_singleton]
    cases hj : s.next == j with
    | false =>
        simp only [Bool.false_eq_true, if_false]
        omega
    | true =>
        have hj' := eq_of_beq hj
        simp only [if_true]
        omega
  · intro j hj
    show j < s.next + 1 ∧ _
    obtain hj | hj := List.mem_append.mp hj
    · obtain ⟨hlt, hrest, hwf, htagJ⟩ := h.inNew j hj
      rw [State.Wf, hother j hlt]
      exact ⟨by omega, hrest, hwf, htagJ⟩
    · obtain rfl := List.mem_singleton.mp hj
      rw [State.Wf, hself]
      exact ⟨Nat.lt_succ_self _, hrestNew, hc, h.tag.symm ▸ htag⟩
  · intro j hj
    cases hj
  · intro j hj
    cases hj
  · intro j hj
    obtain ⟨hlt, hbytes⟩ := h.busyHeld j hj
    rw [State.bytes, hother j hlt]
    exact ⟨Nat.lt_succ_of_lt hlt, hbytes⟩
  · intro j hj
    rw [hother j (h.busyHeld j hj).1]
    exact h.busyOwn j hj
  · intro j hj
    obtain ⟨hlt, hready⟩ := h.freeReady j hj
    rw [hother j hlt]
    exact ⟨Nat.lt_succ_of_lt hlt, hready⟩
  · intro j hj
    obtain ⟨hlt, hheld⟩ := h.held j hj
    rw [State.bytes, State.Wf, hother j hlt]
    exact ⟨Nat.lt_succ_of_lt hlt, hheld⟩
  · show s.passed ++ [] ++ (s.addOne c).chainBytes env (s.ctx.inChain ++ [s.next]) = _
    have hsame : (s.addOne c).chainBytes env s.ctx.inChain = s.chainBytes env s.ctx.inChain := by
      apply chainBytes_congr
      intro j hj
      rw [State.bytes, State.bytes, hother j (h.inNew j hj).1]
    have hnew : (s.addOne c).bytes env s.next = c.bytes env := by rw [State.bytes, hself]
    have hconserved := h.conserved
    rw [chainBytes_nil] at hconserved
    rw [chainBytes_append, chainBytes_cons, chainBytes_nil, hsame, hnew, List.append_nil (c.bytes env), ← List.append_assoc,
      hconserved]

theorem addInput_setIn (l : List Nat) (input : List Cell) (s : State) :
    addInput (s.setIn l) input = ((addInput s input).1.setIn l, (addInput s input).2) := by
  induction input generalizing s with
  | nil => rfl
  | cons c input ih =>
      rw [addInput, addInput]
      have hrest := ih { s with cells := setCell s.cells s.next c, next := s.next + 1 }
      show ((addInput (State.setIn { s with cells := setCell s.cells s.next c, next := s.next + 1 } l) input).1,
        s.next :: (addInput (State.setIn { s with cells := setCell s.cells s.next c, next := s.next + 1 } l) input).2) = _
      rw [hrest]

-- The incoming bufs at the end of ctx->in
theorem addInput_keeps {input : List Cell} (h : Keeps env tag given s [])
    (hinput : ∀ c ∈ input, c.Wf env ∧ c.buf.tag ≠ tag) :
    Keeps env tag (given ++ input.flatMap (Cell.bytes env))
      ((addInput s input).1.setIn (s.ctx.inChain ++ (addInput s input).2)) [] := by
  induction input generalizing s given with
  | nil =>
      rw [List.flatMap_nil, List.append_nil]
      show Keeps env tag given (s.setIn (s.ctx.inChain ++ [])) []
      rw [List.append_nil]
      exact h
  | cons c input ih =>
      obtain ⟨hc, hrest⟩ := List.forall_mem_cons.mp hinput
      have hone := ih (addOne_keeps h hc.1 hc.2) hrest
      have hset := addInput_setIn (s.ctx.inChain ++ [s.next]) input
        { s with cells := setCell s.cells s.next c, next := s.next + 1 }
      have heq : s.addOne c = State.setIn { s with cells := setCell s.cells s.next c, next := s.next + 1 }
          (s.ctx.inChain ++ [s.next]) := rfl
      rw [heq, hset, List.append_assoc] at hone
      have hin : (State.setIn { s with cells := setCell s.cells s.next c, next := s.next + 1 }
          (s.ctx.inChain ++ [s.next])).ctx.inChain = s.ctx.inChain ++ [s.next] := rfl
      rw [hin, List.append_assoc] at hone
      rw [List.flatMap_cons]
      exact hone

theorem addInput_ctx (input : List Cell) (s : State) : (addInput s input).1.ctx = s.ctx := by
  induction input generalizing s with
  | nil => rfl
  | cons c input ih => exact ih _

theorem addCopy_all (hallocs : ∀ n, env.allocs n = true) (ids : List Nat) (s : State) :
    ∃ s', addCopy env s ids = (s', ids, true) ∧ Unchanged s s' := by
  induction ids generalizing s with
  | nil => exact ⟨s, rfl, Unchanged.refl s⟩
  | cons i ids ih =>
      obtain ⟨s', hcopy, hsame⟩ := ih (s.ask env).2
      refine ⟨s', ?_, ⟨hsame.buf, hsame.inChain, hsame.free, hsame.busy, hsame.tag, hsame.cells, hsame.next, hsame.rest,
        hsame.passed⟩⟩
      have hfound : (s.ask env).1 = true := hallocs _
      rw [addCopy]
      dsimp only
      rw [if_pos hfound, hcopy]

theorem join_settled (hallocs : ∀ n, env.allocs n = true) {ids : List Nat}
    (h : Keeps env tag given (s.setIn (s.ctx.inChain ++ ids)) []) (hbuf : s.ctx.buf = none) :
    Settled env tag given (join env s ids) := by
  obtain ⟨s', hcopy, hsame⟩ := addCopy_all hallocs ids s
  unfold join
  rw [hcopy]
  refine ⟨h.unchanged ?_, hsame.buf.trans hbuf⟩
  refine ⟨hsame.buf, ?_, hsame.free, hsame.busy, hsame.tag, hsame.cells, hsame.next, hsame.rest, hsame.passed⟩
  show s'.ctx.inChain ++ ids = s.ctx.inChain ++ ids
  rw [hsame.inChain]

theorem start_settled (hallocs : ∀ n, env.allocs n = true) {input : List Cell} (h : Keeps env tag given s [])
    (hbuf : s.ctx.buf = none) (hinput : ∀ c ∈ input, c.Wf env ∧ c.buf.tag ≠ tag) :
    Settled env tag (given ++ input.flatMap (Cell.bytes env)) (start env s input) := by
  have hkeeps := addInput_keeps h hinput
  have hctx := addInput_ctx input s
  unfold start
  generalize addInput s input = added at hkeeps hctx
  obtain ⟨s₁, ids⟩ := added
  dsimp only at hkeeps hctx ⊢
  rw [← hctx] at hkeeps
  have hbuf₁ : s₁.ctx.buf = none := hctx ▸ hbuf
  have hjoin := join_settled hallocs hkeeps hbuf₁
  split
  · rename_i hshort
    rw [hshort.1, List.nil_append] at hkeeps
    split
    · -- no buf at all
      have hsame : s₁.setIn [] = s₁ := by
        rw [← hshort.1]
        rfl
      rw [hsame] at hkeeps
      exact callFilter_settled hkeeps hbuf₁ _
    · rename_i i
      have hset := hkeeps.setBuf (i := i) List.mem_cons_self
        (asIs_sameBuf env s₁.ctx ⟨(s₁.cells i).mem, env.file⟩ (s₁.cells i).buf)
      generalize asIs env s₁.ctx (s₁.cells i).buf = whole at hset
      have hin : (s₁.setBuf i whole.2).ctx.inChain = [] := hshort.1
      split
      · have hhead : ((s₁.setIn [i]).setBuf i whole.2).ctx.inChain = i :: [] := rfl
        have hmoved := hset.moveHead hhead
        have hsame : (s₁.setBuf i whole.2).setIn [] = s₁.setBuf i whole.2 := by
          rw [← hin]
          rfl
        have hmoved' : Keeps env tag _ ((s₁.setBuf i whole.2).setIn []) [i] := hmoved
        rw [hsame] at hmoved'
        exact callFilter_settled hmoved' hbuf₁ _
      · apply join_settled hallocs
        · rw [hin, List.nil_append]
          exact hset
        · exact hbuf₁
    · exact hjoin
  · exact hjoin

-- A context that ngx_output_chain has not been called with
structure Fresh (s : State) : Prop where
  buf : s.ctx.buf = none
  inChain : s.ctx.inChain = []
  free : s.ctx.free = []
  busy : s.ctx.busy = []
  rest : ∀ i, s.rest i = []
  passed : s.passed = []

theorem Fresh.keeps (h : Fresh s) : Keeps env s.ctx.tag [] s [] := by
  constructor
  · rfl
  · intro j
    rw [h.inChain, h.busy, h.free, List.count_nil]
    exact Nat.zero_le 1
  · rw [h.inChain]
    exact fun j hj => absurd hj List.not_mem_nil
  · exact fun j hj => absurd hj List.not_mem_nil
  · exact fun j hj => absurd hj List.not_mem_nil
  · rw [h.busy]
    exact fun j hj => absurd hj List.not_mem_nil
  · rw [h.busy]
    exact fun j hj => absurd hj List.not_mem_nil
  · rw [h.free]
    exact fun j hj => absurd hj List.not_mem_nil
  · exact fun j hj => absurd (h.rest j) hj
  · rw [h.inChain, h.passed]
    rfl

theorem run_settled (hallocs : ∀ n, env.allocs n = true) (hreads : ∀ n, env.reads n = true) {first : State}
    (hfirst : Fresh first) {inputs : List (List Cell)} {sp : State × Place} (hrun : Run env first inputs sp)
    (hinputs : ∀ input ∈ inputs, ∀ c ∈ input, c.Wf env ∧ c.buf.tag ≠ first.ctx.tag) :
    Settled env first.ctx.tag (inputs.flatten.flatMap (Cell.bytes env)) sp := by
  induction hrun with
  | none => exact ⟨hfirst.keeps, hfirst.buf⟩
  | call input hrun ih =>
      have hbefore := ih fun input' h' => hinputs input' (List.mem_append_left _ h')
      have hlast := hinputs input (List.mem_append_right _ List.mem_cons_self)
      rw [List.flatten_append, List.flatMap_append, List.flatten_singleton]
      exact start_settled hallocs hbefore.1 hbefore.2 hlast
  | turn hrun ih =>
      have hbefore := ih hinputs
      exact turn_settled hallocs hreads hbefore.1 hbefore.2 _

-- At every moment of any calls: what was passed, the output chain and ctx->in are the input, and what the filter has not
-- consumed of a buf is still in it, and the buf is not free.
theorem outputChain_keeps (env : Env) (first s : State) (place : Place) (inputs : List (List Cell))
    (hallocs : ∀ n, env.allocs n = true) (hreads : ∀ n, env.reads n = true) (hfirst : Fresh first)
    (hinputs : ∀ input ∈ inputs, ∀ c ∈ input, c.Wf env ∧ c.buf.tag ≠ first.ctx.tag)
    (hrun : Run env first inputs (s, place)) :
    s.passed ++ s.chainBytes env place.pending ++ s.chainBytes env s.ctx.inChain =
        inputs.flatten.flatMap (Cell.bytes env) ∧
      (∀ i, s.rest i ≠ [] → s.bytes env i = s.rest i ∧ i ∉ s.ctx.free) ∧
      ∀ i ∈ s.ctx.busy, s.bytes env i = s.rest i := by
  obtain ⟨hkeeps, -⟩ := run_settled hallocs hreads hfirst hrun hinputs
  refine ⟨hkeeps.conserved, ?_, fun i hi => (hkeeps.busyHeld i hi).2⟩
  intro i hi
  exact ⟨(hkeeps.held i hi).2.1, fun hfree => hi (hkeeps.freeReady i hfree).2.1⟩

def turns (env : Env) : Nat → State × Place → State × Place
  | 0, sp => sp
  | n + 1, (s, .loop out last) => turns env n (turn env s out last)
  | _ + 1, sp => sp

theorem Run.turns {first : State} {inputs : List (List Cell)} {sp : State × Place} (n : Nat)
    (h : Run env first inputs sp) : Run env first inputs (turns env n sp) := by
  induction n generalizing sp with
  | zero => exact h
  | succ n ih =>
      obtain ⟨s, place⟩ := sp
      cases place with
      | loop out last => exact ih (Run.turn h)
      | returned rc => exact h

-- One temporary buf of four bytes for a file of six, and a filter that consumes nothing in its first call
def slowFilter : Env :=
  ⟨fun _ a => UInt8.ofNat a, fun _ => false, fun n => ⟨fun _ => if n = 0 then 0 else 4, if n = 0 then .again else .ok⟩,
    fun _ => true, fun _ => true⟩

def oneBuf : State :=
  ⟨⟨none, [], [], [], false, false, false, false, 512, 0, 1, 4, 7⟩, fun _ => ⟨Buf.empty, fun _ => 0⟩, 0, 0, 0, 0,
    fun _ => [], []⟩

def sixBytes : Cell := ⟨{ Buf.empty with fileLast := 6, file := 1, inFile := true }, fun _ => 0⟩

theorem oneBuf_fresh : Fresh oneBuf := ⟨rfl, rfl, rfl, rfl, fun _ => rfl, rfl⟩

def slowOnce : State × Place := turns slowFilter 3 (start slowFilter oneBuf [sixBytes])

def slowTwice : State × Place := turns slowFilter 5 (start slowFilter slowOnce.1 [])

theorem sixBytes_wf : sixBytes.Wf slowFilter ∧ sixBytes.buf.tag ≠ oneBuf.ctx.tag := by
  refine ⟨?_, by decide⟩
  constructor <;> decide

theorem slowOnce_run : Run slowFilter oneBuf [[sixBytes]] (slowOnce.1, .returned .again) := by
  have hplace : slowOnce.2 = .returned .again := by decide
  have hrun : Run slowFilter oneBuf [[sixBytes]] slowOnce := Run.turns 3 (Run.call [sixBytes] Run.none)
  rw [← hplace]
  exact hrun

theorem slowTwice_run : Run slowFilter oneBuf [[sixBytes], []] (slowTwice.1, .returned .ok) := by
  have hplace : slowTwice.2 = .returned .ok := by decide
  have hrun : Run slowFilter oneBuf [[sixBytes], []] slowTwice := Run.turns 5 (Run.call [] slowOnce_run)
  rw [← hplace]
  exact hrun

-- The second call gives no bufs, and copies the last two bytes once the filter has consumed the first four.
theorem outputChain_keeps_slow :
    ∃ s, Run slowFilter oneBuf [[sixBytes], []] (s, .returned .ok) ∧ s.passed = [0, 1, 2, 3, 4, 5] ∧
      s.passed ++ s.chainBytes slowFilter s.ctx.inChain = [[sixBytes], []].flatten.flatMap (Cell.bytes slowFilter) := by
  have hinputs : ∀ input ∈ [[sixBytes], []], ∀ c ∈ input, c.Wf slowFilter ∧ c.buf.tag ≠ oneBuf.ctx.tag := by
    intro input hinput c hc
    simp only [List.mem_cons, List.not_mem_nil, or_false] at hinput
    obtain rfl | rfl := hinput
    · rw [List.mem_singleton] at hc
      subst hc
      exact sixBytes_wf
    · cases hc
  have hkeeps := outputChain_keeps slowFilter oneBuf slowTwice.1 (.returned .ok) [[sixBytes], []] (fun _ => rfl)
    (fun _ => rfl) oneBuf_fresh hinputs slowTwice_run
  refine ⟨slowTwice.1, slowTwice_run, by decide, ?_⟩
  have hconserved := hkeeps.1
  rw [Place.pending, chainBytes_nil, List.append_nil] at hconserved
  exact hconserved

-- What is busy has been passed already.
theorem busy_counted_twice :
    ∃ env first s inputs rc, Fresh first ∧ (∀ input ∈ inputs, ∀ c ∈ input, c.Wf env ∧ c.buf.tag ≠ first.ctx.tag) ∧
      Run env first inputs (s, .returned rc) ∧ s.passed = [0, 1, 2, 3] ∧ s.chainBytes env s.ctx.busy = [0, 1, 2, 3] ∧
      s.passed ++ s.chainBytes env s.ctx.busy ++ s.chainBytes env s.ctx.inChain ≠
        inputs.flatten.flatMap (Cell.bytes env) := by
  have hinputs : ∀ input ∈ [[sixBytes]], ∀ c ∈ input, c.Wf slowFilter ∧ c.buf.tag ≠ oneBuf.ctx.tag := by
    intro input hinput c hc
    rw [List.mem_singleton] at hinput
    subst hinput
    rw [List.mem_singleton] at hc
    subst hc
    exact sixBytes_wf
  exact ⟨slowFilter, oneBuf, slowOnce.1, [[sixBytes]], .again, oneBuf_fresh, hinputs, slowOnce_run, by decide,
    by decide +kernel, by decide +kernel⟩

end Nginx.OutputChain
