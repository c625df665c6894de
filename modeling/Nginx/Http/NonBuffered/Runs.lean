import Nginx.Http.NonBuffered

namespace Nginx.NonBuffered

open ByteMemory

-- What the client is to get of the bytes behind the header
def due (contentLength : Option Nat) (received : Bytes) : Bytes :=
  match contentLength with
  | none => received
  | some l => received.take l

-- u->length is what is missing, and a response without Content-Length keeps its NGX_MAX_SIZE_T_VALUE.
def Counted (contentLength : Option Nat) (u : Upstream) : Prop :=
  match contentLength with
  | none => u.length = maxSize
  | some l => u.received.length + u.length = l

-- What the client has got and is to get
structure Exact (contentLength : Option Nat) (u : Upstream) : Prop where
  order : u.stage ≠ .failed → u.passed ++ contents u.mem u.outBufs = due contentLength u.received
  part : u.passed <+: due contentLength u.received
  kept : ∀ p ∈ u.busyBufs ++ u.outBufs, p.bytes u.mem <:+ p.made
  counted : Counted contentLength u
  ended : u.stage = .done → u.passed = due contentLength u.received ∧ u.busyBufs = [] ∧
    (u.closed = true ∨ contentLength = some u.received.length)

-- A buf that nothing will overwrite, as long as u->buffer is filled from its last on.
structure Safe (mem : Memory) (bufLast : Nat) (p : Piece) : Prop where
  posLe : p.pos ≤ p.last
  lastLe : p.last ≤ bufLast
  kept : p.bytes mem <:+ p.made

-- What holds between the steps of a turn, whatever comes next
structure Orderly (contentLength : Option Nat) (u : Upstream) : Prop where
  startLe : u.start ≤ u.bufEnd
  lastLe : u.last ≤ u.bufEnd
  safe : ∀ p ∈ u.busyBufs ++ u.outBufs, Safe u.mem u.last p
  order : u.passed ++ contents u.mem u.outBufs = u.received
  counted : Counted contentLength u

-- What is left of it after a failure
structure Broken (contentLength : Option Nat) (u : Upstream) : Prop where
  safe : ∀ p ∈ u.busyBufs ++ u.outBufs, Safe u.mem u.last p
  part : u.passed <+: u.received
  counted : Counted contentLength u

def Inv (contentLength : Option Nat) (u : Upstream) : Prop :=
  match u.stage with
  | .waiting => Orderly contentLength u ∧ u.outBufs = []
  | .turn doWrite => Orderly contentLength u ∧ (doWrite = false → u.outBufs = [])
  | .done => Orderly contentLength u ∧ u.outBufs = [] ∧ u.busyBufs = [] ∧ (u.length = 0 ∨ u.closed = true)
  | .failed => Broken contentLength u

variable {cl : Option Nat} {u : Upstream}

theorem Piece.bytes_advance (mem : Memory) (n : Nat) (p : Piece) (h : p.pos ≤ p.last) :
    (p.advance n).bytes mem <:+ p.bytes mem := by
  have hsize : p.size = min n p.size + (p.advance n).size := by
    simp only [Piece.advance, Piece.size]
    omega
  refine ⟨load mem p.pos (min n p.size), ?_⟩
  unfold Piece.bytes
  conv_rhs => rw [hsize, load_append]
  rfl

theorem Safe.advance {mem : Memory} {bufLast : Nat} {p : Piece} (h : Safe mem bufLast p) (n : Nat) :
    Safe mem bufLast (p.advance n) where
  posLe := by
    have hpos := h.posLe
    simp only [Piece.advance, Piece.size]
    omega
  lastLe := h.lastLe
  kept := (Piece.bytes_advance mem n p h.posLe).trans h.kept

-- Storing from the last of u->buffer on leaves every buf as it is.
theorem Safe.bytes_store {mem : Memory} {bufLast : Nat} {p : Piece} (h : Safe mem bufLast p) (data : Bytes) :
    p.bytes (store mem bufLast data) = p.bytes mem := by
  have hpos := h.posLe
  have hlast := h.lastLe
  refine load_store_disjoint mem data (Or.inl ?_)
  unfold Piece.size
  omega

theorem Safe.store {mem : Memory} {bufLast : Nat} {p : Piece} (h : Safe mem bufLast p) (data : Bytes) :
    Safe (store mem bufLast data) bufLast p where
  posLe := h.posLe
  lastLe := h.lastLe
  kept := by
    rw [h.bytes_store data]
    exact h.kept

theorem Safe.mono {mem : Memory} {bufLast more : Nat} {p : Piece} (h : Safe mem bufLast p) (hle : bufLast ≤ more) :
    Safe mem more p where
  posLe := h.posLe
  lastLe := Nat.le_trans h.lastLe hle
  kept := h.kept

theorem mem_consume (taken : List Nat) (chain : List Piece) (p : Piece) (h : p ∈ consume taken chain) :
    ∃ q ∈ chain, p = q ∨ ∃ n, p = q.advance n := by
  induction chain generalizing taken with
  | nil => simp [consume] at h
  | cons q chain ih =>
      cases taken with
      | nil => exact ⟨p, h, Or.inl rfl⟩
      | cons n taken =>
          rw [consume, List.mem_cons] at h
          obtain rfl | h := h
          · exact ⟨q, List.mem_cons_self, Or.inr ⟨n, rfl⟩⟩
          · obtain ⟨q', hq, hp⟩ := ih taken h
            exact ⟨q', List.mem_cons_of_mem q hq, hp⟩

theorem safe_consume {mem : Memory} {bufLast : Nat} (taken : List Nat) {chain : List Piece}
    (h : ∀ p ∈ chain, Safe mem bufLast p) : ∀ p ∈ consume taken chain, Safe mem bufLast p := by
  intro p hp
  obtain ⟨q, hq, rfl | ⟨n, rfl⟩⟩ := mem_consume taken chain p hp
  · exact h p hq
  · exact (h q hq).advance n

theorem recycle_suffix (chain : List Piece) (free : Nat) : (recycle chain free).1 <:+ chain := by
  induction chain generalizing free with
  | nil => exact List.suffix_refl []
  | cons p chain ih =>
      rw [recycle]
      split
      · exact List.suffix_refl _
      · exact (ih (free + 1)).trans (List.suffix_cons p chain)

theorem Orderly.fail (h : Orderly cl u) : Inv cl u.fail := ⟨h.safe, ⟨_, h.order⟩, h.counted⟩

theorem Orderly.turn (h : Orderly cl u) : Inv cl { u with stage := .turn true } :=
  ⟨⟨h.startLe, h.lastLe, h.safe, h.order, h.counted⟩, nofun⟩

theorem setEvents_inv (t : Turn) (h : Orderly cl u) (hout : u.outBufs = []) : Inv cl (setEvents t u) := by
  unfold setEvents
  split
  · exact ⟨⟨h.startLe, h.lastLe, h.safe, h.order, h.counted⟩, hout⟩
  · exact h.fail

-- The filter is called for bytes that stand at the last of u->buffer.
theorem inputFilter_orderly {memory : Bool} {bytes : Nat} {u' : Upstream} (h : Orderly cl u)
    (hcl : ∀ l, cl = some l → l < 2 ^ 63) (hend : u.last + bytes ≤ u.bufEnd) (hlen : ∀ l, cl = some l → bytes ≤ u.length)
    (hrun : inputFilter memory bytes u = some u') : Orderly cl u' := by
  unfold inputFilter at hrun
  split at hrun
  · cases hrun
  obtain rfl := Option.some.inj hrun
  have hmade : Piece.bytes u.mem ⟨u.last, u.last + bytes, load u.mem u.last bytes⟩ = load u.mem u.last bytes := by
    simp [Piece.bytes, Piece.size]
  refine ⟨h.startLe, hend, ?_, ?_, ?_⟩
  · intro p hp
    rw [← List.append_assoc, List.mem_append, List.mem_singleton] at hp
    obtain hp | rfl := hp
    · exact (h.safe p hp).mono (Nat.le_add_right _ _)
    · exact ⟨Nat.le_add_right _ _, Nat.le_refl _, hmade ▸ List.suffix_refl _⟩
  · have horder := h.order
    simp only [contents, List.flatMap_append, List.flatMap_cons, List.flatMap_nil, List.append_nil, hmade]
    rw [← horder, List.append_assoc]
    rfl
  · have hcounted := h.counted
    cases cl with
    | none =>
        change u.length = maxSize at hcounted
        exact (if_pos hcounted).trans hcounted
    | some l =>
        have hl := hcl l rfl
        have hbytes := hlen l rfl
        change u.received.length + u.length = l at hcounted
        have hne : u.length ≠ maxSize := by
          unfold maxSize
          omega
        have hsize := toSize_of_nonneg (u.length - bytes) (by omega) (by omega)
        simp only [Counted, if_neg hne, List.length_append, load_length]
        omega

theorem readMore_inv (t : Turn) (h : Orderly cl u) (hcl : ∀ l, cl = some l → l < 2 ^ 63) (hout : u.outBufs = []) :
    Inv cl (readMore t u) := by
  unfold readMore
  dsimp only
  split
  next hsize =>
      cases t.recv with
      | again => exact setEvents_inv t h hout
      | none ended => exact ⟨⟨h.startLe, h.lastLe, h.safe, h.order, h.counted⟩, nofun⟩
      | bytes b more =>
          dsimp only
          generalize hdata : (b :: more).take (min (u.bufEnd - u.last) u.length) = data
          have hle : data.length ≤ min (u.bufEnd - u.last) u.length := by
            rw [← hdata]
            exact List.length_take_le _ _
          have hlast := h.lastLe
          have hstored : Orderly cl
              { u with mem := store u.mem u.last data, responseLength := u.responseLength + data.length } := by
            refine ⟨h.startLe, h.lastLe, fun p hp => (h.safe p hp).store data, ?_, h.counted⟩
            have horder := h.order
            rw [hout] at horder ⊢
            exact horder
          split
          next => exact hstored.fail
          next u' hrun =>
              refine (inputFilter_orderly hstored hcl ?_ (fun l _ => ?_) hrun).turn
              · change u.last + data.length ≤ u.bufEnd
                omega
              · change data.length ≤ u.length
                omega
  next => exact setEvents_inv t h hout

theorem rewind_inv (t : Turn) (h : Orderly cl u) (hcl : ∀ l, cl = some l → l < 2 ^ 63) (hout : u.outBufs = []) :
    Inv cl (rewind t u) := by
  unfold rewind
  split
  next hempty =>
      have hbusy := List.isEmpty_iff.mp hempty
      split
      next hended => exact ⟨⟨h.startLe, h.lastLe, h.safe, h.order, h.counted⟩, hout, hbusy, hended⟩
      next =>
          -- No buf is left that u->buffer could be read over.
          refine readMore_inv t ⟨h.startLe, h.startLe, ?_, h.order, h.counted⟩ hcl hout
          simp [hbusy, hout]
  next => exact readMore_inv t h hcl hout

theorem updateChains_orderly (h : Broken cl u) (hstart : u.start ≤ u.bufEnd) (hlast : u.last ≤ u.bufEnd)
    (hpassed : u.passed = u.received) : Orderly cl (updateChains u) := by
  refine ⟨hstart, hlast, ?_, ?_, h.counted⟩
  · intro p hp
    simp only [updateChains, List.append_nil] at hp
    exact h.safe p ((recycle_suffix _ _).subset hp)
  · simp [updateChains, contents, hpassed]

theorem outputFilter_broken (taken : List Nat) (h : Orderly cl u) : Broken cl (outputFilter taken u) := by
  refine ⟨?_, ⟨[], by rw [List.append_nil]; exact h.order⟩, h.counted⟩
  intro p hp
  obtain hp | hp := List.mem_append.mp hp
  · exact safe_consume taken (fun q hq => h.safe q (List.mem_append_left _ hq)) p hp
  · exact safe_consume _ (fun q hq => h.safe q (List.mem_append_right _ hq)) p hp

theorem turn_inv (t : Turn) (doWrite : Bool) (h : Orderly cl u) (hcl : ∀ l, cl = some l → l < 2 ^ 63)
    (hout : doWrite = false → u.outBufs = []) : Inv cl (turn t doWrite u) := by
  unfold turn
  cases doWrite with
  | false => exact readMore_inv t h hcl (hout rfl)
  | true =>
      have hfilter := outputFilter_broken t.taken h
      simp only [if_true]
      split
      next =>
          split
          next => exact ⟨hfilter.safe, hfilter.part, hfilter.counted⟩
          next => exact rewind_inv t (updateChains_orderly hfilter h.startLe h.lastLe h.order) hcl rfl
      next hnone =>
          simp only [Bool.or_eq_true, Bool.not_eq_true', List.isEmpty_eq_false_iff, not_or, ne_eq, not_not] at hnone
          exact rewind_inv t h hcl hnone.1

theorem downstream_inv (timedout : Bool) (h : Orderly cl u) : Inv cl (downstream timedout u) := by
  unfold downstream
  split
  · exact h.fail
  · exact h.turn

theorem upstream_inv (timedout : Bool) (h : Orderly cl u) (hout : u.outBufs = []) : Inv cl (upstream timedout u) := by
  unfold upstream
  split
  · exact h.fail
  · exact ⟨⟨h.startLe, h.lastLe, h.safe, h.order, h.counted⟩, fun _ => hout⟩

theorem step_inv {u' : Upstream} (hcl : ∀ l, cl = some l → l < 2 ^ 63) (h : Inv cl u) (hs : Step u u') : Inv cl u' := by
  unfold Inv at h
  cases hs with
  | turn t hstage =>
      rw [hstage] at h
      exact turn_inv t _ h.1 hcl h.2
  | downstream timedout hstage =>
      rw [hstage] at h
      exact downstream_inv timedout h.1
  | upstream timedout hstage =>
      rw [hstage] at h
      exact upstream_inv timedout h.1 h.2
  | consume taken hstage =>
      rw [hstage] at h
      obtain ⟨h, hout⟩ := h
      have hsafe : ∀ p ∈ consume taken u.busyBufs ++ u.outBufs, Safe u.mem u.last p := by
        rw [hout, List.append_nil]
        exact safe_consume taken fun q hq => h.safe q (List.mem_append_left _ hq)
      unfold Inv
      rw [hstage]
      exact ⟨⟨h.startLe, h.lastLe, hsafe, h.order, h.counted⟩, hout⟩

theorem upstream_orderly (r : Response) : Orderly r.contentLength r.upstream := by
  refine ⟨Nat.le_trans r.startLe (Nat.le_trans r.posLe r.lastLe), r.lastLe, nofun, rfl, ?_⟩
  unfold Counted Response.upstream
  cases r.contentLength with
  | none => rfl
  | some l => exact Nat.zero_add l

theorem sendResponse_inv (r : Response) (e : Entry) (h : ∀ l, r.contentLength = some l → r.last - r.pos ≤ l) :
    Inv r.contentLength (sendResponse e r.upstream) := by
  have hu := upstream_orderly r
  have hle := Nat.le_trans r.startLe r.posLe
  unfold sendResponse
  dsimp only
  split
  next =>
      have hback : Orderly r.contentLength
          { r.upstream with
            last := r.upstream.pos
            responseLength := r.upstream.responseLength + (r.upstream.last - r.upstream.pos) } :=
        ⟨hu.startLe, Nat.le_trans r.posLe r.lastLe, nofun, rfl, hu.counted⟩
      split
      next => exact hback.fail
      next u' hrun =>
          refine downstream_inv e.timedout (inputFilter_orderly hback r.lengthLt ?_ (fun l hl => ?_) hrun)
          · have hpos := r.posLe
            have hlast := r.lastLe
            change r.pos + (r.last - r.pos) ≤ r.bufEnd
            omega
          · change r.last - r.pos ≤ r.contentLength.getD maxSize
            rw [hl]
            exact h l hl
  next =>
      have hrewound : Orderly r.contentLength { r.upstream with pos := r.upstream.start, last := r.upstream.start } :=
        ⟨hu.startLe, hu.startLe, nofun, rfl, hu.counted⟩
      split
      · exact hrewound.fail
      split
      · exact upstream_inv e.timedout hrewound rfl
      · exact ⟨⟨hu.startLe, hu.startLe, nofun, rfl, hu.counted⟩, rfl⟩

theorem reach_inv {r : Response} (h : ∀ l, r.contentLength = some l → r.last - r.pos ≤ l) (hr : Reach r u) :
    Inv r.contentLength u := by
  induction hr with
  | start e => exact sendResponse_inv r e h
  | step _ hs ih => exact step_inv r.lengthLt ih hs

theorem due_received (h : Counted cl u) : due cl u.received = u.received := by
  cases cl with
  | none => rfl
  | some l =>
      change u.received.length + u.length = l at h
      exact List.take_of_length_le (by omega)

theorem Orderly.exact (h : Orderly cl u)
    (hended : u.stage = .done → u.outBufs = [] ∧ u.busyBufs = [] ∧ (u.length = 0 ∨ u.closed = true)) : Exact cl u := by
  have hdue := due_received h.counted
  have horder := h.order.trans hdue.symm
  refine ⟨fun _ => horder, ⟨_, horder⟩, fun p hp => (h.safe p hp).kept, h.counted, fun hdone => ?_⟩
  obtain ⟨hout, hbusy, hcause⟩ := hended hdone
  rw [hout, contents, List.flatMap_nil, List.append_nil] at horder
  refine ⟨horder, hbusy, ?_⟩
  obtain hzero | hclosed := hcause
  · right
    have hcounted := h.counted
    cases cl with
    | none =>
        change u.length = maxSize at hcounted
        rw [hzero] at hcounted
        cases hcounted
    | some l =>
        change u.received.length + u.length = l at hcounted
        rw [← hcounted, hzero, Nat.add_zero]
  · exact Or.inl hclosed

theorem Inv.exact (h : Inv cl u) : Exact cl u := by
  unfold Inv at h
  split at h
  next hstage => exact h.1.exact fun hdone => by rw [hstage] at hdone; cases hdone
  next hstage => exact h.1.exact fun hdone => by rw [hstage] at hdone; cases hdone
  next => exact h.1.exact fun _ => h.2
  next hstage =>
      refine ⟨fun hne => absurd hstage hne, ?_, fun p hp => (h.safe p hp).kept, h.counted, fun hdone => ?_⟩
      · rw [due_received h.counted]
        exact h.part
      · rw [hstage] at hdone
        cases hdone

-- What was read with the header is handed on without a look at u->length.
theorem preread_received (r : Response) (hne : r.last - r.pos ≠ 0) :
    ∃ u, Reach r u ∧ u.received.length = r.last - r.pos := by
  refine ⟨_, Reach.start ⟨true, true, true, false⟩, ?_⟩
  have hn : r.upstream.last - r.upstream.pos ≠ 0 := hne
  unfold sendResponse
  dsimp only
  rw [if_pos hn]
  simp [inputFilter, downstream, Response.upstream]

theorem passes_exactly (r : Response) :
    (∀ u, Reach r u → Exact r.contentLength u) ↔ ∀ l, r.contentLength = some l → r.last - r.pos ≤ l := by
  constructor
  · intro h l hl
    by_contra hlong
    obtain ⟨u, hr, hlen⟩ := preread_received r (by omega)
    have hcounted := (h u hr).counted
    rw [hl] at hcounted
    change u.received.length + u.length = l at hcounted
    omega
  · intro h u hr
    exact (reach_inv h hr).exact

-- A Content-Length of 3, and 5 bytes behind the header that came with it
def overlong : Response where
  mem := store (fun _ => 0) 4 (ngxString "hello")
  start := 0
  pos := 4
  last := 9
  bufEnd := 16
  contentLength := some 3
  closed := false
  startLe := by decide
  posLe := by decide
  lastLe := by decide
  lengthLt := by
    intro l hl
    obtain rfl := Option.some.inj hl
    decide

-- The client takes all of it, and the upstream closes.
def finish : Turn := ⟨[5], false, true, .none true, true, true⟩

theorem preread_too_long : ∃ u, Reach overlong u ∧ u.stage = .done ∧ u.passed = ngxString "hello" ∧
    due overlong.contentLength u.received = ngxString "hel" ∧ u.length = 2 ^ 64 - 2 ∧
    ¬ Exact overlong.contentLength u := by
  let entered := sendResponse ⟨true, true, true, false⟩ overlong.upstream
  let closed := turn finish true entered
  have hentered : entered.stage = .turn true := by decide
  have hclosed : closed.stage = .turn true := by decide
  have hreach := ((Reach.start _).step (.turn finish hentered)).step (.turn finish hclosed)
  have hdone : (turn finish true closed).stage = .done := by decide
  have hpassed : (turn finish true closed).passed = ngxString "hello" := by decide
  have hdue : due overlong.contentLength (turn finish true closed).received = ngxString "hel" := by decide +kernel
  refine ⟨_, hreach, hdone, hpassed, hdue, by decide, fun hexact => ?_⟩
  have heq := (hexact.ended hdone).1
  rw [hpassed, hdue] at heq
  revert heq
  decide

end Nginx.NonBuffered
