import Nginx.Os.Iovec

namespace Nginx.Os

-- ngx_pagesize and IOV_MAX
structure System where
  pageShift : Nat
  iovMax : Nat

def System.pagesize (os : System) : Nat := 2 ^ os.pageShift

-- A limit of 0 is no limit.
def clampLimit (most limit : Nat) : Nat := if limit = 0 ∨ most < limit then most else limit

-- NGX_MAX_SIZE_T_VALUE
def maxSizeT : Nat := 2 ^ 63 - 1

def writevSize (b : Buf) : Nat := b.last - b.pos

def writevPass (b : Buf) : Buf := { b with pos := b.last }

def writevCut (n : Nat) (b : Buf) : Buf := { b with pos := b.pos + n }

def writevLoop (w : World) (os : System) (limit : Nat) : List Turn → Connection → Chain → Nat → Bool → Outcome
  | [], _, _, _, _ => .running
  | t :: turns, c, chain, send, complete =>
    match gather (fun _ => .take) os.iovMax t.pushes limit chain [] 0 send with
    | .error f => .failed f c
    | .ok g =>
      match settle writevSize writevPass writevCut limit t.call (iovBytes w.mem g.header) c chain send g.send
          complete with
      | .done o => o
      | .next c chain complete => writevLoop w os limit turns c chain g.send complete

-- ngx_writev_chain
def writevChain (w : World) (os : System) (turns : List Turn) (c : Connection) (chain : Chain) (limit : Nat) : Outcome :=
  if !c.ready then .returned c chain
  else writevLoop w os (clampLimit (maxSizeT - os.pagesize) limit) turns c chain 0 false

theorem clampLimit_le (most : Nat) {limit : Nat} (h : limit ≠ 0) : clampLimit most limit ≤ limit := by
  unfold clampLimit
  split <;> omega

variable {w : World} {os : System} {limit : Nat}

-- A buf for writev: special, or in memory
structure WritevBuf (w : World) (b : Buf) : Prop where
  special : b.special = true → b.bytes w = []
  memory : b.special = false → b.inMemory = true

theorem WritevBuf.of_wf {b : Buf} (h : b.Wf w) (hmemory : b.special = true ∨ b.inMemory = true) : WritevBuf w b := by
  refine ⟨h.special_bytes, ?_⟩
  intro hspecial
  exact hmemory.resolve_left (by rw [hspecial]; exact Bool.false_ne_true)

theorem WritevBuf.bytes {b : Buf} (h : WritevBuf w b) (hspecial : b.special = false) :
    b.bytes w = ByteMemory.load w.mem b.pos (b.last - b.pos) := by
  rw [Buf.bytes, h.memory hspecial, if_pos rfl]

theorem writev_gatherable {chain : Chain} (h : ∀ b ∈ chain, WritevBuf w b) :
    ∀ b ∈ chain, Gatherable w (fun _ => .take) b :=
  fun b hb => ⟨(h b hb).special, fun hspecial _ => (h b hb).bytes hspecial⟩

theorem writev_updatable (w : World) : Updatable w writevSize writevCut (WritevBuf w) := by
  constructor
  · exact fun b h => h.special
  · intro b h hspecial
    rw [h.bytes hspecial, ByteMemory.load_length]
    rfl
  · intro b n h hspecial hn
    have hmem : (writevCut n b).inMemory = true := h.memory hspecial
    rw [h.bytes hspecial, ByteMemory.load_length] at hn
    refine ⟨⟨?_, fun _ => hmem⟩, ?_⟩
    · intro hspecial'
      exact absurd (hspecial'.symm.trans hspecial) (by decide)
    · rw [h.bytes hspecial, Buf.bytes, hmem, if_pos rfl, ← load_drop _ _ _ _ hn, ← Nat.sub_add_eq]
      rfl

theorem writevLoop_sends {turns : List Turn} {c c' : Connection} {chain rest : Chain} {send : Nat} {complete : Bool}
    (hchain : ∀ b ∈ chain, WritevBuf w b) (hsend : send ≤ limit)
    (h : writevLoop w os limit turns c chain send complete = .returned c' rest) :
    Sends w c chain c' rest (limit - send) := by
  induction turns generalizing c chain send complete with
  | nil => cases h
  | cons t turns ih =>
      rw [writevLoop] at h
      split at h
      · cases h
      · rename_i g hg
        obtain ⟨n, hn, hgrown, hbytes⟩ := gather_spec (writev_gatherable hchain) (by intro _ _ heq; cases heq) hg
        have hle := gather_send_le hsend hg
        have hstep := @settle_spec w limit _ _ _ writevPass (writev_updatable w) _ hchain t.call _ c send g.send complete _
          hn hbytes
        split at h
        · rename_i o hdone
          rw [hdone, h] at hstep
          exact Sends.mono hstep (by omega)
        · rename_i c2 chain2 complete2 hnext
          rw [hnext] at hstep
          obtain ⟨hsends, hkept⟩ := hstep
          exact (hsends.trans (ih hkept hle h)).mono (by omega)

theorem writevChain_sends {turns : List Turn} {c c' : Connection} {chain rest : Chain}
    (hchain : ∀ b ∈ chain, WritevBuf w b)
    (h : writevChain w os turns c chain limit = .returned c' rest) :
    Sends w c chain c' rest (clampLimit (maxSizeT - os.pagesize) limit) := by
  unfold writevChain at h
  split at h
  · cases h
    exact Sends.none w c chain _
  · exact (writevLoop_sends hchain (Nat.zero_le _) h).mono (Nat.sub_le _ 0)

-- A call of writev: what complete was before it, the bytes of the iovecs, and the answer
structure WritevCall where
  complete : Bool
  given : Bytes
  answer : Answer
  deriving DecidableEq

-- The socket is full: not all of the bytes were taken, or none of them with EAGAIN.
def WritevCall.Short (call : WritevCall) : Prop :=
  match call.answer with
  | .count n => n < call.given.length
  | .again => True
  | _ => False

instance (call : WritevCall) : Decidable call.Short := by
  unfold WritevCall.Short
  split <;> infer_instance

-- The calls that writevLoop makes
def writevCalls (w : World) (os : System) (limit : Nat) : List Turn → Connection → Chain → Nat → Bool → List WritevCall
  | [], _, _, _, _ => []
  | t :: turns, c, chain, send, complete =>
    match gather (fun _ => .take) os.iovMax t.pushes limit chain [] 0 send with
    | .error _ => []
    | .ok g =>
      let given := iovBytes w.mem g.header
      ⟨complete, given, t.call⟩ ::
        match settle writevSize writevPass writevCut limit t.call given c chain send g.send complete with
        | .done _ => []
        | .next c chain complete => writevCalls w os limit turns c chain g.send complete

def chainCalls (w : World) (os : System) (turns : List Turn) (c : Connection) (chain : Chain) (limit : Nat) : List WritevCall :=
  if !c.ready then []
  else writevCalls w os (clampLimit (maxSizeT - os.pagesize) limit) turns c chain 0 false

-- The sender has returned, and the write event is not ready.
def Outcome.Waits : Outcome → Prop
  | .returned c _ => c.ready = false
  | _ => False

instance (o : Outcome) : Decidable o.Waits := by
  unfold Outcome.Waits
  split <;> infer_instance

-- A call that finds the socket full is the last one, and the sender waits behind it.
def Stops (calls : List WritevCall) (o : Outcome) : Prop :=
  ∀ before call after, calls = before ++ call :: after → call.Short → after = [] ∧ o.Waits

-- What a short call has to meet: none of the calls before it was complete, and it was given something.
def WritevCall.Meets (call : WritevCall) : Prop := call.complete = false ∧ call.given ≠ []

instance (call : WritevCall) : Decidable call.Meets := inferInstanceAs (Decidable (_ ∧ _))

theorem pushIov_length {w : World} {pushes prev pos size : Nat} {header header' : List Iov}
    (h : pushIov pushes header prev pos size = .ok header') :
    (iovBytes w.mem header').length = (iovBytes w.mem header).length + size := by
  unfold pushIov at h
  split at h
  · cases header with
    | nil => cases h
    | cons iov iovs =>
      cases h
      rw [iovBytes_cons, iovBytes_cons, List.length_append, List.length_append, ByteMemory.load_length,
        ByteMemory.load_length, Nat.add_assoc]
  · split at h
    · cases h
      rw [iovBytes_cons, List.length_append, ByteMemory.load_length]
    · cases h

-- send counts the bytes of the iovecs.
theorem gather_length {w : World} {look : Buf → Look} {iovMax pushes limit prev send : Nat} {header : List Iov}
    {chain : Chain} {g : Gathered} (h : gather look iovMax pushes limit chain header prev send = .ok g) :
    (iovBytes w.mem g.header).length + send = (iovBytes w.mem header).length + g.send := by
  induction chain generalizing header prev send with
  | nil =>
    cases h
    rfl
  | cons b cl ih =>
    obtain rfl | ⟨-, htail⟩ | ⟨-, -, size, header', -, -, -, hpush, htail⟩ := gather_cons h
    · rfl
    · exact ih htail
    · have hrest := ih htail
      have hpushed := pushIov_length (w := w) hpush
      omega

-- What a full socket means for the call: what is accepted is less than what was given, unless nothing was.
theorem short_accepted {call : WritevCall} (h : call.Short) :
    call.answer ≠ .error ∧ call.answer ≠ .intr ∧
      ((call.answer.accepted call.given).length = call.given.length ↔ call.given = []) := by
  obtain ⟨complete, given, answer⟩ := call
  cases answer with
  | count n =>
    change n < given.length at h
    refine ⟨nofun, nofun, ?_⟩
    show (given.take n).length = given.length ↔ given = []
    rw [List.length_take, Nat.min_eq_left (Nat.le_of_lt h)]
    constructor
    · intro heq
      omega
    · intro hnil
      rw [hnil] at h
      exact absurd h (Nat.not_lt_zero n)
  | again =>
    refine ⟨nofun, nofun, ?_⟩
    show 0 = given.length ↔ given = []
    rw [eq_comm, List.length_eq_zero_iff]
  | intr => exact h.elim
  | error => exact h.elim

section

variable {w : World} {limit send grown : Nat} {c : Connection} {chain : Chain} {call : WritevCall}

variable (limit send grown c chain call) in
-- A short call that meets the condition ends the sender, with the write event not ready.
theorem settle_waits (hshort : call.Short) (hmeets : call.Meets) (hgrown : grown = send + call.given.length) :
    ∃ o, settle writevSize writevPass writevCut limit call.answer call.given c chain send grown call.complete = .done o ∧
      o.Waits := by
  obtain ⟨herror, hintr, haccepted⟩ := short_accepted hshort
  obtain ⟨hcomplete, hgiven⟩ := hmeets
  have hpart : (grown - send == (call.answer.accepted call.given).length) = false := by
    rw [hgrown, Nat.add_sub_cancel_left, beq_eq_false_iff_ne]
    exact fun heq => hgiven (haccepted.mp heq.symm)
  unfold settle
  rw [if_neg herror]
  dsimp only
  rw [if_neg hintr, hcomplete, hpart]
  exact ⟨_, rfl, rfl⟩

variable (limit send grown c chain call) in
-- One that does not meet it leaves the write event ready, and may be followed by others.
theorem settle_goes_on (hshort : call.Short) (hmeets : ¬call.Meets) (hgrown : grown = send + call.given.length)
    (hready : c.ready = true) :
    (∃ c' rest, settle writevSize writevPass writevCut limit call.answer call.given c chain send grown call.complete =
        .done (.returned c' rest) ∧ c'.ready = true) ∨
      ∃ c' rest, settle writevSize writevPass writevCut limit call.answer call.given c chain send grown call.complete =
        .next c' rest true ∧ c'.ready = true := by
  obtain ⟨herror, hintr, haccepted⟩ := short_accepted hshort
  have hcomplete : (call.complete || grown - send == (call.answer.accepted call.given).length) = true := by
    rw [hgrown, Nat.add_sub_cancel_left, Bool.or_eq_true, beq_iff_eq]
    by_cases hgiven : call.given = []
    · exact .inr (haccepted.mpr hgiven).symm
    · refine .inl ?_
      by_contra hfalse
      exact hmeets ⟨Bool.eq_false_iff.mpr hfalse, hgiven⟩
  unfold settle
  rw [if_neg herror]
  dsimp only
  rw [if_neg hintr, hcomplete, if_neg (by decide)]
  split
  · exact .inl ⟨_, _, rfl, hready⟩
  · exact .inr ⟨_, _, rfl, hready⟩

theorem settle_next_ready {c' : Connection} {chain' : Chain} {complete complete' : Bool} {answer : Answer} {given : Bytes}
    (h : settle writevSize writevPass writevCut limit answer given c chain send grown complete = .next c' chain' complete') :
    c'.ready = c.ready := by
  unfold settle at h
  dsimp only at h
  split at h
  · cases h
  split at h
  · cases h
    rfl
  split at h
  · cases h
  split at h
  · cases h
  · cases h
    rfl

end

theorem Stops.cons_iff {call : WritevCall} {calls : List WritevCall} {o : Outcome} :
    Stops (call :: calls) o ↔ (call.Short → calls = [] ∧ o.Waits) ∧ Stops calls o := by
  constructor
  · intro h
    refine ⟨h [] call calls rfl, ?_⟩
    intro before call' after heq
    exact h (call :: before) call' after (by rw [heq, List.cons_append])
  · rintro ⟨hcall, hrest⟩ before call' after heq
    cases before with
    | nil =>
      obtain ⟨rfl, rfl⟩ := List.cons.inj heq
      exact hcall
    | cons first before =>
      obtain ⟨rfl, htail⟩ := List.cons.inj heq
      exact hrest before call' after htail

theorem stops_nil (o : Outcome) : Stops [] o := by
  intro before call after heq
  cases before <;> cases heq

variable {w : World} {os : System} {limit : Nat}

-- Without a call the sender does not return.
theorem writevLoop_no_calls {turns : List Turn} {c : Connection} {chain : Chain} {send : Nat} {complete : Bool}
    (h : writevCalls w os limit turns c chain send complete = []) :
    ¬(writevLoop w os limit turns c chain send complete).Waits := by
  cases turns with
  | nil => exact id
  | cons t turns =>
    unfold writevCalls at h
    unfold writevLoop
    cases hg : gather (fun _ => .take) os.iovMax t.pushes limit chain [] 0 send with
    | error f => exact id
    | ok g =>
      rw [hg] at h
      cases h

theorem writevLoop_stops {turns : List Turn} {c : Connection} {chain : Chain} {send : Nat} {complete : Bool}
    (hready : c.ready = true) :
    Stops (writevCalls w os limit turns c chain send complete) (writevLoop w os limit turns c chain send complete) ↔
      ∀ call ∈ writevCalls w os limit turns c chain send complete, call.Short → call.Meets := by
  induction turns generalizing c chain send complete with
  | nil => exact ⟨fun _ _ h => absurd h List.not_mem_nil, fun _ => stops_nil _⟩
  | cons t turns ih =>
    unfold writevCalls writevLoop
    cases hg : gather (fun _ => .take) os.iovMax t.pushes limit chain [] 0 send with
    | error f => exact ⟨fun _ _ h => absurd h List.not_mem_nil, fun _ => stops_nil _⟩
    | ok g =>
      have hgrown : g.send = send + (iovBytes w.mem g.header).length := by
        have hlen := gather_length (w := w) hg
        simp only [iovBytes, List.reverse_nil, List.flatMap_nil, List.length_nil] at hlen ⊢
        omega
      dsimp only
      rw [Stops.cons_iff, List.forall_mem_cons]
      have hwaits := settle_waits limit send g.send c chain ⟨complete, iovBytes w.mem g.header, t.call⟩
      have hgoes := settle_goes_on limit send g.send c chain ⟨complete, iovBytes w.mem g.header, t.call⟩
      dsimp only at hwaits hgoes
      cases hs : settle writevSize writevPass writevCut limit t.call (iovBytes w.mem g.header) c chain send g.send complete with
      | done o =>
        rw [hs] at hwaits hgoes
        dsimp only
        constructor
        · rintro ⟨hcall, -⟩
          refine ⟨fun hshort => ?_, fun _ h => absurd h List.not_mem_nil⟩
          by_contra hmeets
          obtain ⟨c', rest, ho, hready'⟩ | ⟨c', rest, ho, _⟩ := hgoes hshort hmeets hgrown hready
          · obtain rfl := Step.done.inj ho
            have hnot : c'.ready = false := (hcall hshort).2
            rw [hready'] at hnot
            cases hnot
          · cases ho
        · rintro ⟨hcall, -⟩
          refine ⟨fun hshort => ⟨rfl, ?_⟩, stops_nil o⟩
          obtain ⟨o', ho, hready'⟩ := hwaits hshort (hcall hshort) hgrown
          obtain rfl := Step.done.inj ho
          exact hready'
      | next c' chain' complete' =>
        rw [hs] at hwaits
        dsimp only
        rw [ih ((settle_next_ready hs).trans hready)]
        refine and_congr_left fun _ => ⟨fun hcall hshort => ?_, fun hcall hshort => ?_⟩
        · obtain ⟨hnil, hlast⟩ := hcall hshort
          exact absurd hlast (writevLoop_no_calls hnil)
        · obtain ⟨o', ho, _⟩ := hwaits hshort (hcall hshort) hgrown
          cases ho

-- A call that finds the socket full ends ngx_writev_chain with the write event not ready, exactly when no call before
-- it in the invocation was complete and it was given something.
theorem writevChain_ready_exact (w : World) (os : System) (turns : List Turn) (c : Connection) (chain : Chain) (limit : Nat) :
    Stops (chainCalls w os turns c chain limit) (writevChain w os turns c chain limit) ↔
      ∀ call ∈ chainCalls w os turns c chain limit, call.Short → call.Meets := by
  unfold chainCalls writevChain
  cases hready : c.ready with
  | false => exact ⟨fun _ => nofun, fun _ => stops_nil _⟩
  | true => exact writevLoop_stops hready

-- Seventeen bufs of one byte, none behind another, where a call takes sixteen iovecs
def apartChain : Chain := (List.range 17).map fun i => { Buf.empty with pos := 100 + 2 * i, last := 101 + 2 * i, memory := true }

def zeroWorld : World := ⟨fun _ => 0, fun _ _ => 0⟩

-- The first call takes all that it is given, the second one nothing, and there is a third one.
def fullTurns : List Turn := [⟨64, .done, .done, .count 16⟩, ⟨64, .done, .done, .again⟩, ⟨64, .done, .done, .count 1⟩]

def readyConnection : Connection := ⟨true, false, 0, .unset, .unset, []⟩

theorem writevChain_ready_not_always :
    ¬Stops (chainCalls zeroWorld ⟨12, 16⟩ fullTurns readyConnection apartChain 0)
      (writevChain zeroWorld ⟨12, 16⟩ fullTurns readyConnection apartChain 0) := by
  intro h
  have hlast := h [⟨false, List.replicate 16 0, .count 16⟩] ⟨true, [0], .again⟩ [⟨true, [0], .count 1⟩]
    (by decide) trivial
  exact absurd hlast.1 (by decide)

end Nginx.Os
