import Nginx.Core.Buf

namespace Nginx.WriteFilter

-- Of the location: the directives that the filter reads, the page size, and the second in which the request started.
structure Config where
  postponeOutput : Nat
  limitRateAfter : Nat
  sendfileMaxChunk : Nat
  chunkFits : sendfileMaxChunk < 2 ^ 64
  pagesize : Nat
  startSec : Int

-- Of r, of its connection c and of c->write: out is r->out, and terminated is false when its last link has no NULL.
-- socket holds what has been sent.
structure Request where
  out : Chain
  terminated : Bool
  error : Bool
  delayed : Bool
  ready : Bool
  writeBuffered : Bool
  lowlevelBuffered : Bool
  postponed : Bool
  limitRate : Nat
  now : Int
  timer : Option Nat
  sent : Nat
  socket : Bytes

inductive Code where
  | ok
  | again
  | error
  deriving DecidableEq, Repr

-- What c->send_chain answers: how many bytes it has sent, the chain that it returns, and c->write->ready.
-- No answer is NGX_CHAIN_ERROR.
structure Answer where
  count : Nat
  chain : Chain
  ready : Bool

abbrev Sender := Chain → Int → Option Answer

-- "zero size buf in writer"
def zeroSize (b : Buf) : Bool := b.size == 0 && !b.special

-- The links of the new bufs, for as many as ngx_alloc_chain_link finds memory. The loop also ends at a zero size buf,
-- which it has linked.
def linkNew : Nat → Chain → Chain × Bool
  | _, [] => ([], true)
  | 0, _ :: _ => ([], false)
  | links + 1, b :: ln =>
    if zeroSize b then ([b], false)
    else
      let (cl, linked) := linkNew links ln
      (b :: cl, linked)

def rateLimit (cf : Config) (r : Request) : Int :=
  toInt64 (r.limitRate * (r.now - cf.startSec + 1) - (r.sent - cf.limitRateAfter))

-- The limit for the sender, or the time to wait. A limit of 0 is no limit.
def chooseLimit (cf : Config) (r : Request) : Except Nat Int :=
  if r.limitRate ≠ 0 then
    let limit := rateLimit cf r
    if limit ≤ 0 then .error (toSize (-limit * 1000) / r.limitRate + 1)
    else if cf.sendfileMaxChunk ≠ 0 ∧ toInt64 cf.sendfileMaxChunk < limit then .ok (toInt64 cf.sendfileMaxChunk)
    else .ok limit
  else .ok (toInt64 cf.sendfileMaxChunk)

-- What was sent beyond limit_rate_after
def beyond (cf : Config) (sent : Int) : Int :=
  if cf.limitRateAfter ≠ 0 then max 0 (toInt64 (sent - cf.limitRateAfter)) else sent

-- The delay for the bytes just sent: also the limit and sent that the check after it reads.
def rateDelay (cf : Config) (sent limit : Int) (r : Request) : Request × Int × Int :=
  if r.limitRate ≠ 0 then
    let delay := toSize ((beyond cf r.sent - beyond cf sent) * 1000) / r.limitRate
    if 0 < delay then ({ r with delayed := true, timer := some delay }, 0, beyond cf sent)
    else (r, limit, beyond cf sent)
  else (r, limit, sent)

def throttle (cf : Config) (sent limit : Int) (r : Request) : Request :=
  let (r, limit, sent) := rateDelay cf sent limit r
  if limit ≠ 0 ∧ r.ready = true ∧ limit - 2 * cf.pagesize ≤ r.sent - sent then
    { r with delayed := true, timer := some 1 }
  else r

-- After the sender: r->out = chain
def settle (chain : Chain) (r : Request) : Request × Code :=
  if chain ≠ [] then ({ r with out := chain, writeBuffered := true }, .again)
  else
    let r := { r with out := chain, writeBuffered := false }
    if r.lowlevelBuffered && !r.postponed then (r, .again) else (r, .ok)

def Request.accept (w : World) (a : Answer) (r : Request) : Request :=
  { r with
    ready := a.ready
    sent := r.sent + a.count
    socket := r.socket ++ (chainBytes w r.out).take a.count }

-- The part of the call after the chains are joined
def output (w : World) (cf : Config) (r : Request) (input : Chain) (sender : Sender) : Request × Code :=
  let size := (r.out.map Buf.size).sum
  let flush := r.out.any fun b => b.flush || b.recycled
  let last := r.out.any Buf.lastBuf
  if last = false ∧ flush = false ∧ input ≠ [] ∧ size < toInt64 cf.postponeOutput then (r, .ok)
  else if r.delayed then ({ r with writeBuffered := true }, .again)
  else if size = 0 ∧ r.lowlevelBuffered = false then
    if last || flush then ({ r with out := [], writeBuffered := false }, .ok) else (r, .error)
  else
    match chooseLimit cf r with
    | .error wait => ({ r with delayed := true, timer := some wait, writeBuffered := true }, .again)
    | .ok limit =>
      match sender r.out limit with
      | none => ({ r with error := true }, .error)
      | some a => settle a.chain (throttle cf r.sent limit (r.accept w a))

def Request.link (cl : Chain) (linked : Bool) (r : Request) : Request :=
  { r with out := r.out ++ cl, terminated := linked }

-- ngx_http_write_filter; none when it walks a chain that has no end
def writeFilter (w : World) (cf : Config) (r : Request) (input : Chain) (links : Nat) (sender : Sender) :
    Option (Request × Code) :=
  if r.error then some (r, .error)
  else if !r.terminated then none
  else if r.out.any zeroSize then some (r, .error)
  else
    let (cl, linked) := linkNew links input
    let r := r.link cl linked
    if linked then some (output w cf r input sender) else some (r, .error)

-- Between the calls others change what the filter reads.
structure Others where
  delayed : Bool
  ready : Bool
  lowlevelBuffered : Bool
  postponed : Bool
  limitRate : Nat
  now : Int

inductive Event where
  | call (input : Chain) (links : Nat) (sender : Sender)
  | others (o : Others)

def Others.apply (o : Others) (r : Request) : Request :=
  { r with
    delayed := o.delayed
    ready := o.ready
    lowlevelBuffered := o.lowlevelBuffered
    postponed := o.postponed
    limitRate := o.limitRate
    now := o.now }

def run (w : World) (cf : Config) : Request → List Event → Option Request
  | r, [] => some r
  | r, .others o :: events => run w cf (o.apply r) events
  | r, .call input links sender :: events =>
    match writeFilter w cf r input links sender with
    | none => none
    | some (r, _) => run w cf r events

def given (w : World) (events : List Event) : Bytes :=
  events.flatMap fun e =>
    match e with
    | .call input _ _ => chainBytes w input
    | .others _ => []

section

variable {w : World} {cf : Config}

-- A chain that the filter takes and that the senders return: no buf of it is zero size.
structure Writable (w : World) (chain : Chain) : Prop where
  wf : ChainWf w chain
  sized : chain.any zeroSize = false

-- The sender sends a prefix of at most the limit and returns the rest.
def SendsPrefix (w : World) (sender : Sender) : Prop :=
  ∀ out limit, Writable w out → ∃ a, sender out limit = some a ∧ a.count ≤ (chainBytes w out).length ∧
    (0 < limit → a.count ≤ limit) ∧ (limit < 0 → a.count = 0) ∧
    chainBytes w a.chain = (chainBytes w out).drop a.count ∧ Writable w a.chain

def Event.Proper (w : World) : Event → Prop
  | .call input links sender => Writable w input ∧ input.length ≤ links ∧ SendsPrefix w sender
  | .others _ => True

structure Open (w : World) (r : Request) : Prop where
  terminated : r.terminated = true
  error : r.error = false
  out : Writable w r.out

-- What the filter keeps over a call: the clock and the rate, and all the bytes it was given.
structure Keeps (w : World) (r r' : Request) (bytes : Bytes) : Prop where
  now : r'.now = r.now
  limitRate : r'.limitRate = r.limitRate
  bytes : r'.socket ++ chainBytes w r'.out = r.socket ++ chainBytes w r.out ++ bytes
  sent : r'.sent + r.socket.length = r.sent + r'.socket.length

-- The most that the rate allows up to now
def allowed (cf : Config) (r : Request) : Int := r.limitRate * (r.now - cf.startSec + 1) + cf.limitRateAfter

theorem Writable.append {one two : Chain} (hone : Writable w one) (htwo : Writable w two) : Writable w (one ++ two) := by
  constructor
  · intro b hb
    obtain h | h := List.mem_append.mp hb
    · exact hone.wf b h
    · exact htwo.wf b h
  · rw [List.any_append, hone.sized, htwo.sized]
    rfl

theorem Writable.nil : Writable w [] := by
  constructor
  · intro b hb
    cases hb
  · rfl

theorem linkNew_all {input : Chain} {links : Nat} (hsized : input.any zeroSize = false) (hlinks : input.length ≤ links) :
    linkNew links input = (input, true) := by
  induction input generalizing links with
  | nil => cases links <;> rfl
  | cons b ln ih =>
      cases links with
      | zero => cases hlinks
      | succ links =>
          rw [List.any_cons, Bool.or_eq_false_iff] at hsized
          rw [linkNew, hsized.1, ih hsized.2 (Nat.le_of_succ_le_succ hlinks)]
          rfl

-- The check for a delay changes nothing that counts.
structure SameRequest (r r' : Request) : Prop where
  out : r'.out = r.out
  terminated : r'.terminated = r.terminated
  error : r'.error = r.error
  now : r'.now = r.now
  limitRate : r'.limitRate = r.limitRate
  sent : r'.sent = r.sent
  socket : r'.socket = r.socket

theorem SameRequest.refl (r : Request) : SameRequest r r := ⟨rfl, rfl, rfl, rfl, rfl, rfl, rfl⟩

theorem SameRequest.settled {r r' r'' : Request} {chain : Chain} (h : SameRequest r r')
    (hset : SameRequest { r' with out := chain } r'') : SameRequest { r with out := chain } r'' :=
  ⟨hset.out, hset.terminated.trans h.terminated, hset.error.trans h.error, hset.now.trans h.now,
    hset.limitRate.trans h.limitRate, hset.sent.trans h.sent, hset.socket.trans h.socket⟩

theorem rateDelay_same (cf : Config) (sent limit : Int) (r : Request) :
    SameRequest r (rateDelay cf sent limit r).1 := by
  unfold rateDelay
  dsimp only
  split
  · split
    · exact ⟨rfl, rfl, rfl, rfl, rfl, rfl, rfl⟩
    · exact SameRequest.refl r
  · exact SameRequest.refl r

theorem throttle_same (cf : Config) (sent limit : Int) (r : Request) : SameRequest r (throttle cf sent limit r) := by
  have h := rateDelay_same cf sent limit r
  unfold throttle
  dsimp only
  split
  · exact ⟨h.out, h.terminated, h.error, h.now, h.limitRate, h.sent, h.socket⟩
  · exact h

theorem settle_same (chain : Chain) (r : Request) : SameRequest { r with out := chain } (settle chain r).1 := by
  unfold settle
  dsimp only
  split
  · exact ⟨rfl, rfl, rfl, rfl, rfl, rfl, rfl⟩
  · split <;> exact ⟨rfl, rfl, rfl, rfl, rfl, rfl, rfl⟩

theorem toInt64_le {n : Int} (h : 0 ≤ n) : toInt64 n ≤ n := by
  unfold toInt64
  rw [Int.bmod_def]
  split <;> omega

theorem toInt64_ne_zero {n : Nat} (h : n < 2 ^ 64) (hne : n ≠ 0) : toInt64 n ≠ 0 := by
  unfold toInt64
  rw [Int.bmod_def]
  split <;> omega

-- With a rate the limit is never 0, and it is what the rate still allows at most.
theorem chooseLimit_spec {r : Request} {limit : Int} (hrate : r.limitRate ≠ 0) (hsent : r.sent ≤ allowed cf r)
    (h : chooseLimit cf r = .ok limit) : limit ≠ 0 ∧ r.sent + limit ≤ allowed cf r := by
  have hle : rateLimit cf r ≤ allowed cf r - r.sent := by
    have heq : r.limitRate * (r.now - cf.startSec + 1) - (r.sent - cf.limitRateAfter) = allowed cf r - r.sent := by
      unfold allowed
      omega
    unfold rateLimit
    rw [heq]
    exact toInt64_le (by omega)
  unfold chooseLimit at h
  rw [if_pos hrate] at h
  dsimp only at h
  generalize rateLimit cf r = most at h hle
  split at h
  · cases h
  · split at h
    · rename_i hchunk
      have hlimit := Except.ok.inj h
      have hne := toInt64_ne_zero cf.chunkFits hchunk.1
      exact ⟨hlimit ▸ hne, by omega⟩
    · cases h
      exact ⟨by omega, by omega⟩

theorem Keeps.same {r r' r'' : Request} {bytes : Bytes} (h : Keeps w r r' bytes) (hsame : SameRequest r' r'') :
    Keeps w r r'' bytes := by
  constructor
  · exact hsame.now.trans h.now
  · exact hsame.limitRate.trans h.limitRate
  · rw [hsame.socket, hsame.out, h.bytes]
  · rw [hsame.sent, hsame.socket, h.sent]

theorem Open.same {r r' : Request} (h : Open w r) (hsame : SameRequest r r') : Open w r' :=
  ⟨hsame.terminated.trans h.terminated, hsame.error.trans h.error, hsame.out ▸ h.out⟩

-- When the size of a writable chain is 0, all its bufs are special.
theorem bytes_of_size_zero {chain : Chain} (h : (chain.map Buf.size).sum = 0) : chainBytes w chain = [] := by
  induction chain with
  | nil => rfl
  | cons b cl ih =>
      rw [List.map_cons, List.sum_cons, Nat.add_eq_zero_iff] at h
      rw [chainBytes_cons, Buf.bytes_of_size h.1, ih h.2]
      rfl

-- A step of the filter: the request stays open, no byte is lost, and the rate is kept.
structure Steps (w : World) (cf : Config) (r r' : Request) (bytes : Bytes) : Prop where
  opened : Open w r'
  keeps : Keeps w r r' bytes
  rate : r.limitRate ≠ 0 → r.sent ≤ allowed cf r → r'.sent ≤ allowed cf r

theorem Steps.unsent {r r' : Request} (hr : Open w r) (hsame : SameRequest r r') : Steps w cf r r' [] := by
  refine ⟨hr.same hsame, Keeps.same ⟨rfl, rfl, (List.append_nil _).symm, rfl⟩ hsame, ?_⟩
  intro _ hsent
  rw [hsame.sent]
  exact hsent

theorem Steps.same {r r' r'' : Request} {bytes : Bytes} (h : Steps w cf r r' bytes) (hsame : SameRequest r' r'') :
    Steps w cf r r'' bytes := by
  refine ⟨h.opened.same hsame, h.keeps.same hsame, ?_⟩
  intro hrate hsent
  rw [hsame.sent]
  exact h.rate hrate hsent

-- What the sender takes, and the rest that it returns
theorem sender_steps {r : Request} {a : Answer} {limit : Int} (hr : Open w r) (hlimit : chooseLimit cf r = .ok limit)
    (hcount : a.count ≤ (chainBytes w r.out).length) (hle : 0 < limit → a.count ≤ limit)
    (hneg : limit < 0 → a.count = 0) (hrest : chainBytes w a.chain = (chainBytes w r.out).drop a.count)
    (hwritable : Writable w a.chain) : Steps w cf r { r.accept w a with out := a.chain } [] := by
  refine ⟨⟨hr.terminated, hr.error, hwritable⟩, ⟨rfl, rfl, ?_, ?_⟩, ?_⟩
  · show r.socket ++ _ ++ chainBytes w a.chain = _
    rw [hrest, List.append_assoc, List.take_append_drop, List.append_nil]
  · show r.sent + a.count + r.socket.length = r.sent + (r.socket ++ _).length
    rw [List.length_append, List.length_take]
    omega
  · intro hrate hsent
    obtain ⟨hne, hmost⟩ := chooseLimit_spec hrate hsent hlimit
    show ((r.sent + a.count : Nat) : Int) ≤ allowed cf r
    by_cases hpos : 0 < limit
    · have hcount' := hle hpos
      omega
    · have hzero := hneg (by omega)
      omega

theorem output_steps {r : Request} {input : Chain} {sender : Sender} (hr : Open w r) (hsender : SendsPrefix w sender) :
    Steps w cf r (output w cf r input sender).1 [] := by
  unfold output
  dsimp only
  split
  · exact Steps.unsent hr (SameRequest.refl r)
  · split
    · exact Steps.unsent hr ⟨rfl, rfl, rfl, rfl, rfl, rfl, rfl⟩
    · split
      · rename_i hsize
        split
        · -- only specials are dropped
          have hbytes := bytes_of_size_zero (w := w) hsize.1
          refine ⟨⟨hr.terminated, hr.error, Writable.nil⟩, ⟨rfl, rfl, ?_, rfl⟩, fun _ hsent => hsent⟩
          show r.socket ++ chainBytes w [] = _
          rw [hbytes, chainBytes_nil, List.append_nil, List.append_nil]
        · exact Steps.unsent hr (SameRequest.refl r)
      · split
        · exact Steps.unsent hr ⟨rfl, rfl, rfl, rfl, rfl, rfl, rfl⟩
        · rename_i limit hlimit
          obtain ⟨a, ha, hcount, hle, hneg, hrest, hwritable⟩ := hsender r.out limit hr.out
          rw [ha]
          dsimp only
          have hsteps := sender_steps hr hlimit hcount hle hneg hrest hwritable
          have hthrottle := throttle_same cf r.sent limit (r.accept w a)
          exact hsteps.same (hthrottle.settled (settle_same a.chain _))

-- A call links the input and lets it out.
theorem writeFilter_steps {r : Request} {input : Chain} {links : Nat} {sender : Sender} (hr : Open w r)
    (hinput : Writable w input) (hlinks : input.length ≤ links) (hsender : SendsPrefix w sender) :
    ∃ r' code, writeFilter w cf r input links sender = some (r', code) ∧ Steps w cf r r' (chainBytes w input) := by
  have hlinked : Open w (r.link input true) := ⟨rfl, hr.error, hr.out.append hinput⟩
  have hout := @output_steps w cf _ input sender hlinked hsender
  have hcall : writeFilter w cf r input links sender = some (output w cf (r.link input true) input sender) := by
    unfold writeFilter
    rw [hr.error, hr.terminated, hr.out.sized, linkNew_all hinput.sized hlinks]
    rfl
  generalize output w cf (r.link input true) input sender = result at hcall hout
  refine ⟨result.1, result.2, hcall, hout.opened, ⟨hout.keeps.now, hout.keeps.limitRate, ?_, hout.keeps.sent⟩, hout.rate⟩
  have hbytes := hout.keeps.bytes
  rw [hbytes, List.append_nil]
  show r.socket ++ chainBytes w (r.out ++ input) = _
  rw [chainBytes_append, List.append_assoc]

-- A rate that nobody changes, and a clock that does not go back.
def Steady (rate : Nat) : Int → List Event → Prop
  | _, [] => True
  | now, .others o :: events => o.limitRate = rate ∧ now ≤ o.now ∧ Steady rate o.now events
  | now, .call _ _ _ :: events => Steady rate now events

theorem run_steps {r : Request} {events : List Event} (hr : Open w r) (hevents : ∀ e ∈ events, e.Proper w) :
    ∃ r', run w cf r events = some r' ∧ Open w r' ∧
      r'.socket ++ chainBytes w r'.out = r.socket ++ chainBytes w r.out ++ given w events ∧
      r'.sent + r.socket.length = r.sent + r'.socket.length ∧
      ∀ rate, rate ≠ 0 → r.limitRate = rate → Steady rate r.now events → r.sent ≤ allowed cf r →
        r'.limitRate = rate ∧ r'.sent ≤ allowed cf r' := by
  induction events generalizing r with
  | nil => exact ⟨r, rfl, hr, (List.append_nil _).symm, rfl, fun _ _ hlimit _ hsent => ⟨hlimit, hsent⟩⟩
  | cons e events ih =>
      have he := hevents e List.mem_cons_self
      have htail := fun e' he' => hevents e' (List.mem_cons_of_mem e he')
      cases e with
      | others o =>
          obtain ⟨r', hrun, hopen, hbytes, hsent, hrate⟩ := @ih (o.apply r) ⟨hr.terminated, hr.error, hr.out⟩ htail
          refine ⟨r', hrun, hopen, hbytes, hsent, ?_⟩
          intro rate hne hlimit hsteady hle
          obtain ⟨hsame, hclock, hrest⟩ := hsteady
          apply hrate rate hne hsame hrest
          -- later the rate allows more
          have hmono : allowed cf r ≤ allowed cf (o.apply r) := by
            show r.limitRate * (r.now - cf.startSec + 1) + _ ≤ o.limitRate * (o.now - cf.startSec + 1) + _
            rw [hlimit, hsame]
            have hmul := Int.mul_le_mul_of_nonneg_left (show r.now - cf.startSec + 1 ≤ o.now - cf.startSec + 1 by omega)
              (Int.natCast_nonneg rate)
            omega
          exact Int.le_trans hle hmono
      | call input links sender =>
          obtain ⟨hinput, hlinks, hsender⟩ := he
          obtain ⟨r1, code, hcall, hstep⟩ := @writeFilter_steps w cf r input links sender hr hinput hlinks hsender
          obtain ⟨r', hrun, hopen, hbytes, hsent, hrate⟩ := ih hstep.opened htail
          refine ⟨r', ?_, hopen, ?_, ?_, ?_⟩
          · rw [run, hcall]
            exact hrun
          · rw [hbytes, hstep.keeps.bytes, List.append_assoc]
            rfl
          · have hkept := hstep.keeps.sent
            omega
          · intro rate hne hlimit hsteady hle
            have hnow := hstep.keeps.now
            have hlimit' := hstep.keeps.limitRate
            apply hrate rate hne (hlimit'.trans hlimit) (hnow ▸ hsteady)
            have hkeeps := hstep.rate (hlimit ▸ hne) hle
            rw [allowed, hnow, hlimit']
            exact hkeeps

-- From a request that has sent nothing, over any calls: what was sent and what r->out holds is what was given,
-- and a constant rate is kept.
theorem writeFilter_accounts (w : World) (cf : Config) (r : Request) (events : List Event)
    (hr : r.out = [] ∧ r.terminated = true ∧ r.error = false) (hfresh : r.sent = 0 ∧ r.socket = [])
    (hevents : ∀ e ∈ events, e.Proper w) :
    ∃ r', run w cf r events = some r' ∧ r'.socket ++ chainBytes w r'.out = given w events ∧
      r'.sent = r'.socket.length ∧
      ∀ rate, rate ≠ 0 → r.limitRate = rate → Steady rate r.now events → cf.startSec ≤ r.now →
        r'.sent ≤ rate * (r'.now - cf.startSec + 1) + cf.limitRateAfter := by
  have hopen : Open w r := by
    refine ⟨hr.2.1, hr.2.2, ?_⟩
    rw [hr.1]
    exact Writable.nil
  obtain ⟨r', hrun, -, hbytes, hsent, hrate⟩ := @run_steps w cf r events hopen hevents
  rw [hr.1, hfresh.2] at hbytes
  rw [hfresh.1, hfresh.2] at hsent
  refine ⟨r', hrun, hbytes, by simpa using hsent, ?_⟩
  intro rate hne hlimit hsteady hstart
  have hfirst : (r.sent : Int) ≤ allowed cf r := by
    have hmul := Int.mul_nonneg (Int.natCast_nonneg r.limitRate) (show 0 ≤ r.now - cf.startSec + 1 by omega)
    unfold allowed
    omega
  obtain ⟨hsame, hle⟩ := hrate rate hne hlimit hsteady hfirst
  rw [allowed, hsame] at hle
  exact hle

-- Sends all or nothing
def wholeSender (w : World) : Sender := fun out limit =>
  if limit = 0 ∨ (chainBytes w out).length ≤ limit then some ⟨(chainBytes w out).length, [], true⟩
  else some ⟨0, out, true⟩

theorem wholeSender_sends (w : World) : SendsPrefix w (wholeSender w) := by
  intro out limit hout
  unfold wholeSender
  split
  · rename_i hall
    refine ⟨_, rfl, Nat.le_refl _, ?_, ?_, ?_, Writable.nil⟩
    · intro hpos
      exact hall.resolve_left (by omega)
    · intro hneg
      show (chainBytes w out).length = 0
      omega
    · rw [List.drop_length]
      rfl
  · exact ⟨_, rfl, Nat.zero_le _, fun hpos => Int.le_of_lt hpos, fun _ => rfl, rfl, hout⟩

-- Four bytes a second: the second half of the body waits for its second.
theorem writeFilter_accounts_slow :
    ∃ w cf r events r', run w cf r events = some r' ∧ r'.socket = [1, 2, 3, 4, 5, 6] ∧
      r'.socket ++ chainBytes w r'.out = given w events ∧ (r'.sent : Int) ≤ 4 * (r'.now - cf.startSec + 1) := by
  let w : World := ⟨fun a => UInt8.ofNat a, fun _ _ => 0⟩
  let cf : Config := ⟨1460, 0, 0, by decide, 4096, 100⟩
  let r : Request := ⟨[], true, false, false, true, false, false, false, 4, 100, none, 0, []⟩
  let half : Nat → Buf := fun pos => { Buf.empty with pos := pos, last := pos + 3, memory := true, flush := true }
  let events : List Event := [.call [half 1] 9 (wholeSender w), .call [half 4] 9 (wholeSender w),
    .others ⟨false, true, false, false, 4, 101⟩, .call [] 9 (wholeSender w)]
  have hhalf : ∀ pos, Writable w [half pos] := by
    intro pos
    constructor
    · intro b hb
      rw [List.mem_singleton] at hb
      subst hb
      refine ⟨fun _ => Nat.le_add_right pos 3, fun hin => Bool.noConfusion hin, fun hmem => Bool.noConfusion hmem,
        fun _ hin => Bool.noConfusion hin⟩
    · simp [zeroSize, Buf.size, half, Buf.inMemory, Buf.empty]
  have hevents : ∀ e ∈ events, e.Proper w := by
    have hsender := wholeSender_sends w
    simp only [events, List.forall_mem_cons, List.not_mem_nil, false_implies, implies_true, and_true]
    exact ⟨⟨hhalf 1, by decide, hsender⟩, ⟨hhalf 4, by decide, hsender⟩, trivial, Writable.nil, by decide, hsender⟩
  obtain ⟨r', hrun, hbytes, -, hrate⟩ := writeFilter_accounts w cf r events ⟨rfl, rfl, rfl⟩ ⟨rfl, rfl⟩ hevents
  have hsocket : (run w cf r events).map Request.socket = some [1, 2, 3, 4, 5, 6] := by decide
  rw [hrun] at hsocket
  have hle := hrate 4 (by decide) rfl ⟨rfl, by decide, trivial⟩ (by decide)
  have hafter : (cf.limitRateAfter : Int) = 0 := rfl
  rw [hafter, Int.add_zero] at hle
  exact ⟨w, cf, r, events, r', hrun, Option.some.inj hsocket, hbytes, hle⟩

-- A zero size buf ends the call before the bufs after it are linked: the byte of the second one is in neither place.
theorem zero_size_loses :
    ∃ w cf r input r', ChainWf w input ∧ SendsPrefix w (wholeSender w) ∧
      r.out = [] ∧ r.terminated = true ∧ r.error = false ∧ r.sent = 0 ∧ r.socket = [] ∧
      run w cf r [.call input 9 (wholeSender w)] = some r' ∧
      r'.socket ++ chainBytes w r'.out ≠ given w [.call input 9 (wholeSender w)] := by
  let w : World := ⟨fun a => UInt8.ofNat a, fun _ _ => 0⟩
  let cf : Config := ⟨1460, 0, 0, by decide, 4096, 100⟩
  let r : Request := ⟨[], true, false, false, true, false, false, false, 0, 100, none, 0, []⟩
  let empty : Buf := { Buf.empty with pos := 1, last := 1, memory := true }
  let one : Buf := { Buf.empty with pos := 1, last := 2, memory := true }
  have hinput : ChainWf w [empty, one] := by
    intro b hb
    simp only [List.mem_cons, List.not_mem_nil, or_false] at hb
    obtain rfl | rfl := hb <;> constructor <;> decide
  exact ⟨w, cf, r, [empty, one], _, hinput, wholeSender_sends w, rfl, rfl, rfl, rfl, rfl, rfl, by decide⟩

end

end Nginx.WriteFilter
