import Nginx.Core.Bytes

namespace Nginx.Lingering

-- time_t, in seconds
structure Time where
  val : Int
  lower : -2 ^ 63 ≤ val
  upper : val < 2 ^ 63

def Time.ofInt (n : Int) : Time where
  val := toInt64 n
  lower := by
    unfold toInt64
    rw [Int.bmod_def]
    split <;> omega
  upper := by
    unfold toInt64
    rw [Int.bmod_def]
    split <;> omega

-- clcf->lingering_time and clcf->lingering_timeout, in milliseconds
structure Conf where
  lingeringTime : Nat
  lingeringTimeout : Nat

inductive ReadHandler where
  | discardedRequestBody
  | blockReading
deriving DecidableEq

-- timedout and error are those of c.
structure Request where
  lingeringTime : Time
  discardBody : Bool
  lingeringClose : Bool
  contentLengthN : Nat
  readEventHandler : ReadHandler
  timedout : Bool
  error : Bool

-- c->recv: NGX_ERROR, NGX_AGAIN, the end of the stream, or the number of bytes less one that are there
inductive Recv where
  | error
  | again
  | closed
  | bytes (n : Nat)

-- One call of the handler: ngx_time(), rev->timedout, what c->recv returns as long as rev->ready is set, and whether
-- ngx_handle_read_event returns NGX_OK
structure Call where
  now : Time
  timedout : Bool
  recvs : List Recv
  eventOk : Bool

inductive Rc where
  | error
  | done
deriving DecidableEq

-- How often c->recv is called, the rc of ngx_http_finalize_request, and the timer that is armed
structure Outcome where
  request : Request
  recvs : Nat
  finalized : Option Rc
  timer : Option Nat

def discardBufferSize : Nat := 4096

-- ngx_http_read_discarded_request_body: true is NGX_OK, false is NGX_AGAIN.
def readDiscardedRequestBody : List Recv → Request → Bool × Request × Nat
  | [], r => if r.contentLengthN = 0 then (true, { r with readEventHandler := .blockReading }, 0) else (false, r, 0)
  | recv :: recvs, r =>
    if r.contentLengthN = 0 then (true, { r with readEventHandler := .blockReading }, 0)
    else
      match recv with
      | .error => (true, { r with error := true }, 1)
      | .again => (false, r, 1)
      | .closed => (true, r, 1)
      | .bytes n =>
        let size := min r.contentLengthN discardBufferSize
        let out := readDiscardedRequestBody recvs { r with contentLengthN := r.contentLengthN - min (n + 1) size }
        (out.1, out.2.1, out.2.2 + 1)

def Request.finalizing (r : Request) : Request := { r with discardBody := false, lingeringClose := false }

-- ngx_http_discarded_request_body_handler
def discardedRequestBodyHandler (conf : Conf) (r : Request) (call : Call) : Outcome :=
  if call.timedout then ⟨{ r with timedout := true, error := true }, 0, some .error, none⟩
  else
    let timer := if r.lingeringTime.val ≠ 0 then toSize (r.lingeringTime.val - call.now.val) else 0
    if r.lingeringTime.val ≠ 0 ∧ timer ≤ 0 then ⟨r.finalizing, 0, some .error, none⟩
    else
      let (ok, r, recvs) := readDiscardedRequestBody call.recvs r
      if ok then ⟨r.finalizing, recvs, some .done, none⟩
      else if call.eventOk then
        if timer ≠ 0 then
          let timer := toSize (timer * 1000)
          ⟨r, recvs, none, some (if conf.lingeringTimeout < timer then conf.lingeringTimeout else timer)⟩
        else ⟨r, recvs, none, none⟩
      else ⟨{ r with error := true }, recvs, some .error, none⟩

-- ngx_http_finalize_connection with r->main->count != 1, up to ngx_http_close_request
def finalizeConnection (conf : Conf) (r : Request) (now : Time) : Outcome :=
  if r.discardBody then
    let lingeringTime :=
      if r.lingeringTime.val = 0 then Time.ofInt (now.val + toInt64 (conf.lingeringTime / 1000)) else r.lingeringTime
    ⟨{ r with readEventHandler := .discardedRequestBody, lingeringTime := lingeringTime }, 0, none,
      some conf.lingeringTimeout⟩
  else ⟨r, 0, none, none⟩

inductive Event where
  | finalizeConnection (now : Time)
  | read (call : Call)

structure Step where
  request : Request
  event : Event
  outcome : Outcome

def outcomeOf (conf : Conf) (r : Request) : Event → Outcome
  | .finalizeConnection now => finalizeConnection conf r now
  | .read call => discardedRequestBodyHandler conf r call

-- The steps until the request is finalized
def run (conf : Conf) : Request → List Event → List Step
  | _, [] => []
  | r, event :: events =>
    let outcome := outcomeOf conf r event
    ⟨r, event, outcome⟩ :: if outcome.finalized.isSome then [] else run conf outcome.request events

-- A call of the handler at or after the limit that is set
def Step.late (s : Step) : Bool :=
  match s.event with
  | .finalizeConnection _ => false
  | .read call => s.request.lingeringTime.val ≠ 0 && s.request.lingeringTime.val ≤ call.now.val

-- What every run should do
structure Limited (conf : Conf) (steps : List Step) : Prop where
  first : ∀ s, steps.find? Step.late = some s → s.outcome.finalized.isSome = true ∧ s.outcome.recvs = 0
  timers : ∀ s ∈ steps, ∀ call timer, s.event = .read call → s.request.lingeringTime.val ≠ 0 →
    s.outcome.timer = some timer →
    (timer : Int) ≤ min (conf.lingeringTimeout : Int) (1000 * (s.request.lingeringTime.val - call.now.val))

-- The clock does not move past the limit between two calls, unless the late one ends by itself.
def OnTime (steps : List Step) : Prop :=
  ∀ s call, steps.find? Step.late = some s → s.event = .read call →
    call.now.val = s.request.lingeringTime.val ∨ call.timedout = true ∨ call.recvs = [] ∧ call.eventOk = false

section Handler

variable {conf : Conf} {r : Request} {call : Call} {recvs : List Recv}

theorem readDiscarded_spec (recvs : List Recv) (r : Request) :
    let out := readDiscardedRequestBody recvs r
    (out.2.2 = 0 ↔ r.contentLengthN = 0 ∨ recvs = []) ∧ (recvs = [] → 0 < r.contentLengthN → out.1 = false) ∧
      (out.1 = false → 0 < out.2.1.contentLengthN) := by
  induction recvs generalizing r with
  | nil =>
      dsimp only
      unfold readDiscardedRequestBody
      split
      · rename_i hzero
        exact ⟨iff_of_true rfl (.inl hzero), fun _ hpos => by omega, nofun⟩
      · rename_i hzero
        exact ⟨iff_of_true rfl (.inr rfl), fun _ _ => rfl, fun _ => Nat.pos_of_ne_zero hzero⟩
  | cons recv recvs ih =>
      dsimp only
      unfold readDiscardedRequestBody
      split
      · rename_i hzero
        exact ⟨iff_of_true rfl (.inl hzero), nofun, nofun⟩
      · rename_i hzero
        have hread : ∀ n : Nat, n + 1 = 0 ↔ r.contentLengthN = 0 ∨ recv :: recvs = [] :=
          fun n => iff_of_false (Nat.succ_ne_zero n) (by simp [hzero])
        cases recv with
        | error => exact ⟨hread 0, nofun, nofun⟩
        | again => exact ⟨hread 0, nofun, fun _ => Nat.pos_of_ne_zero hzero⟩
        | closed => exact ⟨hread 0, nofun, nofun⟩
        | bytes n =>
            obtain ⟨-, -, hleft⟩ := ih { r with contentLengthN := r.contentLengthN - min (n + 1) (min r.contentLengthN discardBufferSize) }
            exact ⟨hread _, nofun, hleft⟩

-- The remaining time is a difference of two words: it is 0 only when it is over in this second.
theorem timer_eq_zero_iff (a b : Time) : toSize (a.val - b.val) = 0 ↔ b.val = a.val := by
  have ha := a.lower
  have ha' := a.upper
  have hb := b.lower
  have hb' := b.upper
  unfold toSize
  omega

theorem timer_of_lt {a b : Time} (hlt : b.val < a.val) : (toSize (a.val - b.val) : Int) = a.val - b.val := by
  have ha' := a.upper
  have hb := b.lower
  unfold toSize
  omega

theorem handler_late (conf : Conf) (call : Call) (hset : r.lingeringTime.val ≠ 0) (hleft : 0 < r.contentLengthN) :
    let out := discardedRequestBodyHandler conf r call
    (out.finalized.isSome = true ∧ out.recvs = 0) ↔
      call.now.val = r.lingeringTime.val ∨ call.timedout = true ∨ call.recvs = [] ∧ call.eventOk = false := by
  dsimp only
  rw [discardedRequestBodyHandler]
  by_cases htimedout : call.timedout = true
  · rw [if_pos htimedout]
    exact iff_of_true ⟨rfl, rfl⟩ (.inr (.inl htimedout))
  · rw [if_neg htimedout, if_pos hset]
    dsimp only
    by_cases hover : call.now.val = r.lingeringTime.val
    · rw [if_pos ⟨hset, Nat.le_of_eq ((timer_eq_zero_iff _ _).mpr hover)⟩]
      exact iff_of_true ⟨rfl, rfl⟩ (.inl hover)
    · have htimer : toSize (r.lingeringTime.val - call.now.val) ≠ 0 := fun h => hover ((timer_eq_zero_iff _ _).mp h)
      rw [if_neg (fun h => htimer (Nat.le_zero.mp h.2))]
      obtain ⟨hreads, hnothing, -⟩ := readDiscarded_spec call.recvs r
      generalize readDiscardedRequestBody call.recvs r = out at hreads hnothing ⊢
      obtain ⟨ok, r', recvs⟩ := out
      dsimp only at hreads hnothing ⊢
      have hempty : recvs = 0 ↔ call.recvs = [] := hreads.trans (or_iff_right (Nat.ne_of_gt hleft))
      cases ok with
      | true =>
          have hsome : call.recvs ≠ [] := fun h => absurd (hnothing h hleft) nofun
          rw [if_pos rfl]
          exact iff_of_false (fun h => hsome (hempty.mp h.2)) (by simp [hover, htimedout, hsome])
      | false =>
          rw [if_neg Bool.false_ne_true]
          cases hevent : call.eventOk with
          | true =>
              rw [if_pos rfl, if_pos htimer]
              exact iff_of_false (fun h => absurd h.1 Bool.false_ne_true) (by simp [hover, htimedout])
          | false =>
              rw [if_neg Bool.false_ne_true]
              simp [hover, htimedout, hempty]

-- A call ends the request, or arms the timer that the remaining time gives.
theorem handler_cases (conf : Conf) (r : Request) (call : Call) :
    let out := discardedRequestBodyHandler conf r call
    out.finalized.isSome = true ∧ out.timer = none ∨
      out.finalized = none ∧ 0 < out.request.contentLengthN ∧
        ∀ timer, out.timer = some timer →
          timer = min conf.lingeringTimeout (toSize (toSize (r.lingeringTime.val - call.now.val) * 1000)) := by
  dsimp only
  rw [discardedRequestBodyHandler]
  by_cases htimedout : call.timedout = true
  · rw [if_pos htimedout]
    exact .inl ⟨rfl, rfl⟩
  · rw [if_neg htimedout]
    dsimp only
    generalize htimer : (if r.lingeringTime.val ≠ 0 then toSize (r.lingeringTime.val - call.now.val) else 0) = timer
    by_cases hover : r.lingeringTime.val ≠ 0 ∧ timer ≤ 0
    · rw [if_pos hover]
      exact .inl ⟨rfl, rfl⟩
    · obtain ⟨-, -, hleft⟩ := readDiscarded_spec call.recvs r
      rw [if_neg hover]
      generalize readDiscardedRequestBody call.recvs r = out at hleft ⊢
      obtain ⟨ok, r', recvs⟩ := out
      dsimp only at hleft ⊢
      cases ok with
      | true => exact .inl ⟨rfl, rfl⟩
      | false =>
          cases call.eventOk with
          | false => exact .inl ⟨rfl, rfl⟩
          | true =>
              have hopen := hleft rfl
              by_cases hzero : timer ≠ 0
              · have hset : r.lingeringTime.val ≠ 0 := fun h => hzero (htimer ▸ if_neg (not_not.mpr h))
                rw [if_pos hset] at htimer
                rw [if_neg Bool.false_ne_true, if_pos rfl, if_pos hzero, htimer]
                refine .inr ⟨rfl, hopen, fun t ht => ?_⟩
                rw [← Option.some.inj ht, Nat.min_def]
                split <;> split <;> omega
              · rw [if_neg Bool.false_ne_true, if_pos rfl, if_neg hzero]
                exact .inr ⟨rfl, hopen, nofun⟩

-- Before the limit the product may wrap, but only downwards.
theorem handler_timer (conf : Conf) (hearly : call.now.val < r.lingeringTime.val) {timer : Nat}
    (h : (discardedRequestBodyHandler conf r call).timer = some timer) :
    (timer : Int) ≤ min (conf.lingeringTimeout : Int) (1000 * (r.lingeringTime.val - call.now.val)) := by
  obtain ⟨-, hnone⟩ | ⟨-, -, htimer⟩ := handler_cases conf r call
  · rw [hnone] at h
    cases h
  · have hremaining := timer_of_lt hearly
    rw [htimer timer h]
    generalize toSize (r.lingeringTime.val - call.now.val) = remaining at hremaining
    have hproduct : (toSize (remaining * 1000) : Int) ≤ 1000 * remaining := by
      unfold toSize
      omega
    omega

end Handler

section Run

variable {conf : Conf} {r : Request}

theorem outcome_cases (conf : Conf) (r : Request) (event : Event) (hleft : 0 < r.contentLengthN) :
    let out := outcomeOf conf r event
    out.finalized.isSome = true ∧ out.timer = none ∨ out.finalized = none ∧ 0 < out.request.contentLengthN := by
  cases event with
  | read call => exact (handler_cases conf r call).imp_right fun h => ⟨h.1, h.2.1⟩
  | finalizeConnection now =>
      refine .inr ?_
      rw [outcomeOf, finalizeConnection]
      split
      · exact ⟨rfl, hleft⟩
      · exact ⟨rfl, hleft⟩

-- The timer of a call that is not late
theorem timer_early {event : Event} (hearly : ¬Step.late ⟨r, event, outcomeOf conf r event⟩ = true) {call : Call}
    {timer : Nat} (hevent : event = .read call) (hset : r.lingeringTime.val ≠ 0)
    (htimer : (outcomeOf conf r event).timer = some timer) :
    (timer : Int) ≤ min (conf.lingeringTimeout : Int) (1000 * (r.lingeringTime.val - call.now.val)) := by
  subst hevent
  refine handler_timer conf ?_ htimer
  by_contra hle
  exact hearly (by simpa [Step.late, hset] using Int.not_lt.mp hle)

theorem late_event {s : Step} (hlate : s.late = true) :
    ∃ call, s.event = .read call ∧ s.request.lingeringTime.val ≠ 0 := by
  unfold Step.late at hlate
  cases hevent : s.event with
  | finalizeConnection now =>
      rw [hevent] at hlate
      cases hlate
  | read call =>
      rw [hevent] at hlate
      exact ⟨call, rfl, by simpa using (Bool.and_eq_true_iff.mp hlate).1⟩

-- A step that is not late leaves the law to the steps behind it.
theorem limited_cons {s : Step} {steps : List Step} (hearly : ¬s.late = true)
    (htimer : ∀ call timer, s.event = .read call → s.request.lingeringTime.val ≠ 0 → s.outcome.timer = some timer →
      (timer : Int) ≤ min (conf.lingeringTimeout : Int) (1000 * (s.request.lingeringTime.val - call.now.val))) :
    Limited conf (s :: steps) ↔ Limited conf steps := by
  constructor
  · rintro ⟨hfirst, htimers⟩
    rw [List.find?_cons_of_neg hearly] at hfirst
    exact ⟨hfirst, (List.forall_mem_cons.mp htimers).2⟩
  · rintro ⟨hfirst, htimers⟩
    refine ⟨?_, List.forall_mem_cons.mpr ⟨htimer, htimers⟩⟩
    rw [List.find?_cons_of_neg hearly]
    exact hfirst

-- The first call that is late ends the request exactly when it is made in the second of the limit, for a timeout, or
-- with nothing to read and an event that fails. The clock may have moved past that second before.
theorem run_limited_iff (conf : Conf) (r : Request) (events : List Event) (hleft : 0 < r.contentLengthN) :
    Limited conf (run conf r events) ↔ OnTime (run conf r events) := by
  induction events generalizing r with
  | nil =>
      refine iff_of_true ⟨fun s hs => ?_, List.forall_mem_nil _⟩ fun s call hs => ?_
      · cases hs
      · cases hs
  | cons event events ih =>
      have hcases := outcome_cases conf r event hleft
      rw [run]
      by_cases hlate : Step.late ⟨r, event, outcomeOf conf r event⟩ = true
      · obtain ⟨call, hevent, hset⟩ := late_event hlate
        subst hevent
        have hends := handler_late conf call hset hleft
        constructor
        · intro hlimited s call' hfind hread
          rw [List.find?_cons_of_pos hlate] at hfind
          obtain rfl := Option.some.inj hfind
          obtain rfl : call = call' := Event.read.inj hread
          exact hends.mp (hlimited.first _ (List.find?_cons_of_pos hlate))
        · intro hontime
          have hout := hends.mpr (hontime _ call (List.find?_cons_of_pos hlate) rfl)
          have hdone : (outcomeOf conf r (.read call)).finalized.isSome = true := hout.1
          rw [if_pos hdone]
          refine ⟨fun s hfind => ?_, List.forall_mem_singleton.mpr fun call' timer _ _ htimer => ?_⟩
          · rw [List.find?_cons_of_pos hlate] at hfind
            exact Option.some.inj hfind ▸ hout
          · obtain ⟨-, hnone⟩ | ⟨hopen, -⟩ := hcases
            · rw [hnone] at htimer
              cases htimer
            · rw [hopen] at hdone
              cases hdone
      · rw [limited_cons hlate fun call timer hevent hset htimer => timer_early hlate hevent hset htimer]
        unfold OnTime
        rw [List.find?_cons_of_neg hlate]
        obtain ⟨hdone, -⟩ | ⟨hopen, hleft⟩ := hcases
        · rw [if_pos hdone]
          refine iff_of_true ⟨fun s hs => ?_, List.forall_mem_nil _⟩ fun s call hs => ?_
          · cases hs
          · cases hs
        · rw [if_neg (by rw [hopen]; decide)]
          exact ih _ hleft

def discarding : Request where
  lingeringTime := Time.ofInt 0
  discardBody := true
  lingeringClose := false
  contentLengthN := 100000
  readEventHandler := .discardedRequestBody
  timedout := false
  error := false

def defaults : Conf := ⟨30000, 5000⟩

-- The limit is 130, and the clock is then seen to be there.
theorem run_limited_iff_exact :
    let events := [.finalizeConnection (Time.ofInt 100), .read ⟨Time.ofInt 127, false, [.bytes 99], true⟩,
      .read ⟨Time.ofInt 130, false, [.bytes 99], true⟩]
    ((run defaults discarding events).map fun s => (s.outcome.recvs, s.outcome.timer)) =
        [(0, some 5000), (1, some 3000), (0, none)] ∧
      Limited defaults (run defaults discarding events) := by
  intro events
  refine ⟨by decide, (run_limited_iff defaults discarding events (by decide)).mpr fun s call hfind hread => .inl ?_⟩
  have hlast : (run defaults discarding events)[2]? = some s := hfind
  obtain rfl := Option.some.inj hlast
  obtain rfl := Event.read.inj hread
  decide

-- The limit is 130, and the clock is then seen to be past it.
theorem past_limit_reads :
    let events := [.finalizeConnection (Time.ofInt 100), .read ⟨Time.ofInt 131, false, [.bytes 99], true⟩]
    ((run defaults discarding events).map fun s => (s.outcome.recvs, s.outcome.timer)) = [(0, some 5000), (1, some 5000)] ∧
      ¬Limited defaults (run defaults discarding events) := by
  intro events
  refine ⟨by decide, fun hlimited => ?_⟩
  have hread := (hlimited.first _ rfl).2
  exact absurd hread (by decide)

end Run

end Nginx.Lingering
