import Nginx.Core.Bytes

namespace Nginx.MailSend

inductive Close
  | quit
  | timedOut
  | error
  deriving DecidableEq

-- A reply and what the connection took before the next command was read
structure Delivery where
  reply : Bytes
  accepted : Bytes
  deriving DecidableEq

-- s->out is outLen and what its data points to, of which ngx_mail_send moves only the length. What the connection
-- took since the reply was placed, and the deliveries before it, are kept beside the session.
structure Session where
  reply : Bytes
  outLen : ℕ
  blocked : Bool
  quit : Bool
  closed : Option Close
  accepted : Bytes
  deliveries : List Delivery
  deriving DecidableEq

-- What c->send does: it takes at least one byte and at most what it is given, or NGX_AGAIN, or NGX_ERROR.
inductive Sent
  | bytes (more : ℕ)
  | again
  | error
  deriving DecidableEq

-- What ngx_mail_read_command and the command's handler do: no whole command yet, the connection is closed,
-- or the next reply is placed in s->out.
inductive Command
  | again
  | closed
  | reply (text : Bytes) (quit : Bool)
  deriving DecidableEq

-- ngx_mail_send; the flag says that the read handler is called.
def mailSend (s : Session) (timedout : Bool) (sent : Sent) : Session × Bool :=
  if timedout then ({ s with closed := some .timedOut }, false)
  else if s.outLen = 0 then (s, false)
  else
    match sent with
    | .bytes more =>
        let n := min (more + 1) s.outLen
        let s := { s with outLen := s.outLen - n, accepted := s.accepted ++ s.reply.take n }
        if s.quit then ({ s with closed := some .quit }, false) else (s, s.blocked)
    | .again => (s, false)
    | .error => ({ s with closed := some .error }, false)

-- A reply is placed in s->out.
def place (s : Session) (text : Bytes) (quit : Bool) : Session :=
  { s with
    reply := text
    outLen := text.length
    quit := s.quit || quit
    accepted := []
    deliveries := s.deliveries ++ [⟨s.reply, s.accepted⟩] }

-- ngx_mail_smtp_auth_state and ngx_mail_pop3_auth_state
def authState (s : Session) (timedout : Bool) (command : Command) (sent : Sent) : Session :=
  if timedout then { s with closed := some .timedOut }
  else if s.outLen ≠ 0 then { s with blocked := true }
  else
    let s := { s with blocked := false }
    match command with
    | .again => s
    | .closed => { s with closed := some .error }
    | .reply text quit => (mailSend (place s text quit) false sent).1

-- An event, with the answers that its handlers get
inductive Event
  | write (timedout : Bool) (sent : Sent) (command : Command) (next : Sent)
  | read (timedout : Bool) (command : Command) (sent : Sent)

def step (s : Session) (event : Event) : Session :=
  if s.closed ≠ none then s
  else
    match event with
    | .write timedout sent command next =>
        let (s, handler) := mailSend s timedout sent
        if handler then authState s false command next else s
    | .read timedout command sent => authState s timedout command sent

-- The first reply is the greeting.
def run (greeting : Bytes) (events : List Event) : Session :=
  events.foldl step ⟨greeting, greeting.length, false, false, none, [], []⟩

structure Whole (s : Session) : Prop where
  ordered : s.accepted <+: s.reply
  deliveries : ∀ d ∈ s.deliveries, d.accepted = d.reply
  quit : s.closed = some .quit → s.accepted = s.reply

-- The connection takes all that it is given, or nothing.
def Takes (len : ℕ) : Sent → Prop
  | .bytes more => len ≤ more + 1
  | .again => True
  | .error => True

def TakesReply (sent : Sent) : Command → Prop
  | .reply text _ => Takes text.length sent
  | .again => True
  | .closed => True

def FullStep (s : Session) : Event → Prop
  | .write _ sent command next => Takes s.outLen sent ∧ TakesReply next command
  | .read _ command sent => TakesReply sent command

inductive FullRun (greeting : Bytes) : Session → Prop
  | start : FullRun greeting (run greeting [])
  | step {s : Session} (event : Event) : FullRun greeting s → FullStep s event → FullRun greeting (step s event)

-- Nothing of the reply is accepted, or all of it.
structure Inv (s : Session) : Prop where
  out : s.outLen = s.reply.length ∧ s.accepted = [] ∨ s.outLen = 0 ∧ s.accepted = s.reply
  deliveries : ∀ d ∈ s.deliveries, d.accepted = d.reply
  quit : s.closed = some .quit → s.accepted = s.reply

variable {s : Session} {sent next : Sent} {command : Command} {greeting : Bytes}

theorem Inv.whole (h : Inv s) : Whole s where
  ordered := by
    rcases h.out with ⟨-, haccepted⟩ | ⟨-, haccepted⟩
    · exact haccepted ▸ List.nil_prefix
    · exact haccepted ▸ List.prefix_rfl
  deliveries := h.deliveries
  quit := h.quit

theorem Inv.accepted (h : Inv s) (hout : s.outLen = 0) : s.accepted = s.reply := by
  rcases h.out with ⟨hlength, haccepted⟩ | ⟨-, haccepted⟩
  · rw [haccepted, List.eq_nil_of_length_eq_zero (hlength.symm.trans hout)]
  · exact haccepted

theorem inv_mailSend (h : Inv s) (timedout : Bool) (hfull : Takes s.outLen sent) (hopen : s.closed = none) :
    Inv (mailSend s timedout sent).1 ∧ ((mailSend s timedout sent).2 = true → (mailSend s timedout sent).1.closed = none) := by
  unfold mailSend
  by_cases htime : timedout
  · rw [if_pos htime]
    exact ⟨⟨h.out, h.deliveries, by simp⟩, by simp⟩
  · rw [if_neg htime]
    by_cases hout : s.outLen = 0
    · rw [if_pos hout]
      exact ⟨h, by simp⟩
    · rw [if_neg hout]
      cases sent with
      | again => exact ⟨h, by simp⟩
      | error => exact ⟨⟨h.out, h.deliveries, by simp⟩, by simp⟩
      | bytes more =>
          have hall : min (more + 1) s.outLen = s.outLen := Nat.min_eq_right hfull
          obtain ⟨hlength, haccepted⟩ : s.outLen = s.reply.length ∧ s.accepted = [] := by
            rcases h.out with hnone | ⟨hzero, -⟩
            · exact hnone
            · exact (hout hzero).elim
          have hreply : s.accepted ++ s.reply.take s.outLen = s.reply := by
            rw [haccepted, hlength, List.take_length, List.nil_append]
          dsimp only
          rw [hall, hreply, Nat.sub_self]
          by_cases hquit : s.quit
          · rw [if_pos hquit]
            exact ⟨⟨.inr ⟨rfl, rfl⟩, h.deliveries, fun _ => rfl⟩, by simp⟩
          · rw [if_neg hquit]
            exact ⟨⟨.inr ⟨rfl, rfl⟩, h.deliveries, fun _ => rfl⟩, fun _ => hopen⟩

theorem inv_place (h : Inv s) (hout : s.outLen = 0) (hopen : s.closed = none) (text : Bytes) (quit : Bool) :
    Inv (place s text quit) where
  out := .inl ⟨rfl, rfl⟩
  deliveries := by
    intro d hd
    rcases List.mem_append.mp hd with hd | hd
    · exact h.deliveries d hd
    · cases List.mem_singleton.mp hd
      exact h.accepted hout
  quit := fun hquit => by
    rw [show (place s text quit).closed = s.closed from rfl, hopen] at hquit
    cases hquit

theorem inv_authState (h : Inv s) (hopen : s.closed = none) (timedout : Bool) (hfull : TakesReply sent command) :
    Inv (authState s timedout command sent) := by
  rw [authState]
  by_cases htime : timedout
  · rw [if_pos htime]
    exact ⟨h.out, h.deliveries, by simp⟩
  · rw [if_neg htime]
    by_cases hout : s.outLen ≠ 0
    · rw [if_pos hout]
      exact ⟨h.out, h.deliveries, h.quit⟩
    · rw [if_neg hout]
      have hunblocked : Inv { s with blocked := false } := ⟨h.out, h.deliveries, h.quit⟩
      cases command with
      | again => exact hunblocked
      | closed => exact ⟨h.out, h.deliveries, by simp⟩
      | reply text quit =>
          have hplaced := inv_place hunblocked (not_not.mp hout) hopen text quit
          exact (inv_mailSend hplaced false hfull hopen).1

theorem inv_step (h : Inv s) (event : Event) (hfull : FullStep s event) : Inv (step s event) := by
  unfold step
  by_cases hclosed : s.closed ≠ none
  · rw [if_pos hclosed]
    exact h
  · rw [if_neg hclosed]
    have hopen : s.closed = none := not_not.mp hclosed
    cases event with
    | read timedout command sent => exact inv_authState h hopen timedout hfull
    | write timedout sent command next =>
        obtain ⟨hsent, hopen'⟩ := inv_mailSend h timedout hfull.1 hopen
        dsimp only
        by_cases hhandler : (mailSend s timedout sent).2
        · rw [if_pos hhandler]
          exact inv_authState hsent (hopen' hhandler) false hfull.2
        · rw [if_neg hhandler]
          exact hsent

def pop3Ok : Bytes := ngxString "+OK\r\n"

-- The greeting is sent at the second try, and QUIT is answered.
def quietEvents : List Event :=
  [.write false .again .again .again, .write false (.bytes 4) .again .again, .read false (.reply pop3Ok true) (.bytes 4)]

theorem quiet_run : FullRun pop3Ok (run pop3Ok quietEvents) := by
  have hlength : pop3Ok.length = 5 := by decide
  have hwait : FullRun pop3Ok (step (run pop3Ok []) (.write false .again .again .again)) :=
    .step _ .start ⟨trivial, trivial⟩
  have hsent := hwait.step (.write false (.bytes 4) .again .again) ⟨(Nat.le_of_eq hlength), trivial⟩
  exact hsent.step (.read false (.reply pop3Ok true) (.bytes 4)) (Nat.le_of_eq hlength)

-- Two bytes and then three of the five are accepted before the next command is read.
def shortRun : Session :=
  run pop3Ok [.write false (.bytes 1) .again .again, .write false (.bytes 2) .again .again,
    .read false (.reply pop3Ok false) .again]

-- Two bytes of the answer to QUIT are accepted.
def cutQuit : Session :=
  run pop3Ok [.write false (.bytes 4) .again .again, .read false (.reply pop3Ok true) (.bytes 1)]

end Nginx.MailSend
