import Nginx.Core.Bytes
import Nginx.Library.Resumable

namespace Nginx.Imap

inductive State where
  | start
  | spacesBeforeCommand
  | command
  | spacesBeforeArgument
  | argument
  | backslash
  | literal
  | noSyncLiteralArgument
  | startLiteralArgument
  | literalArgument
  | endLiteralArgument
  | almostDone
deriving DecidableEq

inductive Command where
  | login
  | logout
  | capability
  | noop
  | starttls
  | authenticate
deriving DecidableEq

-- An ngx_str_t of s->args. The length is the difference of two pointers.
structure Arg where
  data : Nat
  len : Int
deriving DecidableEq

-- Of s: what the parser uses. A pointer is an address, and 0 is NULL; text is what the buffer holds from start to last.
structure Session where
  start : Nat
  text : Bytes
  pos : Nat
  state : State
  command : Option Command
  tagLen : Nat
  cmdStart : Nat
  argStart : Nat
  argEnd : Nat
  args : List Arg
  quoted : Bool
  backslash : Bool
  noSyncLiteral : Bool
  literalLen : Nat
deriving DecidableEq

def Session.last (s : Session) : Nat := s.start + s.text.length

def byteAt (start : Nat) (text : Bytes) (p : Nat) : UInt8 := text.getD (p - start) 0

-- The session that ngx_mail_init_session allocates zeroed, with an empty buffer.
def fresh (start : Nat) : Session :=
  { start := start, text := [], pos := start, state := .start, command := none, tagLen := 0, cmdStart := 0
    argStart := 0, argEnd := 0, args := [], quoted := false, backslash := false, noSyncLiteral := false
    literalLen := 0 }

-- The label done, the label invalid, and the returns from inside of the loop
inductive Stop where
  | done (s : Session)
  | invalid (s : Session)
  | badLine (s : Session)
  | imapNext (s : Session)
  | error (s : Session)

inductive Rc where
  | ok
  | again
  | imapNext
  | invalidCommand
  | error
deriving DecidableEq

-- (c[0] == 'N' || c[0] == 'n') && (c[1] == 'O' || c[1] == 'o') ...
def spells (upper lower : String) (c : Nat) (buf : Nat → UInt8) : Bool :=
  (List.range upper.length).all fun i =>
    buf (c + i) = (ngxString upper).getD i 0 || buf (c + i) = (ngxString lower).getD i 0

variable (ssl : Bool) (grow : Nat → Bool) (buf : Nat → UInt8)

-- switch (p - c), where ssl is NGX_MAIL_SSL
def commandName (c p : Nat) : Option Command :=
  match p - c with
  | 4 => if spells "NOOP" "noop" c buf then some .noop else none
  | 5 => if spells "LOGIN" "login" c buf then some .login else none
  | 6 => if spells "LOGOUT" "logout" c buf then some .logout else none
  | 8 => if ssl && spells "STARTTLS" "starttls" c buf then some .starttls else none
  | 10 => if spells "CAPABILITY" "capability" c buf then some .capability else none
  | 12 => if spells "AUTHENTICATE" "authenticate" c buf then some .authenticate else none
  | _ => none

-- ngx_array_push: whether it finds the memory for one more element depends on how many there are.
def Session.push (s : Session) (data : Nat) (len : Int) : Option Session :=
  if grow s.args.length then some { s with args := s.args ++ [⟨data, len⟩] } else none

def isDigit (ch : UInt8) : Bool := 48 ≤ ch && ch ≤ 57

def readTag (p : Nat) (s : Session) : Resumable.Turn Session Stop :=
  let ch := buf p
  if ch = 32 then .next { s with tagLen := p - s.start + 1, state := .spacesBeforeCommand }
  else if ch = 13 || ch = 10 then .stop (.badLine { s with state := .start })
  else .next s

def readSpaces (p : Nat) (s : Session) : Resumable.Turn Session Stop :=
  let ch := buf p
  if ch = 32 then .next s
  else if ch = 13 || ch = 10 then .stop (.badLine { s with state := .start })
  else .next { s with cmdStart := p, state := .command }

-- The switch (ch) behind a command name, an atom or an unterminated string
def readEnd (ch : UInt8) (s : Session) : Resumable.Turn Session Stop :=
  if ch = 13 then .next { s with state := .almostDone }
  else if ch = 10 then .stop (.done s)
  else .next { s with state := .spacesBeforeArgument }

def readCommand (p : Nat) (s : Session) : Resumable.Turn Session Stop :=
  let ch := buf p
  if ch = 32 || ch = 13 || ch = 10 then
    match commandName ssl buf s.cmdStart p with
    | some command => readEnd ch { s with command := some command }
    | none => .stop (.invalid s)
  else if (ch < 65 || 90 < ch) && (ch < 97 || 122 < ch) then .stop (.invalid s)
  else .next s

def readArgumentStart (p : Nat) (s : Session) : Resumable.Turn Session Stop :=
  let ch := buf p
  if ch = 32 then .next s
  else if ch = 13 then .next { s with state := .almostDone, argEnd := p }
  else if ch = 10 then .stop (.done { s with argEnd := p })
  else if s.args.length ≤ 2 then
    if ch = 34 then .next { s with quoted := true, argStart := p + 1, state := .argument }
    else if ch = 123 then .next { s with state := .literal }
    else .next { s with argStart := p, state := .argument }
  else .stop (.invalid s)

def readArgument (p : Nat) (s : Session) : Resumable.Turn Session Stop :=
  let ch := buf p
  if ch = 32 && s.quoted then .next s
  else if ch = 34 && s.quoted || ch = 32 || ch = 13 || ch = 10 then
    let s := if ch = 34 then { s with quoted := false } else s
    match s.push grow s.argStart (p - s.argStart) with
    | none => .stop (.error s)
    | some s => readEnd ch { s with argStart := 0 }
  else if ch = 92 && s.quoted then .next { s with backslash := true, state := .backslash }
  else .next s

def readBackslash (p : Nat) (s : Session) : Resumable.Turn Session Stop :=
  let ch := buf p
  if ch = 13 || ch = 10 then .stop (.invalid s) else .next { s with state := .argument }

-- literal_len is an ngx_uint_t.
def readLiteral (p : Nat) (s : Session) : Resumable.Turn Session Stop :=
  let ch := buf p
  if isDigit ch then .next { s with literalLen := (s.literalLen * 10 + (ch.toNat - 48)) % 2 ^ 64 }
  else if ch = 125 then .next { s with state := .startLiteralArgument }
  else if ch = 43 then .next { s with state := .noSyncLiteralArgument }
  else .stop (.invalid s)

def readNoSync (p : Nat) (s : Session) : Resumable.Turn Session Stop :=
  if buf p = 125 then .next { s with noSyncLiteral := true, state := .startLiteralArgument } else .stop (.invalid s)

def readLiteralStart (p : Nat) (s : Session) : Resumable.Turn Session Stop :=
  let ch := buf p
  if ch = 13 then .next s
  else if ch = 10 then
    let s := { s with pos := p + 1, argStart := p + 1 }
    if s.noSyncLiteral then .next { s with state := .literalArgument, noSyncLiteral := false }
    else .stop (.imapNext { s with state := .literalArgument })
  else .stop (.invalid s)

-- if (s->literal_len && --s->literal_len) break;
def readLiteralArgument (p : Nat) (s : Session) : Resumable.Turn Session Stop :=
  let left := s.literalLen - 1
  let s := { s with literalLen := left }
  if left ≠ 0 then .next s
  else
    match s.push grow s.argStart (p + 1 - s.argStart) with
    | none => .stop (.error s)
    | some s => .next { s with argStart := 0, state := .endLiteralArgument }

def readLiteralEnd (p : Nat) (s : Session) : Resumable.Turn Session Stop :=
  let ch := buf p
  if ch = 123 then
    if s.args.length ≤ 2 then .next { s with state := .literal } else .stop (.invalid s)
  else readEnd ch s

def readAlmostDone (p : Nat) (s : Session) : Resumable.Turn Session Stop :=
  if buf p = 10 then .stop (.done s) else .stop (.invalid s)

-- switch (state), with ch = *p
def turn (p : Nat) (s : Session) : Resumable.Turn Session Stop :=
  match s.state with
  | .start => readTag buf p s
  | .spacesBeforeCommand => readSpaces buf p s
  | .command => readCommand ssl buf p s
  | .spacesBeforeArgument => readArgumentStart buf p s
  | .argument => readArgument grow buf p s
  | .backslash => readBackslash buf p s
  | .literal => readLiteral buf p s
  | .noSyncLiteralArgument => readNoSync buf p s
  | .startLiteralArgument => readLiteralStart buf p s
  | .literalArgument => readLiteralArgument grow p s
  | .endLiteralArgument => readLiteralEnd buf p s
  | .almostDone => readAlmostDone buf p s

-- s->state = (s->command != NGX_IMAP_AUTHENTICATE) ? sw_start : sw_argument
def Session.close (s : Session) : Session :=
  { s with state := if s.command ≠ some .authenticate then .start else .argument }

-- The label done
def done (s : Session) : Rc × Session :=
  if s.argStart ≠ 0 then
    match s.push grow s.argStart (s.argEnd - s.argStart) with
    | none => (.error, s)
    | some s =>
      (.ok, { s with argStart := 0, cmdStart := 0, quoted := false, noSyncLiteral := false, literalLen := 0 }.close)
  else (.ok, s.close)

-- The label invalid
def invalid (s : Session) : Session :=
  { s with state := .start, quoted := false, noSyncLiteral := false, literalLen := 0 }

-- A failed ngx_array_push in the loop leaves s->state as it was found.
def answer (_ : Nat) (found : Session) (p : Nat) : Stop → Rc × Nat × Session
  | .done s =>
      let (rc, s) := done grow s
      (rc, p + 1, s)
  | .invalid s => (.invalidCommand, s.pos, invalid s)
  | .badLine s => (.invalidCommand, s.pos, s)
  | .imapNext s => (.imapNext, s.pos, s)
  | .error s => (.error, s.pos, { s with state := found.state })

-- ngx_mail_imap_parse_command
def parseCommand (s : Session) : Rc × Session :=
  let (rc, pos, s) := Resumable.call (turn ssl grow) (answer grow) .again (byteAt s.start s.text) s.pos s.last s
  (rc, { s with pos := pos })

-- What c->recv appends in ngx_mail_read_command
def Session.receive (s : Session) (piece : Bytes) : Session := { s with text := s.text ++ piece }

-- The end of ngx_mail_imap_auth_state where rc is not NGX_IMAP_NEXT. Only a continued AUTHENTICATE has a state.
def Session.release (s : Session) : Session :=
  let s := { s with args := [] }
  if s.state ≠ .start then
    { s with argStart := s.start + s.tagLen, pos := s.start + s.tagLen, text := s.text.take s.tagLen }
  else { s with pos := s.start, text := [], tagLen := 0 }

-- ngx_mail_imap_auth_state behind the parser: rejected tells whether a command that was read is answered
-- with NGX_MAIL_PARSE_INVALID_COMMAND. After NGX_ERROR the connection is closed.
def handled (rc : Rc) (rejected : Bool) (s : Session) : Option Session :=
  match rc with
  | .ok =>
      let s := { s with backslash := false }
      some (if rejected then { s with state := .start }.release else s.release)
  | .again => some s
  | .imapNext => some s
  | .invalidCommand => some { s with state := .start }.release
  | .error => none

end Nginx.Imap
