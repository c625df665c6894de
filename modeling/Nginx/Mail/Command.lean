import Nginx.Core.Bytes
import Nginx.Library.Resumable

namespace Nginx.MailCommand

open Resumable

inductive State
  | start
  | spacesBeforeArgument
  | argument
  | almostDone
  deriving DecidableEq

-- An ngx_str_t of s->args: an address in the buffer, and the difference of two addresses
structure Arg where
  data : Option Nat
  len : Int
  deriving DecidableEq

-- What the two parsers have of their own: the table of commands, the commands whose argument takes in spaces,
-- and how many arguments there may be before one more begins
structure Protocol (C : Type) where
  command : Bytes → Option C
  spaced : C → Bool
  most : Nat
  auth : C
  auth_spaced : spaced auth = false

inductive Pop3
  | user
  | pass
  | capa
  | quit
  | noop
  | stls
  | apop
  | auth
  deriving DecidableEq

inductive Smtp
  | helo
  | ehlo
  | auth
  | quit
  | noop
  | mail
  | rset
  | rcpt
  | vrfy
  | expn
  | help
  | starttls
  deriving DecidableEq

def toupper (c : UInt8) : UInt8 := if 97 ≤ c ∧ c ≤ 122 then c &&& ~~~0x20 else c

def pop3Commands (ssl : Bool) : List (String × Pop3) :=
  [("USER", .user), ("PASS", .pass), ("APOP", .apop), ("QUIT", .quit), ("CAPA", .capa), ("AUTH", .auth), ("NOOP", .noop)] ++
    if ssl then [("STLS", .stls)] else []

def smtpCommands : List (String × Smtp) :=
  [("HELO", .helo), ("EHLO", .ehlo), ("QUIT", .quit), ("AUTH", .auth), ("NOOP", .noop), ("MAIL", .mail), ("RSET", .rset),
    ("RCPT", .rcpt), ("VRFY", .vrfy), ("EXPN", .expn), ("HELP", .help)]

-- The chain of comparisons
def lookup {C : Type} (commands : List (String × C)) (word : Bytes) : Option C :=
  (commands.find? fun c => ngxString c.1 = word.map toupper).map (·.2)

-- ngx_mail_pop3_parse_command, where ssl is NGX_MAIL_SSL
def pop3 (ssl : Bool) : Protocol Pop3 where
  command := fun word => if word.length = 4 then lookup (pop3Commands ssl) word else none
  spaced := fun c => c = .user ∨ c = .pass
  most := 2
  auth := .auth
  auth_spaced := by decide

-- ngx_mail_smtp_parse_command
def smtp (ssl : Bool) : Protocol Smtp where
  command := fun word =>
    if word.length = 4 then lookup smtpCommands word
    else if ssl ∧ word.length = 8 then lookup [("STARTTLS", .starttls)] word
    else none
  spaced := fun _ => false
  most := 10
  auth := .auth
  auth_spaced := rfl

-- Of s: what the parser keeps from one read to the next. A pointer is an offset in the buffer, or none for NULL.
structure Parse (C : Type) where
  state : State
  command : Option C
  argStart : Option Nat
  argEnd : Nat
  args : List Arg
  deriving DecidableEq

-- The labels done and invalid
inductive Stop (C : Type)
  | done (s : Parse C)
  | invalid (s : Parse C)

inductive Rc
  | ok
  | again
  | invalidCommand
  deriving DecidableEq

def letter (ch : UInt8) : Bool := 65 ≤ ch ∧ ch ≤ 90 ∨ 97 ≤ ch ∧ ch ≤ 122

section

variable {C : Type} (P : Protocol C) (buf : Nat → UInt8)

-- The switch (ch) behind a command or an argument, where ch is a space, a CR or an LF
def behind (ch : UInt8) (s : Parse C) : Turn (Parse C) (Stop C) :=
  if ch = 32 then .next { s with state := .spacesBeforeArgument }
  else if ch = 13 then .next { s with state := .almostDone }
  else .stop (.done s)

def readStart (p : Nat) (s : Parse C) : Turn (Parse C) (Stop C) :=
  let ch := buf p
  if ch = 32 ∨ ch = 13 ∨ ch = 10 then
    match P.command ((List.range p).map buf) with
    | some command => behind ch { s with command := some command }
    | none => .stop (.invalid s)
  else if letter ch then .next s
  else .stop (.invalid s)

def readSpaces (p : Nat) (s : Parse C) : Turn (Parse C) (Stop C) :=
  let ch := buf p
  if ch = 32 then .next s
  else if ch = 13 then .next { s with state := .almostDone, argEnd := p }
  else if ch = 10 then .stop (.done { s with argEnd := p })
  else if s.args.length ≤ P.most then .next { s with state := .argument, argStart := some p }
  else .stop (.invalid s)

def Parse.spaced (s : Parse C) : Bool :=
  match s.command with
  | some command => P.spaced command
  | none => false

def readArgument (p : Nat) (s : Parse C) : Turn (Parse C) (Stop C) :=
  let ch := buf p
  if ch = 32 ∧ s.spaced P then .next s
  else if ch = 32 ∨ ch = 13 ∨ ch = 10 then
    behind ch { s with args := s.args ++ [Arg.mk s.argStart (p - s.argStart.getD 0)], argStart := none }
  else .next s

def readAlmostDone (p : Nat) (s : Parse C) : Turn (Parse C) (Stop C) :=
  if buf p = 10 then .stop (.done s) else .stop (.invalid s)

-- switch (state)
def turn (p : Nat) (s : Parse C) : Turn (Parse C) (Stop C) :=
  match s.state with
  | .start => readStart P buf p s
  | .spacesBeforeArgument => readSpaces P buf p s
  | .argument => readArgument P buf p s
  | .almostDone => readAlmostDone buf p s

def done [DecidableEq C] (s : Parse C) : Parse C :=
  let s :=
    match s.argStart with
    | some p => { s with args := s.args ++ [Arg.mk (some p) (s.argEnd - p)], argStart := none }
    | none => s
  { s with state := if s.command ≠ some P.auth then .start else .argument }

def invalid (s : Parse C) : Parse C := { s with state := .start, argStart := none }

def answer [DecidableEq C] (pos : Nat) (_ : Parse C) (p : Nat) : Stop C → Rc × Nat × Parse C
  | .done s => (.ok, p + 1, done P s)
  | .invalid s => (.invalidCommand, pos, invalid s)

end

-- s, with what the buffer holds from start to last
structure Session (C : Type) where
  text : Bytes
  pos : Nat
  parse : Parse C
  quit : Bool
  deriving DecidableEq

inductive Result (C : Type)
  | command (command : Option C) (args : List Arg) (text : Bytes)
  | invalid
  deriving DecidableEq

-- What the handler of a command returns; reset is an s->state = 0 in front of NGX_OK.
inductive Handled
  | done
  | invalid
  | ok (reset : Bool)

section

variable {C : Type} [DecidableEq C] (P : Protocol C) (size : Nat) (handle : List (Result C) → Handled)

-- ngx_mail_read_command, where recv has returned the bytes of piece
def readCommand (s : Session C) (piece : Bytes) : Rc × Session C :=
  let text := s.text ++ piece
  let (rc, pos, parse) := call (turn P) (answer P) .again (contents text) s.pos text.length s.parse
  let s := { s with text := text, pos := pos, parse := parse }
  if rc = .again then if text.length < size then (.again, s) else (.invalidCommand, { s with quit := true })
  else (rc, s)

-- The end of ngx_mail_pop3_auth_state and ngx_mail_smtp_auth_state
def release (s : Session C) : Session C :=
  let parse := { s.parse with args := [] }
  { s with
    text := []
    pos := 0
    parse := if parse.state = .start then parse else { parse with argStart := some 0 } }

def reset (s : Session C) : Session C := { s with parse.state := .start }

-- What happens to the session before the next command is read
def handled (s : Session C) : Handled → Session C
  -- ngx_mail_auth
  | .done => reset { s with text := [], pos := 0, parse.args := [] }
  | .invalid => release (reset s)
  | .ok true => release (reset s)
  | .ok false => release s

-- One event with a read; the results that ngx_mail_read_command has given are kept. The handler of a command
-- knows all of them.
def authState (c : List (Result C) × Session C) (piece : Bytes) : List (Result C) × Session C :=
  let (results, s) := c
  match readCommand P size s piece with
  | (.again, s) => (results, s)
  | (.ok, s) =>
      let results := results ++ [.command s.parse.command s.parse.args s.text]
      (results, handled s (handle results))
  | (.invalidCommand, s) => (results ++ [.invalid], handled s .invalid)

end

-- A line as it is read: it ends with its only LF, and it is shorter than the buffer.
structure Line (size : Nat) where
  pieces : List Bytes
  pieces_ne : ∀ piece ∈ pieces, piece ≠ []
  ends : ∃ text, pieces.flatten = text ++ [10] ∧ 10 ∉ text
  short : pieces.flatten.length < size

-- The bytes that come before the last read
def Line.early {size : Nat} (line : Line size) : Bytes := line.pieces.dropLast.flatten

-- The session of a new connection
def newSession (C : Type) : Session C := ⟨[], 0, ⟨.start, none, none, 0, []⟩, false⟩

section

variable {C : Type} [DecidableEq C] (P : Protocol C) {size : Nat} (handle : List (Result C) → Handled)

def readPieces (lines : List (Line size)) (c : List (Result C) × Session C) : List (Result C) × Session C :=
  lines.foldl (fun c line => line.pieces.foldl (authState P size handle) c) c

-- Every line in one read
def readLines (lines : List (Line size)) (c : List (Result C) × Session C) : List (Result C) × Session C :=
  lines.foldl (fun c line => authState P size handle c line.pieces.flatten) c

end

-- A result is of the line: its arguments are slices of it.
def Result.Of {C : Type} (line : Bytes) : Result C → Prop
  | .command _ args text =>
      text = line ∧ ∀ arg ∈ args, ∃ p, arg.data = some p ∧ 0 ≤ arg.len ∧ (p + arg.len : Int) ≤ line.length
  | .invalid => True

-- How many arguments begin in a text behind a space, or behind another byte
def fields : Bool → Bytes → Nat
  | _, [] => 0
  | space, ch :: text => (if space ∧ ch ≠ 32 then 1 else 0) + fields (ch = 32) text

-- A text without the CR of its line end
def body (text : Bytes) : Bytes := if text.getLast? = some 13 then text.dropLast else text

-- The beginning of an answer to a challenge, or else of a command line: letters, or a command with a line end or
-- with arguments behind it
def Beginning {C : Type} (P : Protocol C) (state : State) (text : Bytes) : Prop :=
  if state = .argument then 13 ∉ body text ∧ fields false (body text) ≤ P.most
  else
    match text.dropWhile letter with
    | [] => True
    | ch :: more =>
        match P.command (text.takeWhile letter) with
        | none => False
        | some command =>
            (ch = 13 ∧ more = []) ∨
              (ch = 32 ∧ 13 ∉ body more ∧ (P.spaced command = true ∨ fields true (body more) ≤ P.most + 1))

section

variable {C : Type} {P : Protocol C} {front rest a b : Bytes} {ch : UInt8} {s s' : Parse C}

-- The parser reads rest behind front.
def run (P : Protocol C) (front rest : Bytes) (s : Parse C) : Turn (Parse C) (Nat × Stop C) :=
  scan (turn P (contents (front ++ rest))) rest.length front.length s

theorem turn_local (P : Protocol C) : Local (turn P) := by
  intro buf buf' p s h
  have hch : buf p = buf' p := h p (Nat.le_refl p)
  have hword : (List.range p).map buf = (List.range p).map buf' := by
    apply List.map_congr_left
    intro i hi
    exact h i (Nat.le_of_lt (List.mem_range.mp hi))
  rw [turn, turn]
  cases s.state with
  | start => simp only [readStart, hch, hword]
  | spacesBeforeArgument => simp only [readSpaces, hch]
  | argument => simp only [readArgument, hch]
  | almostDone => simp only [readAlmostDone, hch]

theorem run_append (P : Protocol C) (front a b : Bytes) (s : Parse C) :
    run P front (a ++ b) s =
      match run P front a s with
      | .next s' => run P (front ++ a) b s'
      | .stop r => .stop r := by
  have hlocal : scan (turn P (contents (front ++ a))) a.length front.length s =
      scan (turn P (contents (front ++ (a ++ b)))) a.length front.length s := by
    rw [← List.append_assoc]
    exact scan_contents (turn_local P) _ _ (Nat.le_of_eq List.length_append.symm)
  rw [run, run, hlocal, List.length_append]
  cases hscan : scan (turn P (contents (front ++ (a ++ b)))) a.length front.length s with
  | next s' =>
      dsimp only
      rw [scan_next_add hscan, run, List.length_append, List.append_assoc]
  | stop r => rw [scan_stop_add hscan]

theorem run_cons (P : Protocol C) (front : Bytes) (ch : UInt8) (rest : Bytes) (s : Parse C) :
    run P front (ch :: rest) s =
      match turn P (contents (front ++ [ch])) front.length s with
      | .next s' => run P (front ++ [ch]) rest s'
      | .stop r => .stop (front.length, r) := by
  have hone : run P front [ch] s =
      match turn P (contents (front ++ [ch])) front.length s with
      | .next s' => .next s'
      | .stop r => .stop (front.length, r) := by
    rw [run, List.length_singleton, scan]
    cases turn P (contents (front ++ [ch])) front.length s with
    | next s' => rfl
    | stop r => rfl
  rw [← List.singleton_append, run_append, hone]
  cases turn P (contents (front ++ [ch])) front.length s with
  | next s' => rfl
  | stop r => rfl

theorem contents_last (front : Bytes) (ch : UInt8) : contents (front ++ [ch]) front.length = ch := by
  rw [contents, List.getD_append_right _ _ _ _ (Nat.le_refl _), Nat.sub_self]
  rfl

theorem contents_word (front : Bytes) (ch : UInt8) :
    (List.range front.length).map (contents (front ++ [ch])) = front := by
  apply List.ext_getElem
  · rw [List.length_map, List.length_range]
  · intro i h1 h2
    rw [List.getElem_map, List.getElem_range, contents, List.getD_append _ _ _ _ h2, List.getD_eq_getElem _ _ h2]

-- No byte of rest is invalid, and no command ends in it.
def Passes (P : Protocol C) (front rest : Bytes) (s : Parse C) : Prop := ∃ s', run P front rest s = .next s'

theorem passes_nil (P : Protocol C) (front : Bytes) (s : Parse C) : Passes P front [] s := ⟨s, rfl⟩

theorem passes_next (h : turn P (contents (front ++ [ch])) front.length s = .next s') (rest : Bytes) :
    Passes P front (ch :: rest) s ↔ Passes P (front ++ [ch]) rest s' := by rw [Passes, Passes, run_cons, h]

theorem not_passes {r : Stop C} (h : turn P (contents (front ++ [ch])) front.length s = .stop r) (rest : Bytes) :
    ¬Passes P front (ch :: rest) s := by
  rintro ⟨s', hrun⟩
  rw [run_cons, h] at hrun
  cases hrun

theorem body_cons (h : ch ≠ 13) (text : Bytes) : body (ch :: text) = ch :: body text := by
  cases text with
  | nil => simp [body, h]
  | cons c text =>
      rw [body, body, List.getLast?_cons_cons]
      split
      · rw [List.dropLast_cons_cons]
      · rfl

theorem mem_body_cr (h : rest ≠ []) : 13 ∈ body (13 :: rest) := by
  obtain ⟨c, text, rfl⟩ := List.exists_cons_of_ne_nil h
  rw [body]
  split
  · rw [List.dropLast_cons_cons]
    exact List.mem_cons_self ..
  · exact List.mem_cons_self ..

theorem body_cr_iff (rest : Bytes) : 13 ∉ body (13 :: rest) ↔ rest = [] := by
  constructor
  · intro h
    by_contra hne
    exact h (mem_body_cr hne)
  · rintro rfl
    exact nofun

theorem fits_cr (k : Nat) (space : Bool) (rest : Bytes) :
    (13 ∉ body (13 :: rest) ∧ fields space (body (13 :: rest)) ≤ k) ↔ rest = [] := by
  rw [body_cr_iff]
  constructor
  · exact And.left
  · rintro rfl
    exact ⟨rfl, Nat.zero_le k⟩

theorem almostDone_passes (hs : s.state = .almostDone) (hlf : 10 ∉ rest) (front : Bytes) :
    Passes P front rest s ↔ rest = [] := by
  cases rest with
  | nil => exact iff_of_true (passes_nil P front s) rfl
  | cons ch rest =>
      have hch : ch ≠ 10 := fun h => hlf (h ▸ List.mem_cons_self ..)
      have hturn : turn P (contents (front ++ [ch])) front.length s = .stop (.invalid s) := by
        rw [turn, hs]
        simp only [readAlmostDone, contents_last, if_neg hch]
      exact iff_of_false (not_passes hturn rest) (List.cons_ne_nil ch rest)

-- A turn in front of an argument
theorem spaces_cr_passes (hs : s.state = .spacesBeforeArgument) (hlf : 10 ∉ rest) (front : Bytes) :
    Passes P front (13 :: rest) s ↔ rest = [] := by
  have hturn : turn P (contents (front ++ [13])) front.length s =
      .next { s with state := .almostDone, argEnd := front.length } := by
    rw [turn, hs]
    simp only [readSpaces, contents_last]
    rfl
  rw [passes_next hturn, almostDone_passes rfl hlf]

theorem spaces_space_turn (hs : s.state = .spacesBeforeArgument) (front : Bytes) :
    turn P (contents (front ++ [32])) front.length s = .next s := by
  rw [turn, hs]
  simp only [readSpaces, contents_last]
  rfl

theorem spaces_turn (hs : s.state = .spacesBeforeArgument) (hsp : ch ≠ 32) (hcr : ch ≠ 13) (hlf : 10 ≠ ch)
    (front : Bytes) :
    turn P (contents (front ++ [ch])) front.length s =
      if s.args.length ≤ P.most then .next { s with state := .argument, argStart := some front.length }
      else .stop (.invalid s) := by
  rw [turn, hs]
  simp only [readSpaces, contents_last, if_neg hsp, if_neg hcr, if_neg (Ne.symm hlf)]

-- A turn inside of an argument
theorem argument_cr_passes (hs : s.state = .argument) (hlf : 10 ∉ rest) (front : Bytes) :
    Passes P front (13 :: rest) s ↔ rest = [] := by
  have hturn : turn P (contents (front ++ [13])) front.length s =
      .next { s with
        args := s.args ++ [⟨s.argStart, front.length - s.argStart.getD 0⟩]
        argStart := none
        state := .almostDone } := by
    rw [turn, hs]
    simp only [readArgument, contents_last, behind]
    rfl
  rw [passes_next hturn, almostDone_passes rfl hlf]

theorem argument_turn (hs : s.state = .argument) (hin : ch = 32 → s.spaced P = true) (hcr : ch ≠ 13) (hlf : 10 ≠ ch)
    (front : Bytes) : turn P (contents (front ++ [ch])) front.length s = .next s := by
  rw [turn, hs]
  simp only [readArgument, contents_last]
  by_cases hsp : ch = 32
  · rw [if_pos ⟨hsp, hin hsp⟩]
  · rw [if_neg fun h => hsp h.1, if_neg]
    rintro (h | h | h)
    · exact hsp h
    · exact hcr h
    · exact hlf h.symm

theorem spaced_passes (hs : s.state = .argument) (hspaced : s.spaced P = true) (hlf : 10 ∉ rest) (front : Bytes) :
    Passes P front rest s ↔ 13 ∉ body rest := by
  induction rest generalizing front with
  | nil => exact iff_of_true (passes_nil P front s) nofun
  | cons ch rest ih =>
      rw [List.mem_cons, not_or] at hlf
      by_cases hcr : ch = 13
      · rw [hcr, argument_cr_passes hs hlf.2, body_cr_iff]
      · rw [passes_next (argument_turn hs (fun _ => hspaced) hcr hlf.1 front), ih hlf.2, body_cons hcr, List.mem_cons]
        exact not_congr (or_iff_right (fun h => hcr h.symm)).symm

-- What an argument state lets through, where one more argument counts when it has begun
def Fits (P : Protocol C) (s : Parse C) (text : Bytes) : Prop :=
  13 ∉ body text ∧
    s.args.length + fields (s.state = .spacesBeforeArgument) (body text) ≤
      P.most + if s.state = .spacesBeforeArgument then 1 else 0

-- By induction on the text, over the two states at once
theorem args_passes (hspaced : s.spaced P = false) (hs : s.state = .spacesBeforeArgument ∨ s.state = .argument)
    (hargs : s.args.length ≤ P.most + if s.state = .spacesBeforeArgument then 1 else 0) (hlf : 10 ∉ rest)
    (front : Bytes) : Passes P front rest s ↔ Fits P s rest := by
  induction rest generalizing front s with
  | nil => exact iff_of_true (passes_nil P front s) ⟨nofun, hargs⟩
  | cons ch rest ih =>
      rw [List.mem_cons, not_or] at hlf
      obtain ⟨hlf, hrest⟩ := hlf
      rw [Fits]
      rcases hs with hs | hs
      · rw [hs, if_pos rfl] at hargs ⊢
        simp only [decide_true]
        by_cases hcr : ch = 13
        · rw [hcr, spaces_cr_passes hs hrest, Nat.add_comm s.args.length, ← Nat.le_sub_iff_add_le hargs, fits_cr]
        rw [body_cons hcr, List.mem_cons, or_iff_right (Ne.symm hcr)]
        by_cases hsp : ch = 32
        · rw [hsp, passes_next (spaces_space_turn hs front), ih hspaced (Or.inl hs) (by rwa [hs, if_pos rfl]) hrest, Fits,
            hs, if_pos rfl]
          simp only [decide_true, fields, ne_eq, not_true_eq_false, and_false, if_false, Nat.zero_add]
        · have hfields : fields true (ch :: body rest) = 1 + fields false (body rest) := by
            simp [fields, hsp]
          by_cases hroom : s.args.length ≤ P.most
          · have hturn : turn P (contents (front ++ [ch])) front.length s =
                .next { s with state := .argument, argStart := some front.length } := by
              rw [spaces_turn hs hsp hcr hlf, if_pos hroom]
            have hnext := ih (s := { s with state := .argument, argStart := some front.length }) hspaced (Or.inr rfl)
              (by simpa using hroom) hrest (front ++ [ch])
            rw [passes_next hturn, hnext, Fits, hfields]
            simp only [reduceCtorEq, decide_false, if_false]
            refine and_congr_right fun _ => ?_
            omega
          · have hturn : turn P (contents (front ++ [ch])) front.length s = .stop (.invalid s) := by
              rw [spaces_turn hs hsp hcr hlf, if_neg hroom]
            refine iff_of_false (not_passes hturn rest) ?_
            rw [hfields]
            omega
      · rw [hs] at hargs ⊢
        simp only [reduceCtorEq, decide_false, if_false, Nat.add_zero] at hargs ⊢
        by_cases hcr : ch = 13
        · rw [hcr, argument_cr_passes hs hrest, Nat.add_comm s.args.length, ← Nat.le_sub_iff_add_le hargs, fits_cr]
        rw [body_cons hcr, List.mem_cons, or_iff_right (Ne.symm hcr)]
        by_cases hsp : ch = 32
        · have hturn : turn P (contents (front ++ [ch])) front.length s =
              .next { s with
                args := s.args ++ [⟨s.argStart, front.length - s.argStart.getD 0⟩]
                argStart := none
                state := .spacesBeforeArgument } := by
            rw [turn, hs]
            simp only [readArgument, contents_last, hsp, hspaced, behind]
            rfl
          have hargs' : (s.args ++ [Arg.mk s.argStart (front.length - s.argStart.getD 0)]).length ≤ P.most + 1 := by
            rw [List.length_append]
            exact Nat.succ_le_succ hargs
          have hnext := ih
            (s := { s with
              args := s.args ++ [⟨s.argStart, front.length - s.argStart.getD 0⟩]
              argStart := none
              state := .spacesBeforeArgument })
            hspaced (Or.inl rfl) (by simpa using hargs') hrest (front ++ [ch])
          rw [passes_next hturn, hnext, Fits, hsp]
          have hlength : (s.args ++ [Arg.mk s.argStart (front.length - s.argStart.getD 0)]).length =
              s.args.length + 1 := List.length_append
          simp only [decide_true, fields, Bool.false_eq_true, false_and, if_false, if_true, Nat.zero_add, hlength]
          refine and_congr_right fun _ => ?_
          omega
        · rw [passes_next (argument_turn hs (fun h => absurd h hsp) hcr hlf front), ih hspaced (Or.inr hs) (by rw [hs]; simpa using hargs) hrest, Fits, hs]
          simp only [reduceCtorEq, decide_false, if_false, Nat.add_zero, fields, hsp, Bool.false_eq_true, false_and,
            Nat.zero_add]

theorem spaced_spaces_passes (hs : s.state = .spacesBeforeArgument) (hspaced : s.spaced P = true)
    (hargs : s.args.length ≤ P.most) (hlf : 10 ∉ rest) (front : Bytes) :
    Passes P front rest s ↔ 13 ∉ body rest := by
  induction rest generalizing front with
  | nil => exact iff_of_true (passes_nil P front s) nofun
  | cons ch rest ih =>
      rw [List.mem_cons, not_or] at hlf
      by_cases hcr : ch = 13
      · rw [hcr, spaces_cr_passes hs hlf.2, body_cr_iff]
      rw [body_cons hcr, List.mem_cons, or_iff_right (Ne.symm hcr)]
      by_cases hsp : ch = 32
      · rw [hsp, passes_next (spaces_space_turn hs front), ih hlf.2]
      · have hturn := spaces_turn (P := P) hs hsp hcr hlf.1 front
        rw [if_pos hargs] at hturn
        rw [passes_next hturn]
        exact spaced_passes (s := { s with state := .argument, argStart := some front.length }) rfl hspaced hlf.2 _

theorem letter_ne (h : letter ch = true) : ¬(ch = 32 ∨ ch = 13 ∨ ch = 10) := by
  rintro (rfl | rfl | rfl)
  · exact absurd h (by decide)
  · exact absurd h (by decide)
  · exact absurd h (by decide)

theorem letters_run (hs : s.state = .start) (hword : ∀ c ∈ rest, letter c = true) (front : Bytes) :
    run P front rest s = .next s := by
  induction rest generalizing front with
  | nil => rfl
  | cons ch rest ih =>
      have hch := hword ch (List.mem_cons_self ..)
      have hturn : turn P (contents (front ++ [ch])) front.length s = .next s := by
        rw [turn, hs]
        simp only [readStart, contents_last, if_neg (letter_ne hch), if_pos hch]
      rw [run_cons, hturn]
      exact ih (fun c hc => hword c (List.mem_cons_of_mem ch hc)) (front ++ [ch])

theorem passes_append (h : run P front a s = .next s') (b : Bytes) :
    Passes P front (a ++ b) s ↔ Passes P (front ++ a) b s' := by rw [Passes, Passes, run_append, h]

-- The byte behind the letters of a line
theorem readStart_turn (hs : s.state = .start) (hch : letter ch = false) (front : Bytes) :
    turn P (contents (front ++ [ch])) front.length s =
      if ch = 32 ∨ ch = 13 ∨ ch = 10 then
        match P.command front with
        | some command => behind ch { s with command := some command }
        | none => .stop (.invalid s)
      else .stop (.invalid s) := by
  have hturn : turn P (contents (front ++ [ch])) front.length s =
      readStart P (contents (front ++ [ch])) front.length s := by rw [turn, hs]
  rw [hturn, readStart]
  simp only [contents_last, contents_word, hch, Bool.false_eq_true, if_false]

theorem start_passes (hs : s.state = .start) (hargs : s.args = []) {text : Bytes} (hlf : 10 ∉ text) :
    Passes P [] text s ↔ Beginning P .start text := by
  have hsplit := List.takeWhile_append_dropWhile (p := letter) (l := text)
  have hword : ∀ c ∈ text.takeWhile letter, letter c = true := fun c hc => List.mem_takeWhile_imp hc
  have hrun := passes_append (letters_run (P := P) hs hword []) (text.dropWhile letter)
  rw [hsplit, List.nil_append] at hrun
  rw [hrun, Beginning, if_neg (by decide)]
  cases hdrop : text.dropWhile letter with
  | nil => exact iff_of_true (passes_nil P _ s) trivial
  | cons ch more =>
      have hmem : ∀ c ∈ ch :: more, c ∈ text := fun c hc => hsplit ▸ List.mem_append_right _ (hdrop ▸ hc)
      have hch : ch ≠ 10 := fun h => hlf (h ▸ hmem ch (List.mem_cons_self ..))
      have hmore : 10 ∉ more := fun h => hlf (hmem 10 (List.mem_cons_of_mem ch h))
      have hletter : letter ch = false := by
        have hhead := List.head_dropWhile_not letter (l := text) (by rw [hdrop]; exact List.cons_ne_nil ch more)
        simpa only [hdrop, List.head_cons] using hhead
      have hturn := readStart_turn (P := P) hs hletter (text.takeWhile letter)
      dsimp only
      cases hcommand : P.command (text.takeWhile letter) with
      | none =>
          simp only [hcommand, ite_self] at hturn
          exact iff_of_false (not_passes hturn more) id
      | some command =>
          simp only [hcommand] at hturn
          dsimp only
          by_cases hsp : ch = 32
          · rw [if_pos (Or.inl hsp), behind, if_pos hsp] at hturn
            rw [passes_next hturn, or_iff_right (fun h => absurd (hsp.symm.trans h.1) (by decide)), and_iff_right hsp]
            let s' : Parse C := { s with command := some command, state := .spacesBeforeArgument }
            have hargs' : s'.args.length = 0 := congrArg List.length hargs
            cases hspaced : P.spaced command with
            | true =>
                rw [spaced_spaces_passes (s := s') rfl hspaced (by rw [hargs']; exact Nat.zero_le _) hmore]
                exact (and_iff_left (Or.inl rfl)).symm
            | false =>
                rw [args_passes (s := s') hspaced (Or.inl rfl) (by rw [hargs']; exact Nat.zero_le _) hmore, Fits, hargs']
                simp [s']
          · by_cases hcr : ch = 13
            · rw [if_pos (Or.inr (Or.inl hcr)), behind, if_neg hsp, if_pos hcr] at hturn
              rw [passes_next hturn, almostDone_passes rfl hmore, or_iff_left (fun h => hsp h.1), and_iff_right hcr]
            · rw [if_neg (by
                rintro (h | h | h)
                · exact hsp h
                · exact hcr h
                · exact hch h)] at hturn
              refine iff_of_false (not_passes hturn more) ?_
              rintro (h | h)
              · exact hcr h.1
              · exact hsp h.1

-- The parser before a line
def Ready (P : Protocol C) (s : Parse C) : Prop :=
  s.args = [] ∧
    ((s.state = .start ∧ s.argStart = none) ∨
      (s.state = .argument ∧ s.argStart = some 0 ∧ s.command = some P.auth))

theorem passes_iff (h : Ready P s) {text : Bytes} (hlf : 10 ∉ text) :
    Passes P [] text s ↔ Beginning P s.state text := by
  obtain ⟨hargs, ⟨hs, -⟩ | ⟨hs, -, hcommand⟩⟩ := h
  · rw [hs]
    exact start_passes hs hargs hlf
  · have hspaced : s.spaced P = false := by
      rw [Parse.spaced, hcommand]
      exact P.auth_spaced
    rw [args_passes hspaced (Or.inr hs) (by rw [hargs]; exact Nat.zero_le _) hlf, Fits, hs, Beginning, if_pos rfl]
    simp [hargs]

end

section

variable {C : Type} {P : Protocol C} {front rest : Bytes} {ch : UInt8} {s s' : Parse C}

-- Each state stops at an LF.
theorem turn_lf (s : Parse C) (front : Bytes) : ∃ r, turn P (contents (front ++ [10])) front.length s = .stop r := by
  rw [turn]
  cases s.state with
  | start =>
      simp only [readStart, contents_last, contents_word]
      cases P.command front with
      | none => exact ⟨_, rfl⟩
      | some command => exact ⟨_, rfl⟩
  | spacesBeforeArgument =>
      simp only [readSpaces, contents_last]
      exact ⟨_, rfl⟩
  | argument =>
      simp only [readArgument, contents_last]
      exact ⟨_, rfl⟩
  | almostDone =>
      simp only [readAlmostDone, contents_last]
      exact ⟨_, rfl⟩

theorem not_passes_lf (h : 10 ∈ rest) (front : Bytes) (s : Parse C) : ¬Passes P front rest s := by
  induction rest generalizing front s with
  | nil => cases h
  | cons ch rest ih =>
      cases hturn : turn P (contents (front ++ [ch])) front.length s with
      | stop r => exact not_passes hturn rest
      | next s' =>
          rw [passes_next hturn]
          have hch : ch ≠ 10 := by
            rintro rfl
            obtain ⟨r, hr⟩ := turn_lf (P := P) s front
            rw [hr] at hturn
            cases hturn
          exact ih ((List.mem_cons.mp h).resolve_left (Ne.symm hch)) _ s'

theorem run_stops (h : ¬Passes P front rest s) : ∃ p r, run P front rest s = .stop (p, r) := by
  cases hrun : run P front rest s with
  | next s' => exact absurd ⟨s', hrun⟩ h
  | stop r => exact ⟨r.1, r.2, rfl⟩

-- The addresses that the parser keeps lie in what it has read.
structure Slices (p : Nat) (s : Parse C) : Prop where
  args : ∀ arg ∈ s.args, ∃ d, arg.data = some d ∧ 0 ≤ arg.len ∧ (d + arg.len : Int) ≤ p
  argument : s.state = .argument → ∃ d, s.argStart = some d ∧ d ≤ p
  other : s.state ≠ .argument → s.argStart = none

theorem Slices.args_mono {p q : Nat} (h : Slices p s) (hle : p ≤ q) :
    ∀ arg ∈ s.args, ∃ d, arg.data = some d ∧ 0 ≤ arg.len ∧ (d + arg.len : Int) ≤ q := by
  intro arg harg
  obtain ⟨d, hdata, hlen, hend⟩ := h.args arg harg
  exact ⟨d, hdata, hlen, by omega⟩

-- What a done command leaves: no argument is open.
structure Closed (p : Nat) (s : Parse C) : Prop where
  args : ∀ arg ∈ s.args, ∃ d, arg.data = some d ∧ 0 ≤ arg.len ∧ (d + arg.len : Int) ≤ p
  argStart : s.argStart = none

def StopClosed (p : Nat) : Stop C → Prop
  | .done s => Closed p s
  | .invalid _ => True

theorem behind_slices {p : Nat} (h : Closed p s) : (behind ch s).Meets (Slices (p + 1)) (StopClosed p) := by
  have hargs : ∀ arg ∈ s.args, ∃ d, arg.data = some d ∧ 0 ≤ arg.len ∧ (d + arg.len : Int) ≤ (p + 1 : Nat) := by
    intro arg harg
    obtain ⟨d, hdata, hlen, hend⟩ := h.args arg harg
    exact ⟨d, hdata, hlen, by omega⟩
  rw [behind]
  split
  · exact ⟨hargs, nofun, fun _ => h.argStart⟩
  split
  · exact ⟨hargs, nofun, fun _ => h.argStart⟩
  · exact h

theorem turn_slices (buf : Nat → UInt8) {p : Nat} (h : Slices p s) :
    (turn P buf p s).Meets (Slices (p + 1)) (StopClosed p) := by
  have hargs := h.args_mono (Nat.le_succ p)
  rw [turn]
  cases hs : s.state with
  | start =>
      have hnone := h.other (by rw [hs]; nofun)
      simp only [readStart]
      split
      · cases P.command ((List.range p).map buf) with
        | none => trivial
        | some command => exact behind_slices ⟨h.args, hnone⟩
      split
      · exact ⟨hargs, fun harg => absurd harg (by rw [hs]; nofun), fun _ => hnone⟩
      · trivial
  | spacesBeforeArgument =>
      have hnone := h.other (by rw [hs]; nofun)
      simp only [readSpaces]
      split
      · exact ⟨hargs, fun harg => absurd harg (by rw [hs]; nofun), fun _ => hnone⟩
      split
      · exact ⟨hargs, nofun, fun _ => hnone⟩
      split
      · exact ⟨h.args, hnone⟩
      split
      · exact ⟨hargs, fun _ => ⟨p, rfl, Nat.le_succ p⟩, fun hne => absurd rfl hne⟩
      · trivial
  | argument =>
      obtain ⟨d, hstart, hle⟩ := h.argument hs
      have hkeep : Slices (p + 1) s :=
        ⟨hargs, fun _ => ⟨d, hstart, Nat.le_succ_of_le hle⟩, fun hne => absurd hs hne⟩
      have hpush : ∀ arg ∈ s.args ++ [Arg.mk s.argStart (p - s.argStart.getD 0)],
          ∃ d, arg.data = some d ∧ 0 ≤ arg.len ∧ (d + arg.len : Int) ≤ p := by
        intro arg harg
        rcases List.mem_append.mp harg with hold | hnew
        · exact h.args arg hold
        · rw [List.mem_singleton.mp hnew, hstart, Option.getD_some]
          refine ⟨d, rfl, Int.sub_nonneg.mpr (Int.ofNat_le.mpr hle), ?_⟩
          show (d : Int) + (p - d) ≤ p
          omega
      simp only [readArgument]
      split
      · exact hkeep
      split
      · exact behind_slices ⟨hpush, rfl⟩
      · exact hkeep
  | almostDone =>
      have hnone := h.other (by rw [hs]; nofun)
      simp only [readAlmostDone]
      split
      · exact ⟨h.args, hnone⟩
      · trivial

theorem Ready.slices (h : Ready P s) : Slices 0 s := by
  obtain ⟨hargs, ⟨hs, hstart⟩ | ⟨hs, hstart, -⟩⟩ := h
  · exact ⟨by rw [hargs]; nofun, fun harg => absurd harg (by rw [hs]; nofun), fun _ => hstart⟩
  · exact ⟨by rw [hargs]; nofun, fun _ => ⟨0, hstart, Nat.le_refl 0⟩, fun hne => absurd hs hne⟩

-- A line that is read from its first byte on
theorem run_slices (h : Ready P s) {p : Nat} {r : Stop C} (hrun : run P [] rest s = .stop (p, r)) : StopClosed p r := by
  have hmeets := scan_meets (n := rest.length) (p := 0) Slices StopClosed
    (fun q s _ hq _ => turn_slices (P := P) (contents rest) hq) along_true h.slices
  have hscan : scan (turn P (contents rest)) rest.length 0 s = .stop (p, r) := hrun
  rw [hscan] at hmeets
  exact hmeets

theorem run_lt {p : Nat} {r : Stop C} (hrun : run P front rest s = .stop (p, r)) : p < (front ++ rest).length := by
  induction rest generalizing front s with
  | nil => cases hrun
  | cons ch rest ih =>
      rw [run_cons] at hrun
      cases hturn : turn P (contents (front ++ [ch])) front.length s with
      | stop r' =>
          rw [hturn] at hrun
          cases hrun
          rw [List.length_append, List.length_cons]
          omega
      | next s' =>
          rw [hturn] at hrun
          have hlt := ih hrun
          rwa [List.append_assoc, List.singleton_append] at hlt

end

section

variable {C : Type} [DecidableEq C] {P : Protocol C} {size : Nat} {handle : List (Result C) → Handled}
  {results : List (Result C)} {s : Session C} {piece : Bytes} {ps : List Bytes} {parse : Parse C}

-- What a result does
def settle (P : Protocol C) (handle : List (Result C) → Handled) (results : List (Result C)) (s : Session C)
    (text : Bytes) : Stop C → List (Result C) × Session C
  | .done parse =>
      let results := results ++ [.command (done P parse).command (done P parse).args text]
      (results, handled { s with text := text, pos := 0, parse := done P parse } (handle results))
  | .invalid parse =>
      (results ++ [.invalid], handled { s with text := text, pos := 0, parse := invalid parse } .invalid)

omit [DecidableEq C] in
theorem handled_pos (s : Session C) (pos : Nat) (h : Handled) : handled { s with pos := pos } h = handled s h := by
  cases h with
  | done => rfl
  | invalid => rfl
  | ok reset =>
      cases reset with
      | true => rfl
      | false => rfl

theorem readCommand_call (hpos : s.pos = s.text.length) (piece : Bytes) :
    call (turn P) (answer P) .again (contents (s.text ++ piece)) s.pos (s.text ++ piece).length s.parse =
      outcome (answer P) .again s.text.length (s.text ++ piece).length s.parse (run P s.text piece s.parse) := by
  rw [hpos, call_scan]
  rfl

theorem authState_next (hpos : s.pos = s.text.length) (hrun : run P s.text piece s.parse = .next parse)
    (hroom : (s.text ++ piece).length < size) :
    authState P size handle (results, s) piece =
      (results, { s with text := s.text ++ piece, pos := (s.text ++ piece).length, parse := parse }) := by
  rw [authState]
  simp only [readCommand]
  rw [readCommand_call hpos, hrun, outcome]
  simp only [if_true, if_pos hroom]

theorem authState_full (handle : List (Result C) → Handled) (results : List (Result C))
    (hpos : s.pos = s.text.length) (hrun : run P s.text piece s.parse = .next parse)
    (hroom : ¬(s.text ++ piece).length < size) :
    ∃ s', authState P size handle (results, s) piece = (results ++ [.invalid], handled s' .invalid) := by
  rw [authState]
  simp only [readCommand]
  rw [readCommand_call hpos, hrun, outcome]
  simp only [if_true, if_neg hroom]
  exact ⟨_, rfl⟩

theorem authState_stop (size : Nat) (handle : List (Result C) → Handled) (results : List (Result C))
    {p : Nat} {r : Stop C} (hpos : s.pos = s.text.length)
    (hrun : run P s.text piece s.parse = .stop (p, r)) :
    authState P size handle (results, s) piece = settle P handle results s (s.text ++ piece) r := by
  rw [authState]
  simp only [readCommand]
  rw [readCommand_call hpos, hrun, outcome]
  cases r with
  | done parse =>
      simp only [answer, settle, reduceCtorEq, if_false]
      rw [← handled_pos _ 0]
  | invalid parse =>
      simp only [answer, settle, reduceCtorEq, if_false]
      rw [← handled_pos _ 0]

theorem feed_next (handle : List (Result C) → Handled) (results : List (Result C)) (ps : List Bytes)
    (hpos : s.pos = s.text.length) (hrun : run P s.text ps.flatten s.parse = .next parse)
    (hroom : (s.text ++ ps.flatten).length < size) :
    ps.foldl (authState P size handle) (results, s) =
      (results, { s with text := s.text ++ ps.flatten, pos := (s.text ++ ps.flatten).length, parse := parse }) := by
  induction ps generalizing s with
  | nil =>
      rw [List.flatten_nil] at hrun ⊢
      cases hrun
      rw [List.append_nil, ← hpos]
      rfl
  | cons piece ps ih =>
      rw [List.flatten_cons, run_append] at hrun
      rw [List.flatten_cons, ← List.append_assoc] at hroom ⊢
      cases hpiece : run P s.text piece s.parse with
      | stop r =>
          rw [hpiece] at hrun
          cases hrun
      | next parse' =>
          rw [hpiece] at hrun
          have hroom' : (s.text ++ piece).length < size := by
            rw [List.length_append] at hroom
            omega
          rw [List.foldl_cons, authState_next hpos hpiece hroom']
          exact ih rfl hrun hroom

omit [DecidableEq C] in
theorem handled_empty (s : Session C) (h : Handled) : (handled s h).text = [] ∧ (handled s h).pos = 0 := by
  cases h with
  | done => exact ⟨rfl, rfl⟩
  | invalid => exact ⟨rfl, rfl⟩
  | ok reset =>
      cases reset with
      | true => exact ⟨rfl, rfl⟩
      | false => exact ⟨rfl, rfl⟩

theorem settle_spec (P : Protocol C) (handle : List (Result C) → Handled) (results : List (Result C)) (s : Session C)
    (text : Bytes) (r : Stop C) :
    (settle P handle results s text r).1.length = results.length + 1 ∧
      (settle P handle results s text r).2.text = [] ∧ (settle P handle results s text r).2.pos = 0 := by
  cases r with
  | done parse => exact ⟨List.length_append, handled_empty _ _⟩
  | invalid parse => exact ⟨List.length_append, handled_empty _ _⟩

-- A read is kept for the next one, or it gives one result.
theorem authState_cases (P : Protocol C) (size : Nat) (handle : List (Result C) → Handled)
    (hpos : s.pos = s.text.length) (results : List (Result C)) (piece : Bytes) :
    (∃ parse, run P s.text piece s.parse = .next parse ∧
      authState P size handle (results, s) piece =
        (results, { s with text := s.text ++ piece, pos := (s.text ++ piece).length, parse := parse })) ∨
    ∃ results' s', authState P size handle (results, s) piece = (results', s') ∧
      results'.length = results.length + 1 ∧ s'.pos = s'.text.length := by
  cases hrun : run P s.text piece s.parse with
  | next parse =>
      by_cases hroom : (s.text ++ piece).length < size
      · exact Or.inl ⟨parse, rfl, authState_next hpos hrun hroom⟩
      · right
        obtain ⟨s', hs'⟩ := authState_full handle results hpos hrun hroom
        obtain ⟨htext, hpos'⟩ := handled_empty s' .invalid
        exact ⟨_, _, hs', List.length_append, by rw [htext, hpos']; rfl⟩
  | stop r =>
      right
      obtain ⟨hlength, htext, hpos'⟩ := settle_spec P handle results s (s.text ++ piece) r.2
      exact ⟨_, _, authState_stop size handle results (p := r.1) (r := r.2) hpos hrun, hlength,
        hpos'.trans (congrArg List.length htext).symm⟩

theorem feed_grows (P : Protocol C) (size : Nat) (handle : List (Result C) → Handled)
    (hpos : s.pos = s.text.length) (results : List (Result C)) (ps : List Bytes) :
    ∃ results' s', ps.foldl (authState P size handle) (results, s) = (results', s') ∧ s'.pos = s'.text.length ∧
      results.length ≤ results'.length ∧
      (¬Passes P s.text ps.flatten s.parse → results.length + 1 ≤ results'.length) := by
  induction ps generalizing results s with
  | nil => exact ⟨results, s, rfl, hpos, Nat.le_refl _, fun h => absurd (passes_nil P s.text s.parse) h⟩
  | cons piece ps ih =>
      rw [List.foldl_cons, List.flatten_cons]
      obtain ⟨parse, hrun, hauth⟩ | ⟨results', s', hauth, hlength, hpos'⟩ :=
        authState_cases P size handle hpos results piece
      · rw [hauth, passes_append hrun]
        exact ih rfl results
      · rw [hauth]
        obtain ⟨results'', s'', hfeed, hpos'', hle, -⟩ := ih hpos' results'
        exact ⟨results'', s'', hfeed, hpos'', by omega, fun _ => by omega⟩

-- The session that waits for a line
structure Waiting (P : Protocol C) (s : Session C) : Prop where
  text : s.text = []
  pos : s.pos = 0
  ready : Ready P s.parse

omit [DecidableEq C] in
theorem Waiting.pos_length (h : Waiting P s) : s.pos = s.text.length := by rw [h.text, h.pos]; rfl

omit [DecidableEq C] in
theorem newSession_waiting (P : Protocol C) : Waiting P (newSession C) :=
  ⟨rfl, rfl, rfl, Or.inl ⟨rfl, rfl⟩⟩

theorem done_closed {p : Nat} (h : Closed p parse) :
    done P parse = { parse with state := if parse.command ≠ some P.auth then .start else .argument } := by
  obtain ⟨state, command, argStart, argEnd, args⟩ := parse
  obtain rfl : argStart = none := h.argStart
  rfl

omit [DecidableEq C] in
theorem release_waiting (hstart : s.parse.argStart = none)
    (hstate : s.parse.state = .start ∨ s.parse.state = .argument ∧ s.parse.command = some P.auth) :
    Waiting P (release s) := by
  rcases hstate with hs | ⟨hs, hcommand⟩
  · refine ⟨rfl, rfl, ?_⟩
    rw [release]
    simp only [hs, if_true]
    exact ⟨rfl, Or.inl ⟨rfl, hstart⟩⟩
  · refine ⟨rfl, rfl, ?_⟩
    rw [release]
    simp only [hs, reduceCtorEq, if_false]
    exact ⟨rfl, Or.inr ⟨rfl, rfl, hcommand⟩⟩

theorem settle_waiting (handle : List (Result C) → Handled) {p : Nat} {r : Stop C}
    (hr : StopClosed p r) (results : List (Result C)) (s : Session C) (text : Bytes) :
    Waiting P (settle P handle results s text r).2 := by
  cases r with
  | invalid parse => exact release_waiting rfl (Or.inl rfl)
  | done parse =>
      have hdone := done_closed (P := P) hr
      have hnone : (done P parse).argStart = none := by
        rw [hdone]
        exact hr.argStart
      rw [settle]
      dsimp only
      cases handle (results ++ [.command (done P parse).command (done P parse).args text]) with
      | done => exact ⟨rfl, rfl, rfl, Or.inl ⟨rfl, hnone⟩⟩
      | invalid => exact release_waiting hnone (Or.inl rfl)
      | ok reset =>
          cases reset with
          | true => exact release_waiting hnone (Or.inl rfl)
          | false =>
              refine release_waiting hnone ?_
              show (done P parse).state = _ ∨ (done P parse).state = _ ∧ (done P parse).command = _
              rw [hdone]
              by_cases hauth : parse.command = some P.auth
              · exact Or.inr ⟨if_neg (not_not_intro hauth), hauth⟩
              · exact Or.inl (if_pos hauth)

theorem Line.split {size : Nat} (line : Line size) :
    ∃ last, line.pieces = line.pieces.dropLast ++ [last] ∧ line.pieces.flatten = line.early ++ last ∧
      10 ∉ line.early ∧ 10 ∈ last := by
  obtain ⟨text, htext, hlf⟩ := line.ends
  have hne : line.pieces ≠ [] := by
    intro hnil
    rw [hnil] at htext
    exact absurd htext.symm (by simp)
  have hsplit := List.dropLast_append_getLast hne
  have hflatten : line.pieces.flatten = line.early ++ line.pieces.getLast hne := by
    conv_lhs => rw [← hsplit]
    rw [List.flatten_append, List.flatten_singleton]
    rfl
  have hlast := line.pieces_ne _ (List.getLast_mem hne)
  have hend := List.dropLast_append_getLast hlast
  rw [hflatten, ← hend, ← List.append_assoc] at htext
  obtain ⟨hfront, hten⟩ := List.append_inj' htext rfl
  refine ⟨line.pieces.getLast hne, hsplit.symm, hflatten, ?_, ?_⟩
  · intro hmem
    exact hlf (hfront ▸ List.mem_append_left _ hmem)
  · rw [← List.singleton_inj.mp hten]
    exact List.getLast_mem hlast

omit [DecidableEq C] in
theorem line_stops (h : Waiting P s) (line : Line size) :
    ∃ p r, run P [] line.pieces.flatten s.parse = .stop (p, r) ∧ StopClosed p r ∧
      p < line.pieces.flatten.length := by
  obtain ⟨last, -, hflatten, -, hlf⟩ := line.split
  have hmem : 10 ∈ line.pieces.flatten := hflatten ▸ List.mem_append_right _ hlf
  obtain ⟨p, r, hrun⟩ := run_stops (not_passes_lf (P := P) hmem [] s.parse)
  exact ⟨p, r, hrun, run_slices h.ready hrun, run_lt hrun⟩

-- A line in one read gives one result, and the session waits for the next line.
theorem whole_line (handle : List (Result C) → Handled)
    (h : Waiting P s) (results : List (Result C)) (line : Line size) :
    ∃ r p, authState P size handle (results, s) line.pieces.flatten = settle P handle results s line.pieces.flatten r ∧
      StopClosed p r ∧ p < line.pieces.flatten.length ∧ run P [] line.pieces.flatten s.parse = .stop (p, r) := by
  obtain ⟨p, r, hrun, hclosed, hlt⟩ := line_stops h line
  have hrun' : run P s.text line.pieces.flatten s.parse = .stop (p, r) := by rw [h.text, hrun]
  have hauth := authState_stop size handle results h.pos_length hrun'
  rw [h.text] at hauth
  exact ⟨r, p, hauth, hclosed, hlt, hrun⟩

-- When the parser passes over what comes before the last read, the reads are as good as one.
theorem feed_line (h : Waiting P s) (results : List (Result C)) (line : Line size)
    (hpasses : Passes P [] line.early s.parse) :
    line.pieces.foldl (authState P size handle) (results, s) =
      authState P size handle (results, s) line.pieces.flatten := by
  obtain ⟨last, hpieces, hflatten, -, -⟩ := line.split
  obtain ⟨r, p, hwhole, -, -, hrun⟩ := whole_line handle h results line
  obtain ⟨parse, hearly⟩ := hpasses
  have hshort := line.short
  rw [hflatten] at hrun hwhole hshort
  rw [run_append, hearly] at hrun
  have hroom : (s.text ++ line.early).length < size := by
    rw [List.length_append] at hshort
    rw [h.text, List.nil_append]
    omega
  have hnext := feed_next handle results line.pieces.dropLast h.pos_length
    (by rw [h.text]; exact hearly) hroom
  rw [hpieces, List.foldl_append, hnext, List.foldl_cons, List.foldl_nil, List.flatten_append, List.flatten_singleton]
  have hlast := authState_stop size handle results
    (s := { s with
      text := s.text ++ line.pieces.dropLast.flatten
      pos := (s.text ++ line.pieces.dropLast.flatten).length
      parse := parse })
    rfl (p := p) (r := r) (show run P (s.text ++ line.early) last parse = .stop (p, r) by rw [h.text]; exact hrun)
  rw [hlast]
  have hearly' : line.pieces.dropLast.flatten = line.early := rfl
  rw [hearly', hwhole, h.text, List.nil_append]
  cases r with
  | done parse => rfl
  | invalid parse => rfl

theorem line_grows (P : Protocol C) (handle : List (Result C) → Handled)
    (hpos : s.pos = s.text.length) (results : List (Result C)) (line : Line size) :
    ∃ results' s', line.pieces.foldl (authState P size handle) (results, s) = (results', s') ∧
      s'.pos = s'.text.length ∧ results.length + 1 ≤ results'.length := by
  obtain ⟨last, -, hflatten, -, hlf⟩ := line.split
  obtain ⟨results', s', hfeed, hpos', -, hmore⟩ := feed_grows P size handle hpos results
    line.pieces
  have hmem : 10 ∈ line.pieces.flatten := hflatten ▸ List.mem_append_right _ hlf
  exact ⟨results', s', hfeed, hpos', hmore (not_passes_lf hmem _ _)⟩

-- Otherwise the bytes behind the invalid one give a result of their own.
theorem line_twice (handle : List (Result C) → Handled)
    (h : Waiting P s) (results : List (Result C)) (line : Line size)
    (hpasses : ¬Passes P [] line.early s.parse) :
    ∃ results' s', line.pieces.foldl (authState P size handle) (results, s) = (results', s') ∧
      s'.pos = s'.text.length ∧ results.length + 2 ≤ results'.length := by
  obtain ⟨last, hpieces, -, -, hlf⟩ := line.split
  rw [hpieces, List.foldl_append]
  obtain ⟨results₁, s₁, hfirst, hpos₁, -, hmore₁⟩ := feed_grows P size handle h.pos_length
    results line.pieces.dropLast
  obtain ⟨results₂, s₂, hlast, hpos₂, -, hmore₂⟩ := feed_grows P size handle hpos₁
    results₁ [last]
  rw [h.text] at hmore₁
  have hone := hmore₁ hpasses
  have htwo := hmore₂ (not_passes_lf (by rw [List.flatten_singleton]; exact hlf) _ _)
  exact ⟨results₂, s₂, by rw [hfirst, hlast], hpos₂, by omega⟩

theorem lines_grow (P : Protocol C) (handle : List (Result C) → Handled)
    (hpos : s.pos = s.text.length) (results : List (Result C)) (lines : List (Line size)) :
    results.length + lines.length ≤ (readPieces P handle lines (results, s)).1.length := by
  induction lines generalizing results s with
  | nil => exact Nat.le_refl _
  | cons line lines ih =>
      obtain ⟨results', s', hline, hpos', hmore⟩ := line_grows P handle hpos results line
      have hrest := ih hpos' results'
      rw [readPieces, List.foldl_cons, hline, List.length_cons]
      rw [readPieces] at hrest
      omega

-- The bytes of each line that come before its last read are a beginning of a line.
def Whole (P : Protocol C) (handle : List (Result C) → Handled) (lines : List (Line size))
    (c : List (Result C) × Session C) : Prop :=
  ∀ before line after, lines = before ++ line :: after →
    Beginning P (readLines P handle before c).2.parse.state line.early

theorem whole_cons (line : Line size) (lines : List (Line size)) (c : List (Result C) × Session C) :
    Whole P handle (line :: lines) c ↔
      Beginning P c.2.parse.state line.early ∧
        Whole P handle lines (authState P size handle c line.pieces.flatten) := by
  constructor
  · intro h
    refine ⟨h [] line lines rfl, fun before line' after hsplit => ?_⟩
    exact h (line :: before) line' after (by rw [hsplit, List.cons_append])
  · rintro ⟨hhead, htail⟩ before line' after hsplit
    cases before with
    | nil =>
        obtain ⟨rfl, -⟩ := List.cons.inj hsplit
        exact hhead
    | cons line'' before =>
        obtain ⟨rfl, hsplit'⟩ := List.cons.inj hsplit
        exact htail before line' after hsplit'

-- By induction on the lines: the two runs are the same up to a line that is cut behind an invalid byte, and from
-- there on the results are too many.
theorem readPieces_iff (handle : List (Result C) → Handled)
    (h : Waiting P s) (results : List (Result C)) (lines : List (Line size)) :
    (Whole P handle lines (results, s) →
        readPieces P handle lines (results, s) = readLines P handle lines (results, s)) ∧
      (¬Whole P handle lines (results, s) →
        results.length + lines.length < (readPieces P handle lines (results, s)).1.length) := by
  induction lines generalizing results s with
  | nil => exact ⟨fun _ => rfl, fun hnot => absurd (fun before line after hsplit => by simp at hsplit) hnot⟩
  | cons line lines ih =>
      obtain ⟨last, -, -, hlf, -⟩ := line.split
      have hiff := passes_iff h.ready hlf
      rw [whole_cons, ← hiff]
      by_cases hpasses : Passes P [] line.early s.parse
      · obtain ⟨r, p, hwhole, hclosed, -, -⟩ := whole_line handle h results line
        have hlength := (settle_spec P handle results s line.pieces.flatten r).1
        obtain ⟨hsame, hmore⟩ := ih (settle_waiting handle hclosed results s line.pieces.flatten)
          (settle P handle results s line.pieces.flatten r).1
        rw [readPieces, readLines, List.foldl_cons, List.foldl_cons, feed_line h results line hpasses, hwhole]
        refine ⟨fun hall => hsame hall.2, fun hnot => ?_⟩
        have hlt : _ < (readPieces P handle lines (settle P handle results s line.pieces.flatten r)).1.length :=
          hmore fun htail => hnot ⟨hpasses, htail⟩
        rw [hlength] at hlt
        rw [List.length_cons]
        rw [readPieces] at hlt
        omega
      · refine ⟨fun hall => absurd hall.1 hpasses, fun _ => ?_⟩
        obtain ⟨results', s', hline, hpos', htwo⟩ := line_twice handle h results line hpasses
        have hrest := lines_grow P handle hpos' results' lines
        rw [readPieces, List.foldl_cons, hline, List.length_cons]
        rw [readPieces] at hrest
        omega

theorem settle_of (P : Protocol C) (handle : List (Result C) → Handled)
    {p : Nat} {r : Stop C} (hr : StopClosed p r) (results : List (Result C)) (s : Session C)
    {line : Bytes} (hlt : p < line.length) :
    ∃ result, (settle P handle results s line r).1 = results ++ [result] ∧ result.Of line := by
  cases r with
  | invalid parse => exact ⟨_, rfl, trivial⟩
  | done parse =>
      refine ⟨_, rfl, rfl, fun arg harg => ?_⟩
      rw [done_closed hr] at harg
      obtain ⟨d, hdata, hlen, hend⟩ := hr.args arg harg
      exact ⟨d, hdata, hlen, by omega⟩

theorem readLines_of (handle : List (Result C) → Handled)
    (h : Waiting P s) (results : List (Result C)) (lines : List (Line size)) :
    ∃ more, (readLines P handle lines (results, s)).1 = results ++ more ∧
      List.Forall₂ (fun result line => result.Of line.pieces.flatten) more lines := by
  induction lines generalizing results s with
  | nil => exact ⟨[], (List.append_nil results).symm, .nil⟩
  | cons line lines ih =>
      obtain ⟨r, p, hwhole, hclosed, hlt, -⟩ := whole_line handle h results line
      obtain ⟨result, hresult, hof⟩ := settle_of P handle hclosed results s hlt
      obtain ⟨more, hmore, hall⟩ := ih (settle_waiting handle hclosed results s line.pieces.flatten)
        (settle P handle results s line.pieces.flatten r).1
      refine ⟨result :: more, ?_, .cons hof hall⟩
      rw [readLines, List.foldl_cons, hwhole]
      rw [readLines] at hmore
      rw [hmore, hresult, List.append_assoc, List.singleton_append]

end

section

variable {C : Type} [DecidableEq C] {size : Nat}

-- The results of a connection, cut as the lines are
def readResults (P : Protocol C) (handle : List (Result C) → Handled) (lines : List (Line size)) : List (Result C) :=
  (readPieces P handle lines ([], newSession C)).1

def wholeResults (P : Protocol C) (handle : List (Result C) → Handled) (lines : List (Line size)) : List (Result C) :=
  (readLines P handle lines ([], newSession C)).1

-- One result a line, that of the line in one read, with slices of the line
def Faithful (P : Protocol C) (handle : List (Result C) → Handled) (lines : List (Line size)) : Prop :=
  readResults P handle lines = wholeResults P handle lines ∧
    List.Forall₂ (fun result line => result.Of line.pieces.flatten) (readResults P handle lines) lines

theorem faithful_iff (P : Protocol C) (handle : List (Result C) → Handled) (lines : List (Line size)) :
    Faithful P handle lines ↔ Whole P handle lines ([], newSession C) := by
  obtain ⟨hsame, hmore⟩ := readPieces_iff handle (newSession_waiting P) [] lines
  constructor
  · rintro ⟨-, hall⟩
    by_contra hnot
    have hlt := hmore hnot
    have hlength := hall.length_eq
    rw [readResults] at hlength
    simp only [List.length_nil, Nat.zero_add] at hlt
    omega
  · intro hwhole
    have heq : readResults P handle lines = wholeResults P handle lines := by
      rw [readResults, wholeResults, hsame hwhole]
    obtain ⟨more, hresults, hall⟩ := readLines_of handle (newSession_waiting P) [] lines
    rw [List.nil_append] at hresults
    refine ⟨heq, ?_⟩
    rw [heq, wholeResults, hresults]
    exact hall

end

theorem commands_whole_iff (ssl : Bool) (size : Nat) :
    (∀ (handle : List (Result Pop3) → Handled) (lines : List (Line size)),
      Faithful (pop3 ssl) handle lines ↔ Whole (pop3 ssl) handle lines ([], newSession Pop3)) ∧
    ∀ (handle : List (Result Smtp) → Handled) (lines : List (Line size)),
      Faithful (smtp ssl) handle lines ↔ Whole (smtp ssl) handle lines ([], newSession Smtp) :=
  ⟨faithful_iff (pop3 ssl), faithful_iff (smtp ssl)⟩

-- The first byte comes alone, and is no letter.
def digitFirst : Line 128 where
  pieces := [ngxString "1", ngxString "QUIT\r\n"]
  pieces_ne := by decide
  ends := ⟨ngxString "1QUIT\r", by decide⟩
  short := by decide

theorem digit_two_results :
    readResults (pop3 true) (fun _ => .ok false) [digitFirst] = [.invalid, .command (some .quit) [] (ngxString "QUIT\r\n")] ∧
      wholeResults (pop3 true) (fun _ => .ok false) [digitFirst] = [.invalid] ∧
      ¬Faithful (pop3 true) (fun _ => .ok false) [digitFirst] := by
  have hresults : readResults (pop3 true) (fun _ => .ok false) [digitFirst] =
      [.invalid, .command (some .quit) [] (ngxString "QUIT\r\n")] := by decide +kernel
  have hwhole : wholeResults (pop3 true) (fun _ => .ok false) [digitFirst] = [.invalid] := by decide +kernel
  refine ⟨hresults, hwhole, fun h => ?_⟩
  rw [Faithful, hresults, hwhole] at h
  exact absurd (congrArg List.length h.1) (by decide)

end Nginx.MailCommand
