import Nginx.Core.Bytes

namespace Nginx.ConfFile

-- NGX_CONF_BUFFER
def bufferSize : Nat := 4096

-- The file and file.offset, what stands between b->start and b->last, and b->pos - b->start
structure Conf where
  file : Bytes
  offset : Nat
  buf : Bytes
  pos : Nat

-- What is logged: the end of the file, "too long parameter" with the quote that may be missing, or "unexpected"
inductive Err where
  | eof
  | tooLong (quote : Option UInt8)
  | unexpected (ch : UInt8)
deriving DecidableEq, Repr

-- NGX_OK, NGX_CONF_BLOCK_START, NGX_CONF_BLOCK_DONE, NGX_CONF_FILE_DONE and NGX_ERROR
inductive Rc where
  | ok
  | blockStart
  | blockDone
  | fileDone
  | error (e : Err)
deriving DecidableEq, Repr

structure Flags where
  needSpace : Bool := false
  lastSpace : Bool := true
  sharpComment : Bool := false
  inVariable : Bool := false
  quoted : Bool := false
  sQuoted : Bool := false
  dQuoted : Bool := false

def isBlank (ch : UInt8) : Bool := ch == 32 || ch == 9 || ch == 13 || ch == 10

-- What a byte does: nothing but to the flags, start = b->pos less some bytes, found, or a return
inductive Turn where
  | next (flags : Flags)
  | start (back : Nat) (flags : Flags)
  | found (flags : Flags)
  | stop (rc : Rc)

-- if (last_space)
def spaceTurn (flags : Flags) (nelts : Nat) (ch : UInt8) : Turn :=
  if isBlank ch then .next flags
  else if ch = 59 ∨ ch = 123 then
    if nelts = 0 then .stop (.error (.unexpected ch)) else if ch = 123 then .stop .blockStart else .stop .ok
  else if ch = 125 then
    if nelts ≠ 0 then .stop (.error (.unexpected 125)) else .stop .blockDone
  else if ch = 35 then .start 1 { flags with sharpComment := true }
  else if ch = 92 then .start 1 { flags with quoted := true, lastSpace := false }
  else if ch = 34 then .start 0 { flags with dQuoted := true, lastSpace := false }
  else if ch = 39 then .start 0 { flags with sQuoted := true, lastSpace := false }
  else .start 1 { flags with lastSpace := false }

-- Its else
def wordTurn (flags : Flags) (ch : UInt8) : Turn :=
  if ch = 123 ∧ flags.inVariable then .next flags
  else
    let flags := { flags with inVariable := false }
    if ch = 92 then .next { flags with quoted := true }
    else if ch = 36 then .next { flags with inVariable := true }
    else if flags.dQuoted then
      if ch = 34 then .found { flags with dQuoted := false, needSpace := true } else .next flags
    else if flags.sQuoted then
      if ch = 39 then .found { flags with sQuoted := false, needSpace := true } else .next flags
    else if isBlank ch ∨ ch = 59 ∨ ch = 123 then .found { flags with lastSpace := true }
    else .next flags

-- The loop behind ch = *b->pos++, up to the word that is found
def turn (flags : Flags) (nelts : Nat) (ch : UInt8) : Turn :=
  let flags := if ch = 10 then { flags with sharpComment := false } else flags
  if flags.sharpComment then .next flags
  else if flags.quoted then .next { flags with quoted := false }
  else if flags.needSpace then
    if isBlank ch then .next { flags with lastSpace := true, needSpace := false }
    else if ch = 59 then .stop .ok
    else if ch = 123 then .stop .blockStart
    else if ch = 41 then spaceTurn { flags with lastSpace := true, needSpace := false } nelts ch
    else .stop (.error (.unexpected ch))
  else if flags.lastSpace then spaceTurn flags nelts ch
  else wordTurn flags ch

-- The copy of a word from src on; the last byte is the one at b->pos - 1.
def copyWord : Bytes → Bytes
  | c :: d :: src =>
      if c = 92 ∧ (d = 34 ∨ d = 39 ∨ d = 92) then d :: copyWord src
      else if c = 92 ∧ d = 116 then 9 :: copyWord src
      else if c = 92 ∧ d = 114 then 13 :: copyWord src
      else if c = 92 ∧ d = 110 then 10 :: copyWord src
      else c :: copyWord (d :: src)
  | _ => []

-- if (b->pos >= b->last): a return, or the buffer and start
def refill (f : Conf) (start : Nat) (flags : Flags) (nelts : Nat) : Rc ⊕ Conf × Nat :=
  if f.pos ≥ f.buf.length then
    if f.offset ≥ f.file.length then .inl (if nelts > 0 then .error .eof else .fileDone)
    else
      let len := f.pos - start
      if len = bufferSize then
        .inl (.error (.tooLong (if flags.dQuoted then some 34 else if flags.sQuoted then some 39 else none)))
      else
        let size := min (f.file.length - f.offset) (bufferSize - len)
        .inr ({ f with
          buf := (f.buf.drop start).take len ++ (f.file.drop f.offset).take size
          offset := f.offset + size
          pos := len }, 0)
  else .inr (f, start)

-- for ( ;; ), with a turn for each byte that is left and one for the end
def readLoop : Nat → Conf → Nat → Flags → List Bytes → Rc × List Bytes × Conf
  | 0, f, _, _, args => (.error .eof, args, f)
  | fuel + 1, f, start, flags, args =>
      match refill f start flags args.length with
      | .inl rc => (rc, args, f)
      | .inr (f, start) =>
          let ch := f.buf.getD f.pos 0
          let f := { f with pos := f.pos + 1 }
          match turn flags args.length ch with
          | .next flags => readLoop fuel f start flags args
          | .start back flags => readLoop fuel f (f.pos - back) flags args
          | .found flags =>
              let args := args ++ [copyWord ((f.buf.take f.pos).drop start)]
              if ch = 59 then (.ok, args, f)
              else if ch = 123 then (.blockStart, args, f)
              else readLoop fuel f start flags args
          | .stop rc => (rc, args, f)

def Conf.left (f : Conf) : Nat := f.buf.length - f.pos + (f.file.length - f.offset)

-- ngx_conf_read_token: its result and cf->args
def readToken (f : Conf) : Rc × List Bytes × Conf := readLoop (f.left + 1) f f.pos {} []

-- No token follows an error or the end of the file.
def Rc.final : Rc → Bool
  | .fileDone => true
  | .error _ => true
  | _ => false

-- The calls of ngx_conf_read_token for a file; each but the last one takes a byte.
def readTokens : Nat → Conf → List (Rc × List Bytes)
  | 0, _ => []
  | fuel + 1, f =>
      let (rc, args, f) := readToken f
      (rc, args) :: if rc.final then [] else readTokens fuel f

def Conf.opened (file : Bytes) : Conf := ⟨file, 0, [], 0⟩

def tokens (file : Bytes) : List (Rc × List Bytes) := readTokens (file.length + 1) (.opened file)

-- Where a byte stands in an unbounded text
inductive Place where
  | space
  | comment
  | word
  | quote (q : UInt8)
  | closed
deriving DecidableEq

-- The place, whether a backslash or a dollar stands before, the word so far and the words before it
structure Lex where
  place : Place := .space
  escaped : Bool := false
  dollar : Bool := false
  word : Bytes := []
  args : List Bytes := []

inductive Move where
  | go (s : Lex)
  | done (rc : Rc) (args : List Bytes)

-- Whether a dollar that begins a word takes a brace into it, and whether a brace that was taken takes the next one
structure Dialect where
  begins : Bool
  repeats : Bool

-- "{" belongs to the word if it directly follows "$".
def reference : Dialect := ⟨true, false⟩

-- What the flags of ngx_conf_read_token do instead
def asRead : Dialect := ⟨false, true⟩

-- What a backslash and the byte behind it stand for
def escape (c : UInt8) : Bytes :=
  if c = 34 ∨ c = 39 ∨ c = 92 then [c]
  else if c = 116 then [9]
  else if c = 114 then [13]
  else if c = 110 then [10]
  else [92, c]

-- A byte where a word may begin
def opening (d : Dialect) (args : List Bytes) (c : UInt8) : Move :=
  if isBlank c then .go { args }
  else if c = 59 ∨ c = 123 then
    if args = [] then .done (.error (.unexpected c)) args else .done (if c = 123 then .blockStart else .ok) args
  else if c = 125 then
    if args = [] then .done .blockDone args else .done (.error (.unexpected c)) args
  else if c = 35 then .go { place := .comment, args }
  else if c = 92 then .go { place := .word, escaped := true, args }
  else if c = 34 ∨ c = 39 then .go { place := .quote c, args }
  else .go { place := .word, dollar := d.begins && c == 36, word := [c], args }

def step (d : Dialect) (s : Lex) (c : UInt8) : Move :=
  match s.place with
  | .space => opening d s.args c
  | .comment => if c = 10 then .go { args := s.args } else .go s
  | .closed =>
      if isBlank c then .go { args := s.args }
      else if c = 59 then .done .ok s.args
      else if c = 123 then .done .blockStart s.args
      else if c = 41 then opening d s.args c
      else .done (.error (.unexpected c)) s.args
  | .quote q =>
      if s.escaped then .go { s with escaped := false, word := s.word ++ escape c }
      else if c = 92 then .go { s with escaped := true }
      else if c = q then .go { place := .closed, args := s.args ++ [s.word] }
      else .go { s with word := s.word ++ [c] }
  | .word =>
      if s.escaped then .go { s with escaped := false, word := s.word ++ escape c }
      else if c = 123 ∧ s.dollar then .go { s with dollar := d.repeats, word := s.word ++ [c] }
      else if c = 92 then .go { s with escaped := true, dollar := false }
      else if isBlank c then .go { args := s.args ++ [s.word] }
      else if c = 59 then .done .ok (s.args ++ [s.word])
      else if c = 123 then .done .blockStart (s.args ++ [s.word])
      else .go { s with dollar := c == 36, word := s.word ++ [c] }

def Lex.eof (s : Lex) : Rc := if s.args = [] then .fileDone else .error .eof

-- One token: the result, its words and the text behind it
def token (d : Dialect) : Lex → Bytes → Rc × List Bytes × Bytes
  | s, [] => (s.eof, s.args, [])
  | s, c :: text =>
      match step d s c with
      | .go s => token d s text
      | .done rc args => (rc, args, text)

def tokensFrom (d : Dialect) : Nat → Bytes → List (Rc × List Bytes)
  | 0, _ => []
  | fuel + 1, text =>
      let (rc, args, text) := token d {} text
      (rc, args) :: if rc.final then [] else tokensFrom d fuel text

-- The tokens of a text in the reference grammar
def referenceTokens (text : Bytes) : List (Rc × List Bytes) := tokensFrom reference (text.length + 1) text

-- start is set at this byte.
def starts (s : Lex) (c : UInt8) : Bool := (s.place = .space && !isBlank c) || (s.place = .closed && c == 41)

-- How many bytes stand between start and b->pos when the byte is read
def advance (n : Nat) (s : Lex) (c : UInt8) : Nat :=
  if starts s c then (if c = 34 ∨ c = 39 then 0 else 1) else n + 1

-- A dollar and a brace that is read in another way: at the beginning of a word, or before one more brace
def Misread (s : Lex) (c : UInt8) (text : Bytes) : Prop :=
  s.place = .word ∧ s.escaped = false ∧ s.dollar = true ∧ c = 123 ∧ (s.word = [36] ∨ text.head? = some 123)

instance (s : Lex) (c : UInt8) (text : Bytes) : Decidable (Misread s c text) := inferInstanceAs (Decidable (_ ∧ _))

-- What begins at some byte, with the blanks behind it, ends within the buffer, and no brace is misread.
def Fits : Nat → Lex → Bytes → Prop
  | _, _, [] => True
  | n, s, c :: text =>
      n < bufferSize ∧ ¬ Misread s c text ∧
        match step reference s c with
        | .go s' => Fits (advance n s c) s' text
        | .done _ _ => True

def AllFit : Nat → Bytes → Prop
  | 0, _ => True
  | fuel + 1, text =>
      Fits 0 {} text ∧
        ((token reference {} text).1.final = false → AllFit fuel (token reference {} text).2.2)

-- The same for every token of a text
def Readable (text : Bytes) : Prop := AllFit (text.length + 1) text

end Nginx.ConfFile
