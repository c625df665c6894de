import Nginx.Core.Bytes

namespace Nginx.Http.Ssi

inductive State
  | start | tag | comment0 | comment1 | sharp | precommand | command | preparam | param | preequal | prevalue
  | doubleQuotedValue | quotedValue | quotedSymbol | postparam | commentEnd0 | commentEnd1 | error | errorEnd0
  | errorEnd1
  deriving DecidableEq, Repr

-- A parameter: room is the size of the memory at value.data.
structure Param where
  key : Bytes
  value : Bytes
  room : Nat
  deriving DecidableEq, Repr

-- What the parser uses of ngx_http_ssi_ctx_t. Offsets count from buf->pos, none is NULL, params
-- has the last parameter first, and value_buf is known by the size of its memory.
structure Ctx where
  state : State
  savedState : State
  pos : Nat
  copyStart : Option Nat
  copyEnd : Option Nat
  looked : Nat
  saved : Nat
  key : Nat
  command : Bytes
  params : List Param
  valueBuf : Option Nat
  valueLen : Nat
  deriving DecidableEq, Repr

-- ctx as ngx_pcalloc and the header filter leave it.
def initial (valueLen : Nat) : Ctx :=
  ⟨.start, .start, 0, none, none, 0, 0, 0, [], [], none, valueLen⟩

inductive Rc | ok | error | again | ssiError
  deriving DecidableEq, Repr

-- A byte that is stored at an offset of memory of a size.
structure Write where
  offset : Nat
  room : Nat
  deriving DecidableEq, Repr

-- Which allocations succeed while a byte is handled.
structure Pool where
  command : Bool
  push : Bool
  key : Bool
  value : Bool

-- A turn of the loop: rc is none while the loop goes on.
structure Turn where
  rc : Option Rc
  ctx : Ctx
  writes : List Write
  log : Option Bytes
  deriving DecidableEq, Repr

def commandLen : Nat := 32

def paramLen : Nat := 32

-- case ' ', CR, LF and '\t'
def blank (ch : UInt8) : Bool := ch = 32 ∨ ch = 13 ∨ ch = 10 ∨ ch = 9

-- ngx_hash
def hash (key : Nat) (ch : UInt8) : Nat := (key * 31 + ch.toNat) % 2 ^ 64

def Ctx.go (c : Ctx) (state : State) : Turn := ⟨none, { c with state }, [], none⟩

def Ctx.fail (c : Ctx) (state : State) (log : String) : Turn := ⟨none, { c with state }, [], some (ngxString log)⟩

-- A return of NGX_OK or NGX_HTTP_SSI_ERROR behind "-->".
def Ctx.leave (c : Ctx) (p : Nat) (rc : Rc) : Turn :=
  let copyStart := if c.copyStart = none ∧ c.copyEnd ≠ none then some 0 else c.copyStart
  ⟨some rc, { c with state := .start, pos := p + 1, copyStart }, [], none⟩

-- copy_end = p in the states of a directive that may begin here.
def Ctx.maybe (c : Ctx) (p : Nat) (ch : UInt8) : Turn :=
  if ch = 60 then ⟨none, { c with copyEnd := some p, looked := 1, state := .tag }, [], none⟩
  else ⟨none, { c with copyEnd := some p, looked := 0, state := .start }, [], none⟩

-- ctx->param->key.data[ctx->param->key.len++] = ch
def Ctx.pushKey (c : Ctx) (ch : UInt8) (state : State) (log : Option Bytes) : Turn :=
  match c.params with
  | [] => ⟨none, { c with state }, [], log⟩
  | p :: rest =>
      ⟨none, { c with state, params := { p with key := p.key ++ [ch] } :: rest }, [⟨p.key.length, paramLen⟩], log⟩

-- ctx->param->value.data[ctx->param->value.len++] = ch
def Ctx.pushValue (c : Ctx) (ch : UInt8) (state : State) : Turn :=
  match c.params with
  | [] => ⟨none, { c with state }, [], none⟩
  | p :: rest =>
      ⟨none, { c with state, params := { p with value := p.value ++ [ch] } :: rest }, [⟨p.value.length, p.room⟩], none⟩

def Ctx.keyLen (c : Ctx) : Nat := (c.params.headD ⟨[], [], 0⟩).key.length

def Ctx.currentLen (c : Ctx) : Nat := (c.params.headD ⟨[], [], 0⟩).value.length

-- The two states inside of quotes, with their quote.
def valueState (c : Ctx) (quote : UInt8) (self : State) (ch : UInt8) : Turn :=
  if ch = quote then c.go .postparam
  else
    let (c, state) := if ch = 92 then ({ c with savedState := self }, State.quotedSymbol) else (c, self)
    if c.currentLen = c.valueLen then
      c.fail .error "too long \"%V%c...\" value of \"%V\" parameter in \"%V\" SSI command"
    else c.pushValue ch state

-- The value moves to memory of its own size when that is worth it, and its memory is kept.
def keepValue (m : Pool) (c : Ctx) : Option (Ctx × List Write) :=
  match c.params with
  | [] => some (c, [])
  | p :: rest =>
      if p.value.length + 1 < c.valueLen / 2 then
        if !m.value then none
        else
          some ({ c with valueBuf := some p.room, params := { p with room := p.value.length + 1 } :: rest },
            (List.range p.value.length).map fun i => ⟨i, p.value.length + 1⟩)
      else some ({ c with valueBuf := none }, [])

-- The body of the loop. c has the local variables state, looked and copy_end in its fields. What
-- is set before an allocation that fails is left out: nothing reads it behind NGX_ERROR.
def turn (m : Pool) (c : Ctx) (p : Nat) (ch : UInt8) : Turn :=
  match c.state with
  | .start => if ch = 60 then c.maybe p ch else c.go .start
  | .tag =>
      if ch = 33 then ⟨none, { c with looked := 2, state := .comment0 }, [], none⟩
      else if ch = 60 then ⟨none, { c with copyEnd := some p }, [], none⟩
      else c.maybe p ch
  | .comment0 =>
      if ch = 45 then ⟨none, { c with looked := 3, state := .comment1 }, [], none⟩ else c.maybe p ch
  | .comment1 =>
      if ch = 45 then ⟨none, { c with looked := 4, state := .sharp }, [], none⟩ else c.maybe p ch
  | .sharp =>
      if ch = 35 then
        ⟨none, { c with saved := if p - c.pos < 4 then 0 else c.saved, looked := 0, state := .precommand }, [], none⟩
      else c.maybe p ch
  | .precommand =>
      if blank ch then c.go .precommand
      else if !m.command then ⟨some .error, c, [], none⟩
      else
        ⟨none, { c with command := [ch], key := hash 0 ch, params := [], state := .command }, [⟨0, commandLen⟩], none⟩
  | .command =>
      if blank ch then c.go .preparam
      else if ch = 45 then c.go .commentEnd0
      else if c.command.length = commandLen then c.fail .error "the \"%V%c...\" SSI command is too long"
      else
        ⟨none, { c with command := c.command ++ [ch], key := hash c.key ch }, [⟨c.command.length, commandLen⟩], none⟩
  | .preparam =>
      if blank ch then c.go .preparam
      else if ch = 45 then c.go .commentEnd0
      else if !m.push ∨ !m.key ∨ (c.valueBuf = none ∧ !m.value) then ⟨some .error, c, [], none⟩
      else
        ⟨none, { c with params := ⟨[ch], [], c.valueBuf.getD c.valueLen⟩ :: c.params, state := .param },
          [⟨0, paramLen⟩], none⟩
  | .param =>
      if blank ch then c.go .preequal
      else if ch = 61 then c.go .prevalue
      else if ch = 45 then
        c.pushKey ch .errorEnd0 (some (ngxString "invalid \"%V\" parameter in \"%V\" SSI command"))
      else if c.keyLen = paramLen then
        c.fail .error "too long \"%V%c...\" parameter in \"%V\" SSI command"
      else c.pushKey ch .param none
  | .preequal =>
      if blank ch then c.go .preequal
      else if ch = 61 then c.go .prevalue
      else
        c.fail (if ch = 45 then .errorEnd0 else .error)
          "unexpected \"%c\" symbol after \"%V\" parameter in \"%V\" SSI command"
  | .prevalue =>
      if blank ch then c.go .prevalue
      else if ch = 34 then c.go .doubleQuotedValue
      else if ch = 39 then c.go .quotedValue
      else
        c.fail (if ch = 45 then .errorEnd0 else .error)
          "unexpected \"%c\" symbol before value of \"%V\" parameter in \"%V\" SSI command"
  | .doubleQuotedValue => valueState c 34 .doubleQuotedValue ch
  | .quotedValue => valueState c 39 .quotedValue ch
  | .quotedSymbol => c.pushValue ch c.savedState
  | .postparam =>
      match keepValue m c with
      | none => ⟨some .error, c, [], none⟩
      | some (c, writes) =>
          if blank ch then { c.go .preparam with writes }
          else if ch = 45 then { c.go .commentEnd0 with writes }
          else
            { c.fail .error "unexpected \"%c\" symbol after \"%V\" value of \"%V\" parameter in \"%V\" SSI command" with
              writes }
  | .commentEnd0 =>
      if ch = 45 then c.go .commentEnd1 else c.fail .error "unexpected \"%c\" symbol in \"%V\" SSI command"
  | .commentEnd1 =>
      if ch = 62 then c.leave p .ok else c.fail .error "unexpected \"%c\" symbol in \"%V\" SSI command"
  | .error => if ch = 45 then c.go .errorEnd0 else c.go .error
  | .errorEnd0 => if ch = 45 then c.go .errorEnd1 else c.go .error
  | .errorEnd1 => if ch = 62 then c.leave p .ssiError else c.go .error

-- Behind the last byte.
def finish (c : Ctx) (p : Nat) : Ctx :=
  let copyEnd := if c.state = .start then some p else c.copyEnd
  { c with pos := p, copyEnd, copyStart := if c.copyStart = none ∧ copyEnd ≠ none then some 0 else c.copyStart }

-- The loop, over the bytes from p on. At NGX_ERROR the local variables are lost: entry is the
-- context with which ngx_http_ssi_parse was called.
def parseLoop (m : Nat → Pool) (entry : Ctx) : Bytes → Nat → Ctx → Rc × Ctx × List Write × List Bytes
  | [], p, c => (.again, finish c p, [], [])
  | ch :: rest, p, c =>
      let t := turn (m p) c p ch
      match t.rc with
      | some .error =>
          (.error, { t.ctx with state := entry.state, looked := entry.looked, copyEnd := entry.copyEnd }, t.writes, t.log.toList)
      | some rc => (rc, t.ctx, t.writes, t.log.toList)
      | none =>
          let (rc, c, writes, logs) := parseLoop m entry rest (p + 1) t.ctx
          (rc, c, t.writes ++ writes, t.log.toList ++ logs)

-- ngx_http_ssi_parse on the bytes of ctx->buf.
def parse (m : Nat → Pool) (buf : Bytes) (c : Ctx) : Rc × Ctx × List Write × List Bytes :=
  parseLoop m c (buf.drop c.pos) c.pos c

end Nginx.Http.Ssi
