import Nginx.Core.Escape

namespace Nginx.Script

-- A pair of cells of r->captures that is not (-1, -1)
structure Span (len : Nat) where
  first : Nat
  last : Nat
  ordered : first ≤ last
  inside : last ≤ len
  deriving DecidableEq, Repr

-- r->captures_data with r->captures; r->ncaptures is twice the number of groups.
structure Captures where
  data : Bytes
  groups : List (Option (Span data.length))
  deriving DecidableEq

-- captures[n + 1] - captures[n] of a group
def Captures.len (c : Captures) (n : Nat) : Nat :=
  match c.groups[n]? with
  | some (some span) => span.last - span.first
  | _ => 0

def Captures.text (c : Captures) (n : Nat) : Bytes :=
  match c.groups[n]? with
  | some (some span) => (c.data.drop span.first).take (span.last - span.first)
  | _ => []

theorem Captures.text_length (c : Captures) (n : Nat) : (c.text n).length = c.len n := by
  unfold Captures.text Captures.len
  split
  · rename_i span _
    have hinside := span.inside
    simp only [List.length_take, List.length_drop]
    omega
  · rfl

theorem Captures.text_of_le (c : Captures) (n : Nat) (h : c.groups.length ≤ n) : c.text n = [] := by
  unfold Captures.text
  rw [List.getElem?_eq_none h]

-- ngx_http_variable_value_t
structure Variable where
  data : Bytes
  valid : Bool
  noCacheable : Bool
  notFound : Bool
  deriving DecidableEq, Repr

-- The part of ngx_http_request_t that scripts read and write
structure Request where
  uri : Bytes
  args : Bytes
  quotedUri : Bool
  plusInUri : Bool
  captures : Captures
  vars : List Variable
  internal : Bool
  validUnparsedUri : Bool
  validLocation : Bool
  uriChanged : Bool
  location : Option Bytes
  deriving DecidableEq

-- What a get handler leaves behind. It can read other variables, and a map with regular expressions
-- leaves its own captures.
structure Answer where
  ok : Bool
  captures : Captures
  vars : List Variable

-- getHandler and noCacheable are of cmcf->variables, variableIndex is ngx_http_get_variable_index. The memory
-- of the request's pool answers pnalloc and listPush.
structure Conf where
  getHandler : Nat → Request → Answer
  noCacheable : Nat → Bool
  variableIndex : Bytes → Option Nat
  pnalloc : Nat → Bool
  listPush : Bool

def Request.setVariable (r : Request) (index : Nat) (f : Variable → Variable) : Request :=
  { r with vars := r.vars.modify index f }

def getIndexedVariable (conf : Conf) (r : Request) (index : Nat) : Option Variable × Request :=
  match r.vars[index]? with
  | none => (none, r)
  | some v =>
      if v.notFound || v.valid then (some v, r)
      else
        let answer := conf.getHandler index r
        let r := { r with captures := answer.captures, vars := answer.vars }
        if answer.ok then
          let r := if conf.noCacheable index then
              r.setVariable index fun v => { v with noCacheable := true }
            else r
          (r.vars[index]?, r)
        else (none, r.setVariable index fun v => { v with valid := false, notFound := true })

def getFlushedVariable (conf : Conf) (r : Request) (index : Nat) : Option Variable × Request :=
  match r.vars[index]? with
  | none => (none, r)
  | some v =>
      if v.valid || v.notFound then
        if v.noCacheable then
          getIndexedVariable conf
            (r.setVariable index fun v => { v with valid := false, notFound := false }) index
        else (some v, r)
      else getIndexedVariable conf r index

-- The bytes that a reference to a variable stands for
def readVariable (conf : Conf) (r : Request) (index : Nat) : Bytes × Request :=
  let (value, r) := getFlushedVariable conf r index
  match value with
  | some v => (if v.notFound then [] else v.data, r)
  | none => ([], r)

-- A code of the value program. The length program has the code of the same operand at the same place.
inductive Code where
  | copy (text : Bytes)
  | copyVar (index : Nat)
  | startArgs
  | copyCapture (n : Nat)
  deriving DecidableEq, Repr

-- ngx_http_script_compile_t
structure Compile where
  codes : List Code
  nvariables : Nat
  capturesMask : Nat
  size : Nat
  compileArgs : Bool
  zero : Bool
  dupCapture : Bool
  args : Bool
  deriving DecidableEq, Repr

def Compile.addCode (sc : Compile) (code : Code) : Compile := { sc with codes := sc.codes ++ [code] }

def Compile.addCopyCode (sc : Compile) (value : Bytes) (last : Bool) : Compile :=
  if sc.zero && last then { sc.addCode (.copy (value ++ [0])) with zero := false }
  else sc.addCode (.copy value)

def Compile.addCapture (sc : Compile) (n : Nat) : Compile :=
  let sc := { sc with
    dupCapture := sc.dupCapture || sc.capturesMask.testBit n
    capturesMask := sc.capturesMask ||| 2 ^ n }
  sc.addCode (.copyCapture n)

def Compile.addVar (conf : Conf) (sc : Compile) (name : Bytes) : Option Compile :=
  match conf.variableIndex name with
  | some index => some ({ sc with nvariables := sc.nvariables + 1 }.addCode (.copyVar index))
  | none => none

def isName (ch : UInt8) : Bool :=
  (65 ≤ ch && ch ≤ 90) || (97 ≤ ch && ch ≤ 122) || (48 ≤ ch && ch ≤ 57) || ch == 95

-- What follows a '$': a digit of a capture, a name, or a name in brackets.
def Compile.dollar (conf : Conf) (sc : Compile) : Bytes → Option (Compile × Bytes)
  | [] => none
  | ch :: src =>
      if 49 ≤ ch ∧ ch ≤ 57 then some (sc.addCapture (ch.toNat - 48), src)
      else if ch = 123 then
        match src.takeWhile isName, src.dropWhile isName with
        | [], _ => none
        | name, 125 :: rest => (sc.addVar conf name).map fun sc => (sc, rest)
        | _, _ => none
      else
        match (ch :: src).takeWhile isName, (ch :: src).dropWhile isName with
        | [], _ => none
        | name, rest => (sc.addVar conf name).map fun sc => (sc, rest)

-- A text runs to the next '$', and to the next '?' as long as no '?' has been seen.
def Compile.inText (sc : Compile) (ch : UInt8) : Bool := ch != 36 && !(ch == 63 && sc.compileArgs)

def Compile.text (sc : Compile) (src : Bytes) : Compile × Bytes :=
  let name := src.takeWhile sc.inText
  let rest := src.dropWhile sc.inText
  let sc := { sc with
    args := sc.args || name.contains 63 || rest.head? == some 63
    size := sc.size + name.length }
  (sc.addCopyCode name rest.isEmpty, rest)

-- One turn of the loop of ngx_http_script_compile
def Compile.turn (conf : Conf) (sc : Compile) (ch : UInt8) (src : Bytes) : Option (Compile × Bytes) :=
  if ch = 36 then sc.dollar conf src
  else if ch = 63 ∧ sc.compileArgs then
    some ({ sc with args := true, compileArgs := false }.addCode .startArgs, src)
  else some (sc.text (ch :: src))

-- Each turn reads a byte at least, so the length of the source is enough fuel.
def Compile.loop (conf : Conf) : Nat → Compile → Bytes → Option Compile
  | _, sc, [] => some sc
  | 0, _, _ :: _ => none
  | fuel + 1, sc, ch :: src =>
      match sc.turn conf ch src with
      | some (sc, rest) => Compile.loop conf fuel sc rest
      | none => none

def Compile.done (sc : Compile) : Compile := if sc.zero then sc.addCopyCode [0] false else sc

-- ngx_http_script_compile. ngx_http_script_init_arrays clears variables.
def compile (conf : Conf) (sc : Compile) (source : Bytes) : Option Compile :=
  (Compile.loop conf source.length { sc with nvariables := 0 } source).map Compile.done

-- The flags of ngx_http_script_engine_t that a length program reads and sets
structure LengthEngine where
  isArgs : Bool
  quote : Bool
  deriving DecidableEq, Repr

-- ngx_http_script_engine_t. buf holds what has been written from buf.data to pos, args is an offset in it,
-- sp is the stack with its top first.
structure Engine where
  buf : Bytes
  bufLen : Nat
  args : Option Nat
  isArgs : Bool
  quote : Bool
  sp : List Bytes
  status : Int
  deriving DecidableEq, Repr

def Request.escapes (r : Request) : Bool := r.quotedUri || r.plusInUri

-- ngx_http_script_copy_len_code and the other length codes
def Code.length (conf : Conf) (code : Code) (r : Request) (le : LengthEngine) :
    Nat × Request × LengthEngine :=
  match code with
  | .copy text => (text.length, r, le)
  | .copyVar index =>
      let (value, r) := readVariable conf r index
      (value.length, r, le)
  | .startArgs => (1, r, { le with isArgs := true })
  | .copyCapture n =>
      if (le.isArgs || le.quote) && r.escapes then
        (r.captures.len n + 2 * escapeCount .args (r.captures.text n), r, le)
      else (r.captures.len n, r, le)

def runLengths (conf : Conf) : List Code → Request → LengthEngine → Nat × Request × LengthEngine
  | [], r, le => (0, r, le)
  | code :: codes, r, le =>
      let (len, r, le) := code.length conf r le
      let (rest, r, le) := runLengths conf codes r le
      (len + rest, r, le)

-- ngx_http_script_copy_code and the other value codes
def Code.run (conf : Conf) (code : Code) (r : Request) (e : Engine) : Request × Engine :=
  match code with
  | .copy text => (r, { e with buf := e.buf ++ text })
  | .copyVar index =>
      let (value, r) := readVariable conf r index
      (r, { e with buf := e.buf ++ value })
  | .startArgs => (r, { e with isArgs := true, args := some e.buf.length })
  | .copyCapture n =>
      if (e.isArgs || e.quote) && r.escapes then
        (r, { e with buf := e.buf ++ escapeUri .args (r.captures.text n) })
      else (r, { e with buf := e.buf ++ r.captures.text n })

def runValues (conf : Conf) : List Code → Request → Engine → Request × Engine
  | [], r, e => (r, e)
  | code :: codes, r, e =>
      let (r, e) := code.run conf r e
      runValues conf codes r e

end Nginx.Script
