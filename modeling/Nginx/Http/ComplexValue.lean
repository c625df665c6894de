import Nginx.Core.Hash
import Nginx.Http.Script
import Nginx.Library.WordMemory

namespace Nginx.ComplexValue

open Script WordMemory

-- The functions that a code can begin with.
inductive Op where
  | copyLen
  | copy
  | copyVarLen
  | copyVar
  | markArgs
  | startArgs
  | copyCaptureLen
  | copyCapture
deriving DecidableEq

-- What a uintptr_t of a code holds.
inductive Cell where
  | null
  | code (op : Op)
  | operand (n : Nat)
deriving DecidableEq

abbrev Slots := List (Slot Cell)

-- An ngx_array_t of bytes: nalloc is the length of elts.
structure Codes where
  elts : Slots
  nelts : Nat
  fits : nelts ≤ elts.length

-- What the pool answers to a push that finds no room: NULL, more bytes at the end of the array,
-- or another place.
inductive Growth where
  | null
  | inPlace
  | moved
deriving DecidableEq

-- ngx_array_init with elements of one byte
def arrayInit (n : Nat) : Codes := ⟨List.replicate n .junk, 0, Nat.zero_le _⟩

-- ngx_array_push_n of one-byte elements, and with it ngx_http_script_add_code: the offset of the
-- new code. sc->main is not read for a complex value.
def addCode (codes : Codes) (size : Nat) (pool : List Growth) : Option (Nat × Codes × List Growth) :=
  if h : codes.elts.length < codes.nelts + size then
    match pool with
    | .inPlace :: pool =>
        some (codes.nelts, ⟨codes.elts ++ List.replicate size .junk, codes.nelts + size, by
          have := codes.fits
          simp only [List.length_append, List.length_replicate]
          omega⟩, pool)
    | .moved :: pool =>
        let nalloc := 2 * if codes.elts.length ≤ size then size else codes.elts.length
        some (codes.nelts, ⟨codes.elts.take codes.nelts ++ List.replicate (nalloc - codes.nelts) .junk,
          codes.nelts + size, by
            have := codes.fits
            simp only [List.length_append, List.length_take, List.length_replicate, nalloc]
            split <;> omega⟩, pool)
    | _ => none
  else some (codes.nelts, ⟨codes.elts, codes.nelts + size, by omega⟩, pool)

def Codes.write (codes : Codes) (a : Nat) (xs : Slots) : Codes :=
  ⟨store codes.elts a xs, codes.nelts, Nat.le_trans codes.fits (length_le_store _ _ _)⟩

-- code->code = op and the word behind it
def Codes.put (codes : Codes) (a : Nat) (op : Op) (operand : Nat) : Codes :=
  (codes.write a (word (.code op))).write (a + 8) (word (.operand operand))

-- The arrays of ngx_http_script_compile_t, and the answers of the pool to come.
structure Arrays where
  flushes : List Nat
  lengths : Codes
  values : Codes
  pool : List Growth

-- ngx_http_script_add_copy_code for the bytes of value and, where it copies one, the zero.
def Arrays.addCopyCode (s : Arrays) (value : Bytes) : Option Arrays := do
  let (code, lengths, pool) ← addCode s.lengths 16 s.pool
  let lengths := lengths.put code .copyLen value.length
  let size := Hash.align (16 + value.length) 8
  let (code, values, pool) ← addCode s.values size pool
  let values := (values.put code .copy value.length).write (code + 16) (value.map .byte)
  return { s with lengths, values, pool }

def Arrays.addOperandCode (s : Arrays) (lcode code : Op) (operand : Nat) : Option Arrays := do
  let (a, lengths, pool) ← addCode s.lengths 16 s.pool
  let lengths := lengths.put a lcode operand
  let (a, values, pool) ← addCode s.values 16 pool
  let values := values.put a code operand
  return { s with lengths, values, pool }

def Arrays.addVarCode (s : Arrays) (index : Nat) : Option Arrays :=
  { s with flushes := s.flushes ++ [index] }.addOperandCode .copyVarLen .copyVar index

def Arrays.addCaptureCode (s : Arrays) (n : Nat) : Option Arrays :=
  s.addOperandCode .copyCaptureLen .copyCapture (2 * n)

-- A word behind each array: a code without an operand, and the NULL behind the last one.
def Arrays.addWords (s : Arrays) (lword word' : Cell) : Option Arrays := do
  let (a, lengths, pool) ← addCode s.lengths 8 s.pool
  let lengths := lengths.write a (word lword)
  let (a, values, pool) ← addCode s.values 8 pool
  let values := values.write a (word word')
  return { s with lengths, values, pool }

def Arrays.addArgsCode (s : Arrays) : Option Arrays := s.addWords (.code .markArgs) (.code .startArgs)

def Arrays.add (s : Arrays) : Code → Option Arrays
  | .copy text => s.addCopyCode text
  | .copyVar index => s.addVarCode index
  | .startArgs => s.addArgsCode
  | .copyCapture n => s.addCaptureCode n

-- The codes that ngx_http_script_compile finds, added in their order, and ngx_http_script_done
-- with complete_lengths and complete_values. Finding them reads neither array.
def emit (codes : List Code) (s : Arrays) : Option Arrays := do
  let s ← codes.foldlM Arrays.add s
  s.addWords .null .null

-- ngx_http_complex_value_t
structure Compiled where
  value : Bytes
  flushes : List Nat
  lengths : Option Slots
  values : Slots

-- The '$' in front of a digit and the others. The byte behind the string is the NUL of the
-- configuration token.
def countReferences : Bytes → Nat × Nat
  | [] => (0, 0)
  | ch :: rest =>
      let (nv, nc) := countReferences rest
      if ch = 36 then
        let next := rest.headD 0
        if 49 ≤ next ∧ next ≤ 57 then (nv, nc + 1) else (nv + 1, nc)
      else (nv, nc)

-- ngx_http_compile_complex_value without conf_prefix and root_prefix
def compileComplexValue (conf : Conf) (zero : Bool) (pool : List Growth) (v : Bytes) :
    Option Compiled := do
  if v = [] then none
  else
    let (nv, nc) := countReferences v
    if nv = 0 ∧ nc = 0 then return ⟨v, [], none, []⟩
    else
      let sc ← compile conf ⟨[], 0, 0, 0, false, zero, false, false⟩ v
      let s ← emit sc.codes ⟨[], arrayInit (nv * (2 * 16 + 16) + 8),
        arrayInit (Hash.align (nv * (2 * 16 + 16) + 8 + v.length) 8), pool⟩
      return ⟨v, s.flushes, some s.lengths.elts, s.values.elts⟩

-- The fields of ngx_http_script_engine_t: buf holds the bytes from buf.data to pos.
structure Engine where
  ip : Nat
  buf : Bytes
  args : Option Nat
  flushed : Bool
  skip : Bool
  quote : Bool
  isArgs : Bool
  request : Request

-- The bytes of a variable, none when it is not found.
def bytes : Option Variable → Bytes
  | some v => if v.notFound then [] else v.data
  | none => []

def readVar (conf : Conf) (e : Engine) (index : Nat) : Bytes × Engine :=
  let (value, request) :=
    if e.flushed then getIndexedVariable conf e.request index
    else getFlushedVariable conf e.request index
  (bytes value, { e with request })

def Engine.escapes (e : Engine) : Bool := (e.isArgs || e.quote) && e.request.escapes

-- lcode(&e): the operand n of a capture is twice the number of the group.
def lengthCode (conf : Conf) (lengths : Slots) (e : Engine) : Op → Option (Nat × Engine)
  | .copyLen =>
      match loadWord lengths (e.ip + 8) with
      | some (.operand len) => some (len, { e with ip := e.ip + 16 })
      | _ => none
  | .copyVarLen =>
      match loadWord lengths (e.ip + 8) with
      | some (.operand index) =>
          let (value, e) := readVar conf { e with ip := e.ip + 16 } index
          some (value.length, e)
      | _ => none
  | .markArgs => some (1, { e with isArgs := true, ip := e.ip + 8 })
  | .copyCaptureLen =>
      match loadWord lengths (e.ip + 8) with
      | some (.operand n) =>
          let captures := e.request.captures
          some (if e.escapes then captures.len (n / 2) + 2 * escapeCount .args (captures.text (n / 2))
            else captures.len (n / 2), { e with ip := e.ip + 16 })
      | _ => none
  | _ => none

-- code(&e)
def valueCode (conf : Conf) (values : Slots) (e : Engine) : Op → Option Engine
  | .copy =>
      match loadWord values (e.ip + 8) with
      | some (.operand len) => do
          let buf ← if e.skip then some e.buf else (loadBytes values (e.ip + 16) len).map (e.buf ++ ·)
          return { e with buf, ip := e.ip + 16 + Hash.align len 8 }
      | _ => none
  | .copyVar =>
      match loadWord values (e.ip + 8) with
      | some (.operand index) =>
          let e := { e with ip := e.ip + 16 }
          if e.skip then some e
          else
            let (value, e) := readVar conf e index
            some { e with buf := e.buf ++ value }
      | _ => none
  | .startArgs => some { e with isArgs := true, args := some e.buf.length, ip := e.ip + 8 }
  | .copyCapture =>
      match loadWord values (e.ip + 8) with
      | some (.operand n) =>
          let text := e.request.captures.text (n / 2)
          some { e with
            buf := e.buf ++ if e.escapes then escapeUri .args text else text
            ip := e.ip + 16 }
      | _ => none
  | _ => none

-- The loops over the codes; none when the fuel ends or no code stands at e.ip.
def runLengths (conf : Conf) (lengths : Slots) : Nat → Engine → Option (Nat × Engine)
  | 0, _ => none
  | fuel + 1, e =>
      match loadWord lengths e.ip with
      | some .null => some (0, e)
      | some (.code op) => do
          let (len, e) ← lengthCode conf lengths e op
          let (rest, e) ← runLengths conf lengths fuel e
          return (len + rest, e)
      | _ => none

def runValues (conf : Conf) (values : Slots) : Nat → Engine → Option Engine
  | 0, _ => none
  | fuel + 1, e =>
      match loadWord values e.ip with
      | some .null => some e
      | some (.code op) => do
          let e ← valueCode conf values e op
          runValues conf values fuel e
      | _ => none

-- ngx_http_script_flush_complex_value
def flushComplexValue (r : Request) (flushes : List Nat) : Request :=
  flushes.foldl (fun r index =>
    match r.vars[index]? with
    | some v =>
        if v.noCacheable then r.setVariable index fun v => { v with valid := false, notFound := false }
        else r
    | none => r) r

-- The length that is allocated and the bytes that are written from its start.
structure Value where
  len : Nat
  written : Bytes
deriving DecidableEq

-- ngx_http_complex_value; the inner none is NGX_ERROR.
def complexValue (conf : Conf) (r : Request) (val : Compiled) : Option (Option Value × Request) := do
  match val.lengths with
  | none => return (some ⟨val.value.length, val.value⟩, r)
  | some lengths =>
      let e : Engine := ⟨0, [], none, true, false, false, false, flushComplexValue r val.flushes⟩
      let (len, e) ← runLengths conf lengths (lengths.length + 1) e
      if conf.pnalloc len then
        let e ← runValues conf val.values (val.values.length + 1) { e with ip := 0 }
        return (some ⟨len, e.buf⟩, e.request)
      else return (none, e.request)

end Nginx.ComplexValue
