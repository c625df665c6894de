import Nginx.Http.Script.Compile

namespace Nginx.Script

-- The answer of pcre_exec: no match, a failure, or the groups it reports for the subject.
inductive Match (subject : Bytes) where
  | noMatch
  | failure
  | groups (groups : List (Option (Span subject.length)))

-- ngx_http_regex_t. variables gives the group and the index of each named capture.
structure Regex where
  exec : (subject : Bytes) → Match subject
  named : List (Nat × Nat)

inductive Executed where
  | declined
  | error
  | matched (r : Request)

def Request.setNamed (r : Request) (captures : Captures) : List (Nat × Nat) → Request
  | [] => r
  | (n, index) :: named =>
      let value : Variable := { data := captures.text n, valid := true, noCacheable := false, notFound := false }
      (r.setVariable index fun _ => value).setNamed captures named

-- ngx_http_regex_exec
def regexExec (re : Regex) (r : Request) (s : Bytes) : Executed :=
  match re.exec s with
  | .noMatch => .declined
  | .failure => .error
  | .groups groups =>
      let captures : Captures := { data := s, groups := groups }
      .matched { r.setNamed captures re.named with captures := captures }

-- ngx_http_script_regex_code_t with the value codes after it and with its end code
structure RegexCode where
  regex : Regex
  codes : List Code
  lengths : Option (List Code)
  size : Nat
  status : Int
  test : Bool
  negativeTest : Bool
  uri : Bool
  args : Bool
  addArgs : Bool
  redirect : Bool
  breakCycle : Bool

-- The codes of a directive. last tells whether a NULL code ends the program after them.
structure Directive where
  regex : RegexCode
  last : Bool

def movedPermanently : Int := 301
def movedTemporarily : Int := 302
def internalServerError : Int := 500

def redirects (replacement : Bytes) : Bool :=
  (ngxString "http://").isPrefixOf replacement || (ngxString "https://").isPrefixOf replacement
    || (ngxString "$scheme").isPrefixOf replacement

-- What a flag makes of status, redirect, break_cycle and last
def rewriteFlag (status : Int) (redirect last : Bool) : Option Bytes → Option (Int × Bool × Bool × Bool)
  | none => some (status, redirect, false, last)
  | some flag =>
      if flag = ngxString "last" then some (status, redirect, false, true)
      else if flag = ngxString "break" then some (status, redirect, true, true)
      else if flag = ngxString "redirect" then some (movedTemporarily, true, false, true)
      else if flag = ngxString "permanent" then some (movedPermanently, true, false, true)
      else none

-- ngx_http_rewrite, for a pattern that compiles to the regular expression
def rewrite (conf : Conf) (regex : Regex) (replacement : Bytes) (flag : Option Bytes) : Option Directive :=
  let addArgs := replacement.getLast? != some 63
  let source := if addArgs then replacement else replacement.dropLast
  let redirect := redirects replacement
  match rewriteFlag (if redirect then movedTemporarily else 0) redirect redirect flag with
  | none => none
  | some (status, redirect, breakCycle, last) =>
      let sc : Compile := {
        codes := []
        nvariables := (source.filter (· == 36)).length
        capturesMask := 0
        size := 0
        compileArgs := !redirect
        zero := false
        dupCapture := false
        args := false }
      match compile conf sc source with
      | none => none
      | some sc =>
          some {
            regex := {
              regex := regex
              codes := sc.codes
              lengths := if sc.nvariables = 0 ∧ sc.dupCapture = false then none else some sc.codes
              size := sc.size
              status := status
              test := false
              negativeTest := false
              uri := true
              args := sc.args
              addArgs := addArgs
              redirect := redirect
              breakCycle := breakCycle }
            last := last }

-- Where a code leaves e->ip: at the code after it, behind all codes of its directive, or at ngx_http_script_exit.
inductive Flow where
  | step
  | next
  | exit
  deriving DecidableEq, Repr

-- The bytes of the captures, with their escapes when the URI needs them: the size without a length program
def RegexCode.staticLen (code : RegexCode) (r : Request) : Nat :=
  let escapes :=
    if code.uri ∧ r.captures.groups ≠ [] ∧ r.escapes then 2 * escapeCount .args r.uri else 0
  code.size + escapes + ((List.range' 1 (r.captures.groups.length - 1)).map r.captures.len).sum

-- e->buf.len before the arguments are counted, the request after that, and e->is_args.
def RegexCode.bufLen (conf : Conf) (code : RegexCode) (r : Request) (isArgs : Bool) : Nat × Request × Bool :=
  match code.lengths with
  | none => (code.staticLen r, r, isArgs)
  | some lengths =>
      let (len, r, le) := runLengths conf lengths r { isArgs := false, quote := code.redirect }
      (len, r, le.isArgs)

def RegexCode.argsLen (code : RegexCode) (r : Request) : Nat :=
  if code.addArgs ∧ r.args ≠ [] then r.args.length + 1 else 0

def RegexCode.changeUri (code : RegexCode) (r : Request) : Request :=
  if code.uri then
    let r := { r with internal := true, validUnparsedUri := false }
    if code.breakCycle then { r with validLocation := false, uriChanged := false }
    else { r with uriChanged := true }
  else r

-- The part of ngx_http_script_regex_start_code that allocates the buffer
def RegexCode.allocate (conf : Conf) (code : RegexCode) (r : Request) (e : Engine) : Flow × Request × Engine :=
  let (len, r, isArgs) := code.bufLen conf r e.isArgs
  let e := { e with bufLen := len + code.argsLen r, isArgs := isArgs }
  if conf.pnalloc e.bufLen then (.step, r, { e with quote := code.redirect, buf := [] })
  else (.exit, r, { e with status := internalServerError })

def Engine.pushTest (e : Engine) (holds : Bool) : Engine :=
  { e with sp := (if holds then ngxString "1" else []) :: e.sp }

-- What ngx_http_script_regex_start_code does when the line matches
def RegexCode.matched (conf : Conf) (code : RegexCode) (r : Request) (e : Engine) : Flow × Request × Engine :=
  if code.test then (.step, r, e.pushTest !code.negativeTest)
  else
    let e := if code.status ≠ 0 then { e with status := code.status } else e
    if code.status ≠ 0 ∧ code.redirect = false then (.exit, r, e)
    else code.allocate conf (code.changeUri r) e

def RegexCode.execute (conf : Conf) (code : RegexCode) (line : Bytes) (r : Request) (e : Engine) :
    Flow × Request × Engine :=
  match regexExec code.regex r line with
  | .declined =>
      let r := { r with captures := { data := r.captures.data, groups := [] } }
      if code.test then (.step, r, e.pushTest code.negativeTest) else (.next, r, e)
  | .error => (.exit, r, { e with status := internalServerError })
  | .matched r => code.matched conf r e

-- ngx_http_script_regex_start_code. Without uri the line is the value on top of the stack.
def regexStart (conf : Conf) (code : RegexCode) (r : Request) (e : Engine) : Flow × Request × Engine :=
  if code.uri then code.execute conf r.uri r e
  else code.execute conf (e.sp.headD []) r { e with sp := e.sp.tail }

-- What ngx_http_script_regex_end_code writes after the replacement
def RegexCode.appended (code : RegexCode) (r : Request) (e : Engine) : Bytes :=
  if code.addArgs ∧ r.args ≠ [] then
    if code.redirect then (if code.args then 38 else 63) :: r.args
    else if e.args.isSome then 38 :: r.args
    else []
  else []

-- ngx_http_script_regex_end_code
def regexEnd (conf : Conf) (code : RegexCode) (r : Request) (e : Engine) : Flow × Request × Engine :=
  let e := { e with quote := false }
  let appended := code.appended r e
  if code.redirect then
    let (dst, rest) := unescapeUri .redirect .usual e.buf
    let buf := dst ++ rest ++ appended
    let e := { e with buf := buf, bufLen := buf.length }
    if conf.listPush then (.step, { r with location := some buf }, e)
    else (.exit, { r with location := none }, { e with status := internalServerError })
  else
    let (r, e) := match e.args with
      | some args =>
          let buf := e.buf ++ appended
          ({ r with args := buf.drop args }, { e with buf := buf, bufLen := args, args := none })
      | none =>
          (if code.addArgs then r else { r with args := [] }, { e with bufLen := e.buf.length })
    if code.uri then
      let r := { r with uri := e.buf.take e.bufLen }
      if r.uri = [] then (.exit, r, { e with status := internalServerError }) else (.step, r, e)
    else (.step, r, e)

-- The codes of a rewrite directive, one after the other
def rewriteRun (conf : Conf) (code : RegexCode) (r : Request) (e : Engine) : Flow × Request × Engine :=
  match regexStart conf code r e with
  | (.step, r, e) =>
      let (r, e) := runValues conf code.codes r e
      regexEnd conf code r e
  | stopped => stopped

-- The engine at the first code of ngx_http_rewrite_handler, with NGX_DECLINED for its status
def Engine.start : Engine :=
  { buf := [], bufLen := 0, args := none, isArgs := false, quote := true, sp := [], status := -5 }

-- The states that the codes before a directive can leave. The codes of set, if, break and return write the
-- stack, the buffer and the request, and none of them touches is_args, args or quote.
inductive Reachable (conf : Conf) : Request → Engine → Prop where
  | start (r : Request) : Reachable conf r .start
  | other (r r' : Request) (e e' : Engine) : Reachable conf r e →
      e'.isArgs = e.isArgs → e'.args = e.args → e'.quote = e.quote → Reachable conf r' e'
  | rewrite (regex : Regex) (replacement : Bytes) (flag : Option Bytes) (d : Directive) (r r' : Request)
      (e e' : Engine) (flow : Flow) : Reachable conf r e → rewrite conf regex replacement flag = some d →
      rewriteRun conf d.regex r e = (flow, r', e') → flow ≠ .exit → (flow = .step → d.last = false) →
      Reachable conf r' e'

-- Reading a variable touches the captures and the variables of a request and nothing else.
structure Frame (r r' : Request) : Prop where
  uri : r'.uri = r.uri
  args : r'.args = r.args
  escapes : r'.escapes = r.escapes

theorem Frame.refl (r : Request) : Frame r r := ⟨rfl, rfl, rfl⟩

theorem Frame.trans {r s t : Request} (h : Frame r s) (h' : Frame s t) : Frame r t :=
  ⟨h'.uri.trans h.uri, h'.args.trans h.args, h'.escapes.trans h.escapes⟩

theorem frame_setVariable (r : Request) (index : Nat) (f : Variable → Variable) :
    Frame r (r.setVariable index f) := ⟨rfl, rfl, rfl⟩

theorem frame_getIndexedVariable (conf : Conf) (r : Request) (index : Nat) :
    Frame r (getIndexedVariable conf r index).2 := by
  unfold getIndexedVariable
  split
  · exact Frame.refl r
  · split
    · exact Frame.refl r
    · by_cases hok : (conf.getHandler index r).ok = true
      · by_cases hno : conf.noCacheable index = true
        · simp only [hok, hno, if_true]
          exact ⟨rfl, rfl, rfl⟩
        · simp only [hok, hno, if_true]
          exact ⟨rfl, rfl, rfl⟩
      · simp only [hok]
        exact ⟨rfl, rfl, rfl⟩

theorem frame_getFlushedVariable (conf : Conf) (r : Request) (index : Nat) :
    Frame r (getFlushedVariable conf r index).2 := by
  unfold getFlushedVariable
  split
  · exact Frame.refl r
  · split
    · split
      · exact (frame_setVariable r index _).trans (frame_getIndexedVariable conf _ index)
      · exact Frame.refl r
    · exact frame_getIndexedVariable conf r index

theorem frame_readVariable (conf : Conf) (r : Request) (index : Nat) :
    Frame r (readVariable conf r index).2 := by
  have h := frame_getFlushedVariable conf r index
  rw [readVariable]
  generalize getFlushedVariable conf r index = read at h ⊢
  obtain ⟨value, r'⟩ := read
  cases value with
  | none => exact h
  | some v => exact h

-- The request after the variables that the codes refer to have been read
def reads (conf : Conf) : List Code → Request → Request
  | [], r => r
  | .copyVar index :: codes, r => reads conf codes (readVariable conf r index).2
  | _ :: codes, r => reads conf codes r

theorem frame_reads (conf : Conf) (codes : List Code) (r : Request) : Frame r (reads conf codes r) := by
  induction codes generalizing r with
  | nil => exact Frame.refl r
  | cons code codes ih =>
      cases code with
      | copyVar index => exact (frame_readVariable conf r index).trans (ih _)
      | copy text => exact ih r
      | startArgs => exact ih r
      | copyCapture n => exact ih r

-- What a capture comes to in a place where captures are escaped or not
def captureSize (escape : Bool) (r : Request) (n : Nat) : Nat :=
  r.captures.len n + if escape && r.escapes then 2 * escapeCount .args (r.captures.text n) else 0

-- What the value codes write from a request on. escape is is_args or quote.
def size (conf : Conf) : Bool → List Code → Request → Nat
  | _, [], _ => 0
  | escape, .copy text :: codes, r => text.length + size conf escape codes r
  | escape, .copyVar index :: codes, r =>
      (readVariable conf r index).1.length + size conf escape codes (readVariable conf r index).2
  | _, .startArgs :: codes, r => size conf true codes r
  | escape, .copyCapture n :: codes, r => captureSize escape r n + size conf escape codes r

-- The length program has one byte more for each mark of the arguments.
theorem runLengths_eq (conf : Conf) (codes : List Code) (r : Request) (le : LengthEngine) :
    runLengths conf codes r le =
      (size conf (le.isArgs || le.quote) codes r + codes.count .startArgs, reads conf codes r,
        { le with isArgs := le.isArgs || codes.contains .startArgs }) := by
  induction codes generalizing r le with
  | nil => simp [runLengths, size, reads]
  | cons code codes ih =>
      rw [runLengths]
      cases code with
      | copy text => simp [Code.length, ih, size, reads, Nat.add_assoc]
      | copyVar index => simp [Code.length, ih, size, reads, Nat.add_assoc]
      | startArgs =>
          simp only [Code.length, ih, size, reads, Bool.true_or, List.count_cons_self, List.contains_cons,
            beq_self_eq_true, Bool.or_true, Prod.mk.injEq, and_true]
          omega
      | copyCapture n =>
          have hsize : (Code.copyCapture n).length conf r le =
              (captureSize (le.isArgs || le.quote) r n, r, le) := by
            simp only [Code.length, captureSize]
            split <;> simp
          simp [hsize, ih, size, reads, Nat.add_assoc]

theorem runValues_cons (conf : Conf) (code : Code) (codes : List Code) (r : Request) (e : Engine) :
    runValues conf (code :: codes) r e =
      runValues conf codes (code.run conf r e).1 (code.run conf r e).2 := rfl

theorem run_copyCapture (conf : Conf) (r : Request) (e : Engine) (n : Nat) :
    ∃ text : Bytes, (Code.copyCapture n).run conf r e = (r, { e with buf := e.buf ++ text }) ∧
      text.length = captureSize (e.isArgs || e.quote) r n := by
  simp only [Code.run, captureSize]
  split
  · exact ⟨_, rfl, by rw [escapeUri_length, Captures.text_length]⟩
  · exact ⟨_, rfl, by rw [Captures.text_length, Nat.add_zero]⟩

-- What a run of value codes does to the request and the engine
structure Ran (conf : Conf) (codes : List Code) (r : Request) (e : Engine) (after : Request × Engine) :
    Prop where
  request : after.1 = reads conf codes r
  written : after.2.buf.length = e.buf.length + size conf (e.isArgs || e.quote) codes r
  args : after.2.args.isSome = (e.args.isSome || codes.contains .startArgs)

-- A code that appends a text to the buffer and keeps the flags
theorem Ran.append (h : Ran conf codes r' { e with buf := e.buf ++ text } after)
    (hreads : reads conf (code :: codes) r = reads conf codes r')
    (hsize : size conf (e.isArgs || e.quote) (code :: codes) r =
      text.length + size conf (e.isArgs || e.quote) codes r')
    (hcode : code ≠ .startArgs) : Ran conf (code :: codes) r e after := by
  constructor
  · rw [hreads, h.request]
  · rw [hsize, h.written, List.length_append, Nat.add_assoc]
  · simp [h.args, hcode.symm]

theorem runValues_ran (conf : Conf) (codes : List Code) (r : Request) (e : Engine) :
    Ran conf codes r e (runValues conf codes r e) := by
  induction codes generalizing r e with
  | nil => constructor <;> simp [runValues, reads, size]
  | cons code codes ih =>
      rw [runValues_cons]
      cases code with
      | copy text => exact (ih r { e with buf := e.buf ++ text }).append rfl rfl (by simp)
      | copyVar index =>
          have hread := ih (readVariable conf r index).2
            { e with buf := e.buf ++ (readVariable conf r index).1 }
          exact hread.append rfl rfl (by simp)
      | startArgs =>
          obtain ⟨hr, hw, ha⟩ := ih r { e with isArgs := true, args := some e.buf.length }
          constructor
          · exact hr
          · rw [size]
            exact hw
          · rw [List.contains_cons, beq_self_eq_true, Bool.true_or, Bool.or_true]
            exact ha
      | copyCapture n =>
          obtain ⟨text, hrun, hlen⟩ := run_copyCapture conf r e n
          rw [hrun]
          exact (ih r { e with buf := e.buf ++ text }).append rfl (by rw [size, hlen]) (by simp)

end Nginx.Script
