import Nginx.Http.Rewrite
import Nginx.Library.Ranges

namespace Nginx.Script

-- The bytes to escape in the captures in front of the '?'
def unescaped (conf : Conf) : List Code → Request → Nat
  | [], _ => 0
  | .startArgs :: _, _ => 0
  | .copy _ :: codes, r => unescaped conf codes r
  | .copyVar index :: codes, r => unescaped conf codes (readVariable conf r index).2
  | .copyCapture n :: codes, r => escapeCount .args (r.captures.text n) + unescaped conf codes r

theorem size_true (conf : Conf) (codes : List Code) (r : Request) :
    size conf true codes r =
      size conf false codes r + if r.escapes then 2 * unescaped conf codes r else 0 := by
  induction codes generalizing r with
  | nil => simp [size, unescaped]
  | cons code codes ih =>
      cases code with
      | copy text => simp only [size, unescaped, ih, Nat.add_assoc]
      | copyVar index =>
          simp only [size, unescaped, ih, (frame_readVariable conf r index).escapes, Nat.add_assoc]
      | startArgs => simp [size, unescaped]
      | copyCapture n =>
          simp only [size, unescaped, ih, captureSize, Bool.true_and, Bool.false_and, Bool.false_eq_true,
            if_false]
          split <;> omega

-- By how much the references of the codes come to more when they start at s than when they start at r.
-- The first request is where the lengths are added up, the second where the values are written.
def growth (conf : Conf) : Bool → List Code → Request → Request → Int
  | _, [], _, _ => 0
  | escape, .copy _ :: codes, r, s => growth conf escape codes r s
  | escape, .copyVar index :: codes, r, s =>
      ((readVariable conf s index).1.length : Int) - (readVariable conf r index).1.length +
        growth conf escape codes (readVariable conf r index).2 (readVariable conf s index).2
  | _, .startArgs :: codes, r, s => growth conf true codes r s
  | escape, .copyCapture n :: codes, r, s =>
      (captureSize escape s n : Int) - captureSize escape r n + growth conf escape codes r s

theorem size_growth (conf : Conf) (escape : Bool) (codes : List Code) (r s : Request) :
    (size conf escape codes s : Int) = size conf escape codes r + growth conf escape codes r s := by
  induction codes generalizing escape r s with
  | nil => simp [size, growth]
  | cons code codes ih =>
      cases code with
      | copy text =>
          have h := ih escape r s
          simp only [size, growth]
          omega
      | copyVar index =>
          have h := ih escape (readVariable conf r index).2 (readVariable conf s index).2
          simp only [size, growth]
          omega
      | startArgs => exact ih true r s
      | copyCapture n =>
          have h := ih escape r s
          simp only [size, growth]
          omega

-- Variables whose reads change nothing, and so give the same bytes each time
def Steady (conf : Conf) (codes : List Code) (r : Request) : Prop :=
  ∀ index, Code.copyVar index ∈ codes → (readVariable conf r index).2 = r

theorem reads_of_steady (h : Steady conf codes r) : reads conf codes r = r := by
  induction codes with
  | nil => rfl
  | cons code codes ih =>
      have hrest := ih fun index hindex => h index (List.mem_cons_of_mem _ hindex)
      cases code with
      | copyVar index =>
          rw [reads, h index List.mem_cons_self]
          exact hrest
      | copy text => exact hrest
      | startArgs => exact hrest
      | copyCapture n => exact hrest

theorem growth_self (conf : Conf) (escape : Bool) (codes : List Code) (r : Request) :
    growth conf escape codes r r = 0 := by
  have h := size_growth conf escape codes r r
  omega

-- The bytes to escape in the captures that are escaped, without a variable among the codes
def escaped (captures : Captures) : Bool → List Code → Nat
  | _, [] => 0
  | _, .startArgs :: codes => escaped captures true codes
  | escape, .copyCapture n :: codes =>
      (if escape then escapeCount .args (captures.text n) else 0) + escaped captures escape codes
  | escape, _ :: codes => escaped captures escape codes

theorem size_static (conf : Conf) (escape : Bool) (codes : List Code) (r : Request)
    (hvar : codes.countP Code.isVar = 0) :
    size conf escape codes r =
      (codes.map Code.textSize).sum + ((captures codes).map r.captures.len).sum +
        if r.escapes then 2 * escaped r.captures escape codes else 0 := by
  induction codes generalizing escape with
  | nil => simp [size, escaped, captures]
  | cons code codes ih =>
      have hrest : codes.countP Code.isVar = 0 := by
        rw [List.countP_cons] at hvar
        omega
      cases code with
      | copy text =>
          have h := ih escape hrest
          simp only [size, escaped, captures, List.map_cons, List.sum_cons, Code.textSize, List.filterMap_cons,
            Code.capture?] at h ⊢
          omega
      | copyVar index => simp [Code.isVar] at hvar
      | startArgs =>
          have h := ih true hrest
          simp only [size, escaped, captures, List.map_cons, List.sum_cons, Code.textSize, List.filterMap_cons,
            Code.capture?] at h ⊢
          omega
      | copyCapture n =>
          have h := ih escape hrest
          simp only [size, escaped, captures, captureSize, List.map_cons, List.sum_cons, Code.textSize,
            List.filterMap_cons, Code.capture?] at h ⊢
          rw [h]
          cases escape <;> cases r.escapes <;> simp <;> omega

-- The groups that the replacement does not copy
def unusedLen (captures : Captures) (used : List Nat) : Nat :=
  (((List.range' 1 (captures.groups.length - 1)).filter (· ∉ used)).map captures.len).sum

theorem Captures.len_of_le (c : Captures) (n : Nat) (h : c.groups.length ≤ n) : c.len n = 0 := by
  rw [← c.text_length, c.text_of_le n h]
  rfl

-- Without a repeated capture the groups that are copied and the others are all the groups.
theorem len_used_add_unused (c : Captures) (used : List Nat) (hnodup : used.Nodup)
    (hpos : ∀ n ∈ used, 1 ≤ n) :
    (used.map c.len).sum + unusedLen c used =
      ((List.range' 1 (c.groups.length - 1)).map c.len).sum := by
  let groups := List.range' 1 (c.groups.length - 1)
  have hgroups : groups.Nodup := List.nodup_range'
  have hmem : ∀ n, n ∈ groups ↔ 1 ≤ n ∧ n < c.groups.length := by
    intro n
    simp only [groups, List.mem_range'_1]
    omega
  have hused : (used.map c.len).sum = ∑ n ∈ groups.toFinset.filter (· ∈ used), c.len n := by
    rw [← List.sum_toFinset c.len hnodup]
    symm
    apply Finset.sum_subset
    · intro n hn
      simpa using (Finset.mem_filter.mp hn).2
    · intro n hn hout
      have hin : n ∈ used := by simpa using hn
      have hnot : n ∉ groups := fun h => hout (by simpa [hin] using h)
      apply c.len_of_le
      have h1 := hpos n hin
      by_contra hlt
      exact hnot ((hmem n).mpr ⟨h1, by omega⟩)
  have hunused : unusedLen c used = ∑ n ∈ groups.toFinset.filter (· ∉ used), c.len n := by
    rw [unusedLen, ← List.sum_toFinset c.len (hgroups.filter _)]
    apply Finset.sum_congr _ fun n _ => rfl
    ext n
    simp [groups]
  rw [hused, hunused, Finset.sum_filter_add_sum_filter_not, List.sum_toFinset c.len hgroups]

-- What ngx_http_rewrite leaves in the codes of a directive that it accepts
structure Accepted (code : RegexCode) : Prop where
  test : code.test = false
  uri : code.uri = true
  status : code.status ≠ 0 → code.redirect = true
  size : code.size = (code.codes.map Code.textSize).sum
  positive : ∀ n ∈ captures code.codes, 1 ≤ n
  marks : code.codes.count .startArgs ≤ (!code.redirect).toNat
  lengths : code.lengths = some code.codes ∨
    code.lengths = none ∧ code.codes.countP Code.isVar = 0 ∧ (captures code.codes).Nodup

theorem rewriteFlag_status (redirects : Bool) (flag : Option Bytes)
    (h : rewriteFlag (if redirects then movedTemporarily else 0) redirects redirects flag =
      some (status, redirect, breakCycle, last)) : status ≠ 0 → redirect = true := by
  unfold rewriteFlag at h
  cases redirects <;> simp only [Bool.false_eq_true, if_false, if_true] at h <;> repeat' split at h
  all_goals simp only [Option.some.injEq, Prod.mk.injEq, reduceCtorEq] at h
  all_goals
    obtain ⟨rfl, rfl, -⟩ := h
    simp

theorem rewrite_accepted (h : rewrite conf regex replacement flag = some d) : Accepted d.regex := by
  unfold rewrite at h
  dsimp only at h
  split at h
  · simp at h
  · rename_i status redirect breakCycle last hflag
    split at h
    · simp at h
    · rename_i sc hcompile
      have hstatus := rewriteFlag_status _ flag hflag
      obtain rfl := Option.some.inj h
      obtain ⟨looped, hloop, hdone⟩ := Option.map_eq_some_iff.mp hcompile
      have hstart : Compile.Sound (!redirect).toNat {
          codes := [], nvariables := 0, capturesMask := 0, size := 0, compileArgs := !redirect, zero := false,
          dupCapture := false, args := false } := by
        constructor <;> simp [captures]
      have hsound := hstart.loop _ _ hloop
      have hsc : looped = sc := by rw [← hdone, Compile.done, hsound.noZero]; rfl
      rw [hsc] at hsound
      constructor
      · rfl
      · rfl
      · exact hstatus
      · exact hsound.size
      · exact hsound.positive
      · have hmarks := hsound.marks
        dsimp only
        omega
      · dsimp only
        split
        · rename_i hstatic
          exact Or.inr ⟨rfl, hsound.nvariables ▸ hstatic.1, hsound.nodup hstatic.2⟩
        · exact Or.inl rfl

theorem contains_startArgs_of_redirect {code : RegexCode} (h : Accepted code) (hredirect : code.redirect = true) :
    code.codes.contains .startArgs = false := by
  have hmarks := h.marks
  rw [hredirect] at hmarks
  have hcount : code.codes.count .startArgs = 0 := Nat.le_zero.mp hmarks
  simpa using List.count_eq_zero.mp hcount

theorem matched_args (conf : Conf) (code : RegexCode) (r : Request) (e : Engine) :
    (code.matched conf r e).2.2.args = e.args := by
  have hallocate : ∀ (r : Request) (e : Engine), (code.allocate conf r e).2.2.args = e.args := by
    intro r e
    unfold RegexCode.allocate
    dsimp only
    split <;> rfl
  unfold RegexCode.matched
  split
  · rfl
  · dsimp only
    split
    · split <;> rfl
    · rw [hallocate]
      split <;> rfl

theorem regexStart_args (conf : Conf) (code : RegexCode) (r : Request) (e : Engine) :
    (regexStart conf code r e).2.2.args = e.args := by
  have hexecute : ∀ (line : Bytes) (e' : Engine), e'.args = e.args →
      (code.execute conf line r e').2.2.args = e.args := by
    intro line e' he'
    unfold RegexCode.execute
    split
    · dsimp only
      split <;> exact he'
    · exact he'
    · rw [matched_args, he']
  unfold regexStart
  split <;> exact hexecute _ _ rfl

theorem regexEnd_args (conf : Conf) (code : RegexCode) (r : Request) (e : Engine)
    (h : code.redirect = true → e.args = none) : (regexEnd conf code r e).2.2.args = none := by
  unfold regexEnd
  dsimp only
  split
  · rename_i hredirect
    split <;> exact h hredirect
  · cases hargs : e.args <;> (dsimp only; split)
    · split <;> rfl
    · rfl
    · split <;> rfl
    · rfl

-- No directive starts with arguments left over: a redirect marks none, and the end of the others forgets them.
theorem args_of_reachable (h : Reachable conf r e) : e.args = none := by
  induction h with
  | start r => rfl
  | other r r' e e' h hisArgs hargs hquote ih => rw [hargs, ih]
  | rewrite regex replacement flag d r r' e e' flow h hd hrun hflow hlast ih =>
      have haccepted := rewrite_accepted hd
      have hstart := regexStart_args conf d.regex r e
      unfold rewriteRun at hrun
      split at hrun
      · rename_i r1 e1 heq
        rw [heq] at hstart
        have hran := runValues_ran conf d.regex.codes r1 e1
        have hend := regexEnd_args conf d.regex (runValues conf d.regex.codes r1 e1).1
          (runValues conf d.regex.codes r1 e1).2
        have hargs : d.regex.redirect = true → (runValues conf d.regex.codes r1 e1).2.args = none := by
          intro hredirect
          have hsome := hran.args
          rw [contains_startArgs_of_redirect haccepted hredirect, hstart, ih] at hsome
          simpa using hsome
        have hrun' : regexEnd conf d.regex (runValues conf d.regex.codes r1 e1).1
            (runValues conf d.regex.codes r1 e1).2 = (flow, r', e') := hrun
        have hnone := hend hargs
        rw [hrun'] at hnone
        exact hnone
      · rename_i hstopped
        rw [hrun] at hstart
        rw [hstart, ih]

-- The size of the buffer of a directive, and what is written to it from the start code to the end code
def allocated (conf : Conf) (code : RegexCode) (r : Request) (e : Engine) : Nat :=
  (regexStart conf code r e).2.2.bufLen

def bytesWritten (conf : Conf) (code : RegexCode) (r : Request) (e : Engine) : Nat :=
  let (_, r, e) := regexStart conf code r e
  let (r, e) := runValues conf code.codes r e
  e.buf.length + (code.appended r e).length

-- The arguments of a request are counted even where the end code does not write them.
def RegexCode.unusedArgs (code : RegexCode) (r : Request) : Nat :=
  if code.redirect ∨ code.codes.contains .startArgs then 0 else code.argsLen r

-- When the buffer is large enough for the request that has matched, with is_args as the directives before left it.
-- Without a length program, nested captures can hold more bytes to escape than the URI. With one, the captures
-- in front of the '?' are counted as they are and written with their escapes.
def Fits (conf : Conf) (code : RegexCode) (r : Request) (isArgs : Bool) : Prop :=
  match code.lengths with
  | none =>
      r.escapes = true →
        2 * escaped r.captures (isArgs || code.redirect) code.codes ≤
          2 * escapeCount .args r.uri + unusedLen r.captures (captures code.codes) + code.unusedArgs r
  | some codes =>
      growth conf (codes.contains .startArgs || code.redirect) codes r (reads conf codes r) +
          (if r.escapes ∧ codes.contains .startArgs then 2 * unescaped conf codes r else 0 : Nat) ≤
        codes.count .startArgs + code.unusedArgs r

theorem appended_length (code : RegexCode) (r : Request) (e : Engine)
    (h : e.args.isSome = code.codes.contains .startArgs) :
    (code.appended r e).length + code.unusedArgs r = code.argsLen r := by
  unfold RegexCode.appended RegexCode.unusedArgs RegexCode.argsLen
  rw [h]
  by_cases hadd : code.addArgs = true ∧ r.args ≠ []
  · rw [if_pos hadd, if_pos hadd]
    cases code.redirect <;> cases code.codes.contains .startArgs <;> simp
  · rw [if_neg hadd, if_neg hadd]
    simp

-- What the start code leaves to the value codes of a directive that matches
structure Started (conf : Conf) (code : RegexCode) (m : Request) (e : Engine) (r' : Request) (e' : Engine) :
    Prop where
  request : r' = (code.bufLen conf (code.changeUri m) e.isArgs).2.1
  bufLen : e'.bufLen = (code.bufLen conf (code.changeUri m) e.isArgs).1 + code.argsLen r'
  isArgs : e'.isArgs = (code.bufLen conf (code.changeUri m) e.isArgs).2.2
  quote : e'.quote = code.redirect
  buf : e'.buf = []
  args : e'.args = e.args

theorem regexStart_started (haccepted : Accepted code) (hm : regexExec code.regex r r.uri = .matched m)
    (hstep : (regexStart conf code r e).1 = .step) :
    Started conf code m e (regexStart conf code r e).2.1 (regexStart conf code r e).2.2 := by
  have hargs := regexStart_args conf code r e
  have hstatus : ¬(code.status ≠ 0 ∧ code.redirect = false) := by
    rintro ⟨h, hfalse⟩
    rw [haccepted.status h] at hfalse
    exact Bool.noConfusion hfalse
  have hstart : regexStart conf code r e = code.allocate conf (code.changeUri m)
      (if code.status ≠ 0 then { e with status := code.status } else e) := by
    simp only [regexStart, haccepted.uri, if_true, RegexCode.execute, hm, RegexCode.matched, haccepted.test,
      Bool.false_eq_true, if_false, if_neg hstatus]
  have hisArgs : (if code.status ≠ 0 then { e with status := code.status } else e).isArgs = e.isArgs := by
    split <;> rfl
  rw [hstart] at hstep hargs ⊢
  unfold RegexCode.allocate at hstep hargs ⊢
  rw [hisArgs] at hstep hargs ⊢
  dsimp only at hstep hargs ⊢
  split at hstep
  · rename_i halloc
    rw [if_pos halloc] at hargs ⊢
    exact ⟨rfl, rfl, rfl, rfl, rfl, hargs⟩
  · simp at hstep

theorem argsLen_frame (code : RegexCode) {r r' : Request} (h : Frame r r') :
    code.argsLen r' = code.argsLen r := by
  unfold RegexCode.argsLen
  rw [h.args]

theorem unusedArgs_frame (code : RegexCode) {r r' : Request} (h : Frame r r') :
    code.unusedArgs r' = code.unusedArgs r := by
  unfold RegexCode.unusedArgs
  rw [argsLen_frame code h]

theorem frame_bufLen (conf : Conf) (code : RegexCode) (r : Request) (isArgs : Bool) :
    Frame r (code.bufLen conf r isArgs).2.1 := by
  unfold RegexCode.bufLen
  split
  · exact Frame.refl r
  · rw [runLengths_eq]
    exact frame_reads conf _ r

-- The arguments cancel: what is left to compare is the text, the captures and the variables.
theorem written_le_iff (hstarted : Started conf code m e r1 e1)
    (hstart : regexStart conf code r e = (flow, r1, e1)) (hargs : e.args = none) :
    bytesWritten conf code r e ≤ allocated conf code r e ↔
      size conf (e1.isArgs || code.redirect) code.codes r1 ≤
        (code.bufLen conf (code.changeUri m) e.isArgs).1 + code.unusedArgs (code.changeUri m) := by
  have hran := runValues_ran conf code.codes r1 e1
  have hwritten := hran.written
  rw [hstarted.buf, hstarted.quote, List.length_nil, Nat.zero_add] at hwritten
  have hsome : (runValues conf code.codes r1 e1).2.args.isSome = code.codes.contains .startArgs := by
    rw [hran.args, hstarted.args, hargs]
    rfl
  have happended := appended_length code (runValues conf code.codes r1 e1).1 _ hsome
  have hframe : Frame r1 (runValues conf code.codes r1 e1).1 := by
    rw [hran.request]
    exact frame_reads conf code.codes r1
  have hfirst : Frame (code.changeUri m) r1 := by
    rw [hstarted.request]
    exact frame_bufLen ..
  have hunused := unusedArgs_frame code (hfirst.trans hframe)
  have hlen := argsLen_frame code hframe
  have hW : bytesWritten conf code r e = (runValues conf code.codes r1 e1).2.buf.length +
      (code.appended (runValues conf code.codes r1 e1).1 (runValues conf code.codes r1 e1).2).length := by
    rw [bytesWritten, hstart]
  have hA : allocated conf code r e = e1.bufLen := by rw [allocated, hstart]
  rw [hW, hA, hstarted.bufLen, hwritten]
  omega

theorem static_fits (haccepted : Accepted code) (hlengths : code.lengths = none)
    (hvar : code.codes.countP Code.isVar = 0) (hnodup : (captures code.codes).Nodup) (r : Request)
    (isArgs : Bool) :
    size conf (isArgs || code.redirect) code.codes r ≤ code.staticLen r + code.unusedArgs r ↔
      Fits conf code r isArgs := by
  have hsize := size_static conf (isArgs || code.redirect) code.codes r hvar
  have hall := len_used_add_unused r.captures (captures code.codes) hnodup haccepted.positive
  have htext := haccepted.size
  simp only [Fits, hlengths]
  rw [hsize]
  unfold RegexCode.staticLen
  by_cases hescapes : r.escapes = true
  · rw [if_pos hescapes]
    by_cases hgroups : r.captures.groups = []
    · have hnone : ∀ (escape : Bool) (codes : List Code), escaped r.captures escape codes = 0 := by
        intro escape codes
        induction codes generalizing escape with
        | nil => rfl
        | cons code codes ih =>
            cases code with
            | copyCapture n =>
                have htext := r.captures.text_of_le n (by simp [hgroups])
                simp [escaped, htext, ih, escapeCount]
            | copy text => exact ih escape
            | copyVar index => exact ih escape
            | startArgs => exact ih true
      simp only [hnone, hescapes, forall_const]
      omega
    · simp only [haccepted.uri, hgroups, hescapes, ne_eq, not_false_eq_true, and_self, if_true, forall_const]
      omega
  · simp only [hescapes, and_false, if_false, Bool.false_eq_true, false_imp_iff, iff_true]
    omega

theorem program_fits (haccepted : Accepted code) (hlengths : code.lengths = some code.codes) (r : Request)
    (isArgs : Bool) :
    size conf (code.codes.contains .startArgs || code.redirect) code.codes (reads conf code.codes r) ≤
        size conf code.redirect code.codes r + code.codes.count .startArgs + code.unusedArgs r ↔
      Fits conf code r isArgs := by
  have hgrowth := size_growth conf (code.codes.contains .startArgs || code.redirect) code.codes r
    (reads conf code.codes r)
  simp only [Fits, hlengths]
  by_cases hmark : code.codes.contains .startArgs = true
  · have hredirect : code.redirect = false := by
      by_contra h
      rw [contains_startArgs_of_redirect haccepted (by simpa using h)] at hmark
      exact Bool.noConfusion hmark
    have htrue := size_true conf code.codes r
    simp only [hmark, hredirect, Bool.true_or, and_true] at hgrowth ⊢
    omega
  · have hfalse : code.codes.contains .startArgs = false := by simpa using hmark
    simp only [hfalse, Bool.false_or, Bool.false_eq_true, and_false, if_false] at hgrowth ⊢
    omega

theorem regex_fits_iff (conf : Conf) (regex : Regex) (replacement : Bytes) (flag : Option Bytes)
    (d : Directive) (hd : rewrite conf regex replacement flag = some d) (r m : Request) (e : Engine)
    (hreach : Reachable conf r e) (hm : regexExec d.regex.regex r r.uri = .matched m)
    (hstep : (regexStart conf d.regex r e).1 = .step) :
    bytesWritten conf d.regex r e ≤ allocated conf d.regex r e ↔
      Fits conf d.regex (d.regex.changeUri m) e.isArgs := by
  have haccepted := rewrite_accepted hd
  have hstarted := regexStart_started haccepted hm hstep
  have hargs := args_of_reachable hreach
  rw [written_le_iff hstarted rfl hargs, hstarted.isArgs, hstarted.request]
  rcases haccepted.lengths with hlengths | ⟨hlengths, hvar, hnodup⟩
  · rw [← program_fits haccepted hlengths]
    simp only [RegexCode.bufLen, hlengths, runLengths_eq, Bool.false_or]
  · rw [← static_fits haccepted hlengths hvar hnodup]
    simp only [RegexCode.bufLen, hlengths]

-- A rewrite ^/(.*)$ for the requests without a line feed
def pathRegex : Regex where
  exec subject :=
    if h : subject.head? = some 47 ∧ (10 : UInt8) ∉ subject then
      have hpos : 1 ≤ subject.length := by
        cases subject with
        | nil => simp at h
        | cons ch subject => simp
      .groups [some ⟨0, subject.length, Nat.zero_le _, Nat.le_refl _⟩,
        some ⟨1, subject.length, hpos, Nat.le_refl _⟩]
    else .noMatch
  named := []

def plainConf : Conf where
  getHandler _ r := { ok := false, captures := r.captures, vars := r.vars }
  noCacheable _ := false
  variableIndex _ := none
  pnalloc _ := true
  listPush := true

-- GET /%20
def spaceRequest : Request where
  uri := ngxString "/ "
  args := []
  quotedUri := true
  plusInUri := false
  captures := { data := [], groups := [] }
  vars := []
  internal := false
  validUnparsedUri := true
  validLocation := true
  uriChanged := false
  location := none

theorem spaceGroup : 1 ≤ 2 := by decide

def spaceMatched : Request :=
  { spaceRequest with
    captures := { data := ngxString "/ ", groups := [some ⟨0, 2, by decide, by decide⟩, some ⟨1, 2, spaceGroup, by decide⟩] } }

-- rewrite ^/(.*)$ /$1?a=$1
def slashDirective : Directive where
  regex := {
    regex := pathRegex
    codes := [.copy (ngxString "/"), .copyCapture 1, .startArgs, .copy (ngxString "a="), .copyCapture 1]
    lengths := some [.copy (ngxString "/"), .copyCapture 1, .startArgs, .copy (ngxString "a="), .copyCapture 1]
    size := 3
    status := 0
    test := false
    negativeTest := false
    uri := true
    args := true
    addArgs := true
    redirect := false
    breakCycle := false }
  last := false

-- The length program has 8 bytes for "/%20?a=%20", of which all but the '?' are written.
theorem regex_fits_iff_slash :
    bytesWritten plainConf slashDirective.regex spaceRequest .start ≤
        allocated plainConf slashDirective.regex spaceRequest .start ↔
      Fits plainConf slashDirective.regex (slashDirective.regex.changeUri spaceMatched) false :=
  regex_fits_iff plainConf pathRegex (ngxString "/$1?a=$1") none slashDirective rfl spaceRequest spaceMatched
    .start (.start spaceRequest) rfl (by decide)

theorem slash_overruns :
    ¬∀ (conf : Conf) (regex : Regex) (replacement : Bytes) (flag : Option Bytes) (d : Directive) (r : Request)
      (e : Engine), rewrite conf regex replacement flag = some d → Reachable conf r e →
      (regexStart conf d.regex r e).1 = .step →
      bytesWritten conf d.regex r e ≤ allocated conf d.regex r e := by
  intro h
  have hfits := h plainConf pathRegex (ngxString "/$1?a=$1") none slashDirective spaceRequest .start rfl
    (.start spaceRequest) (by decide)
  have hwritten : bytesWritten plainConf slashDirective.regex spaceRequest .start = 9 := by decide
  have hallocated : allocated plainConf slashDirective.regex spaceRequest .start = 8 := by decide
  omega

-- With variables that stay as they are, a length program is short only by the escapes in front of the '?'.
theorem fits_program_iff (haccepted : Accepted code) (hlengths : code.lengths = some code.codes)
    (hsteady : Steady conf code.codes r) :
    Fits conf code r isArgs ↔
      (r.escapes = true → code.codes.contains .startArgs = true → unescaped conf code.codes r = 0) := by
  simp only [Fits, hlengths, reads_of_steady hsteady, growth_self]
  by_cases hmark : code.codes.contains .startArgs = true
  · have hunused : code.unusedArgs r = 0 := by simp only [RegexCode.unusedArgs, hmark, or_true, if_true]
    have hmarks := haccepted.marks
    have hle := Bool.toNat_le (!code.redirect)
    simp only [hmark, and_true, forall_const, hunused]
    by_cases hescapes : r.escapes = true
    · simp only [hescapes, if_true, forall_const]
      omega
    · simp [hescapes]
  · simp only [hmark, and_false, if_false, Bool.false_eq_true, false_imp_iff, imp_true_iff, iff_true]
    omega

def Captures.range (c : Captures) (n : Nat) : Ranges.Range :=
  match c.groups[n]? with
  | some (some span) => ⟨span.first, span.last - span.first⟩
  | _ => ⟨0, 0⟩

theorem Captures.text_eq_slice (c : Captures) (n : Nat) : c.text n = (c.range n).slice c.data := by
  unfold Captures.text Captures.range
  rcases c.groups[n]? with _ | _ | span <;> rfl

theorem escaped_le (c : Captures) (escape : Bool) (codes : List Code) :
    escaped c escape codes ≤ ((captures codes).map fun n => escapeCount .args (c.text n)).sum := by
  induction codes generalizing escape with
  | nil => simp [escaped]
  | cons code codes ih =>
      cases code with
      | copyCapture n =>
          have hrest := ih escape
          simp only [escaped, captures, List.filterMap_cons, Code.capture?, List.map_cons, List.sum_cons] at hrest ⊢
          split <;> omega
      | copy text => exact ih escape
      | copyVar index => exact ih escape
      | startArgs => exact ih true

-- Captures that lie apart in the URI cannot have more bytes to escape than the URI.
theorem fits_of_apart (hlengths : code.lengths = none) (hdata : r.captures.data = r.uri)
    (hapart : Ranges.AllApart ((captures code.codes).map r.captures.range)) : Fits conf code r isArgs := by
  have hle := escaped_le r.captures (isArgs || code.redirect) code.codes
  have hcount := hapart.sum_countP_le (EscapeType.escapes .args) r.captures.data
  have htexts : ((captures code.codes).map fun n => escapeCount .args (r.captures.text n)).sum =
      (((captures code.codes).map r.captures.range).map
        fun range => (range.slice r.captures.data).countP (EscapeType.escapes .args)).sum := by
    rw [List.map_map]
    congr 1
    apply List.map_congr_left
    intro n _
    rw [r.captures.text_eq_slice]
    rfl
  have huri : escapeCount .args r.uri = r.captures.data.countP (EscapeType.escapes .args) := by
    rw [hdata]
    rfl
  simp only [Fits, hlengths]
  intro _
  omega

end Nginx.Script
