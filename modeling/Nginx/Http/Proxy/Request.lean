import Nginx.Http.Proxy.Engine

namespace Nginx.Proxy

open ComplexValue (text Expands)

-- The headers that are configured, with the defaults and the length of a configured body
def configured (c : LocConf) : List Keyval := headersMerged (c.headersSource.getD []) c.cache c.bodySource.isSome

def isConfigured (c : LocConf) (header : Header) : Bool :=
  (configured c).any fun src => src.key.map tolower == header.lowcaseKey

def clientLines (c : LocConf) (r : Request) : Bytes :=
  if c.passRequestHeaders then (r.headers.filter fun header => !isConfigured c header).flatMap headerLine else []

-- The URI: that of proxy_pass with variables, the one of the client as it came, or r->uri with what replaces the
-- location.
def requestUri (c : LocConf) (r : Request) : Bytes :=
  if c.proxyLengths then r.ctxUri
  else if r.unparsed then r.unparsedUri
  else
    (if r.validLocation then r.ctxUri else []) ++
      (if r.quotedUri || r.spaceInUri || r.internal then escapeUri .uri (r.uri.drop (locLen c r))
        else r.uri.drop (locLen c r)) ++
      if r.args ≠ [] then 63 :: r.args else []

def bodyText (conf : Script.Conf) (c : LocConf) (r : Request) (value : Nat → Bytes) : Bytes :=
  match c.bodySource with
  | some source => evaluated conf value r.captures source
  | none => []

-- What the variables read as once the body has been counted
def assigned (conf : Script.Conf) (c : LocConf) (garbage : Flags) (r : Request) (v : Vars) : Nat → Bytes :=
  reading conf (countBody conf c r garbage v).2.2

structure Encodes (conf : Script.Conf) (c : LocConf) (r : Request) (value : Nat → Bytes) (m : Made) : Prop where
  fits : m.bytes.length ≤ m.allocated
  bytes : m.bytes = requestMethod c r ++ requestUri c r ++ proxyVersion ++
    (configured c).flatMap (configuredLine conf value r.captures) ++ clientLines c r ++ crlf ++ bodyText conf c r value
  length : ∀ source, c.bodySource = some source → evaluated conf value r.captures contentLength.value =
    Printf.decimal (evaluated conf value r.captures source).length

-- The generated Content-Length is right when its variable already has the value, or is first read behind the body and
-- the body has been counted right.
def Announced (conf : Script.Conf) (c : LocConf) (garbage : Flags) (r : Request) (v : Vars) : Prop :=
  ∀ source codes, c.bodySource = some source → compile conf source = some codes →
    if v.cached.isSome || codes.any (readsInternal conf) then
      v.internal = some (Printf.decimal (codes.flatMap (text (reading conf v) r.captures)).length)
    else v.memory = true ∧ slack r garbage codes = 0

-- The client headers that are configured carry the hash of their names.
def Hashed (c : LocConf) (r : Request) : Prop :=
  c.passRequestHeaders = true → ∀ hash, c.headersSetHash = some hash → ∀ header ∈ r.headers,
    isConfigured c header = true → header.hash % hash.size = Hash.hashKey header.lowcaseKey % hash.size

variable {conf : Script.Conf} {tableSize : List Hash.Key → Option Nat} {c : LocConf} {r : Request} {le garbage : Flags}
  {pool : Pool} {v : Vars} {value : Nat → Bytes} {codes : List Script.Code} {m : Made}

theorem escapeUri_of_count {type : EscapeType} {src : Bytes} (h : escapeCount type src = 0) : escapeUri type src = src := by
  rw [escapeCount, List.countP_eq_zero] at h
  induction src with
  | nil => rfl
  | cons ch src ih =>
      have hch := h ch List.mem_cons_self
      rw [escapeUri, if_neg hch, ih fun b hb => h b (List.mem_cons_of_mem _ hb)]

-- An escape of 0 bytes copies, which is the same.
theorem writeUri_eq (c : LocConf) (r : Request) : writeUri c r = requestUri c r := by
  have hrest : (if escapeLen c r ≠ 0 then escapeUri .uri (r.uri.drop (locLen c r)) else r.uri.drop (locLen c r)) =
      if r.quotedUri || r.spaceInUri || r.internal then escapeUri .uri (r.uri.drop (locLen c r))
      else r.uri.drop (locLen c r) := by
    unfold escapeLen
    split
    next hflags =>
        split
        next => rfl
        next hzero =>
            refine (escapeUri_of_count ?_).symm
            omega
    next => rw [if_neg (by simp)]
  have hargs : (0 < r.args.length) = (r.args ≠ []) := by
    rw [List.length_pos_iff]
  unfold writeUri requestUri
  simp only [hrest, hargs]

theorem writeUri_length {n : Nat} (h : uriLen c r = some n) : (writeUri c r).length ≤ n := by
  unfold uriLen at h
  unfold writeUri
  split at h
  next hlengths =>
      obtain rfl := Option.some.inj h
      rw [if_pos hlengths]
  next hlengths =>
      rw [if_neg hlengths]
      split at h
      next hunparsed =>
          obtain rfl := Option.some.inj h
          rw [if_pos hunparsed]
      next hunparsed =>
          split at h
          next => cases h
          next =>
              obtain rfl := Option.some.inj h
              have hctx : (if r.validLocation then r.ctxUri else []).length ≤ r.ctxUri.length := by
                split
                · exact Nat.le_refl _
                · exact Nat.zero_le _
              have hrest : (if escapeLen c r ≠ 0 then escapeUri .uri (r.uri.drop (locLen c r))
                  else r.uri.drop (locLen c r)).length ≤ r.uri.length - locLen c r + escapeLen c r := by
                split
                next hne =>
                    rw [escapeUri_length, List.length_drop]
                    unfold escapeLen at hne ⊢
                    split at hne
                    next hflags => rw [if_pos hflags]
                    next => exact absurd rfl hne
                next =>
                    rw [List.length_drop]
                    exact Nat.le_add_right _ _
              have hargs : (if 0 < r.args.length then 63 :: r.args else []).length ≤ 1 + r.args.length := by
                split
                · rw [List.length_cons, Nat.add_comm]
                · exact Nat.zero_le _
              rw [if_neg hunparsed, List.length_append, List.length_append]
              omega

theorem noStartArgs {src : Keyval} {group : List Script.Code} (h : HeaderCodes conf src group) : .startArgs ∉ group := by
  cases h with
  | empty => exact List.not_mem_nil
  | text => simp
  | value hcodes =>
      have hno := (compile_codes (fun _ => []) ⟨[], []⟩ hcodes).1
      simp [hno]

theorem forall₂_right {α β : Type} {R : α → β → Prop} {P : β → Prop} (hR : ∀ a b, R a b → P b) {as : List α} {bs : List β}
    (h : List.Forall₂ R as bs) : ∀ b ∈ bs, P b := by
  induction h with
  | nil => exact nofun
  | cons hone _ ih =>
      intro b hb
      obtain rfl | hb := List.mem_cons.mp hb
      · exact hR _ _ hone
      · exact ih b hb

theorem slack_of_empty (h : codes.flatMap (text value r.captures) = []) : slack r le codes = 0 := by
  induction codes with
  | nil => rfl
  | cons code codes ih =>
      rw [List.flatMap_cons, List.append_eq_nil_iff] at h
      rw [slack_cons, ih h.2, Nat.add_zero]
      cases code with
      | copyCapture n =>
          have hempty : r.captures.text n = [] := h.1
          simp [slack, hempty, escapeCount]
      | _ => rfl

theorem skipOf_value : skipOf r le value (codes ++ [.copy crlf]) = decide (codes.flatMap (text value r.captures) = []) := by
  have hsize : groupSize r le value (codes ++ [.copy crlf]) =
      (codes.flatMap (text value r.captures)).length + slack r le codes + 2 := by
    have hcrlf : crlf.length = 2 := by decide
    simp only [groupSize, slack, List.flatMap_append, List.flatMap_cons, List.flatMap_nil, List.append_nil,
      List.length_append, List.map_append, List.map_cons, List.map_nil, List.sum_append, List.sum_cons, List.sum_nil,
      text, hcrlf]
    omega
  rw [skipOf, hsize]
  by_cases hempty : codes.flatMap (text value r.captures) = []
  · rw [slack_of_empty hempty]
    simp [hempty]
  · have hpos := List.length_pos_iff.mpr hempty
    rw [decide_eq_false hempty, Bool.and_eq_false_iff]
    right
    rw [beq_eq_false_iff_ne]
    omega

theorem flatMap_written_false (codes : List Script.Code) :
    codes.flatMap (written r false value) = codes.flatMap (text value r.captures) := by
  refine List.flatMap_congr fun code _ => ?_
  cases code <;> rfl

theorem flatMap_written_true (h : codes.flatMap (text value r.captures) = []) :
    codes.flatMap (written r true value) = [] := by
  rw [List.flatMap_eq_nil_iff] at h ⊢
  intro code hcode
  have htext := h code hcode
  cases code with
  | copyCapture n => exact htext
  | _ => rfl

theorem evaluated_eq {source : Bytes} (h : compile conf source = some codes) :
    evaluated conf value r.captures source = codes.flatMap (text value r.captures) := by
  rw [evaluated, h]
  rfl

theorem compile_plain {source : Bytes} (hne : source ≠ []) (hplain : 36 ∉ source) :
    compile conf source = some [.copy source] := by
  obtain ⟨ch, src, rfl⟩ := List.exists_cons_of_ne_nil hne
  let sc : Script.Compile := ⟨[], 0, 0, 0, false, false, false, false⟩
  have hin : ∀ b ∈ ch :: src, sc.inText b = true := by
    intro b hb
    have hdollar : b ≠ 36 := fun heq => hplain (heq ▸ hb)
    simp [Script.Compile.inText, sc, hdollar]
  have htake : (ch :: src).takeWhile sc.inText = ch :: src := List.takeWhile_eq_self_iff.mpr hin
  have hdrop : (ch :: src).dropWhile sc.inText = [] := List.dropWhile_eq_nil_iff.mpr hin
  have hch : ch ≠ 36 := fun heq => hplain (heq ▸ List.mem_cons_self)
  have hturn : sc.turn conf ch src = some (sc.text (ch :: src)) := by
    rw [Script.Compile.turn, if_neg hch, if_neg (by simp [sc])]
  simp only [compile, Script.compile, List.length_cons, Script.Compile.loop]
  rw [show ({ sc with nvariables := 0 } : Script.Compile) = sc from rfl, hturn]
  simp only [Script.Compile.text, htake, hdrop]
  cases src.length <;> rfl

-- A header is written as one line, and not at all when its value is empty.
theorem groupText_line {src : Keyval} {group : List Script.Code} (h : HeaderCodes conf src group) :
    groupText r le value group = configuredLine conf value r.captures src := by
  cases h with
  | empty hvalue =>
      have hnone : evaluated conf value r.captures src.value = [] := by
        rw [hvalue]
        rfl
      rw [configuredLine, if_pos hnone]
      rfl
  | text hvalue hplain =>
      have hsame : evaluated conf value r.captures src.value = src.value := by
        rw [evaluated_eq (compile_plain hvalue hplain)]
        exact List.append_nil _
      rw [configuredLine, hsame, if_neg hvalue]
      exact List.append_nil _
  | value hcodes =>
      rename_i codes
      rw [groupText, skipOf_value, configuredLine, evaluated_eq hcodes]
      by_cases hempty : codes.flatMap (text value r.captures) = []
      · rw [decide_eq_true hempty, if_pos hempty, List.flatMap_cons, List.flatMap_append, flatMap_written_true hempty]
        rfl
      · rw [decide_eq_false hempty, if_neg hempty, flatMap_written_false]
        simp [text]

theorem groupText_length (group : List Script.Code) :
    (groupText r le value group).length ≤ groupSize r le value group := by
  have hle : ∀ skip codes, (List.flatMap (written r skip value) codes).length ≤
      (codes.flatMap (text value r.captures)).length := by
    intro skip codes
    induction codes with
    | nil => exact Nat.le_refl _
    | cons code codes ih =>
        have hone : (written r skip value code).length ≤ (text value r.captures code).length := by
          cases code with
          | copyCapture n => exact Nat.le_refl _
          | _ => cases skip <;> simp [written]
        simp only [List.flatMap_cons, List.length_append]
        omega
  cases group with
  | nil => exact Nat.zero_le _
  | cons name codes => exact Nat.le_trans (hle _ _) (Nat.le_add_right _ _)

theorem expands_internal {variableIndex : Bytes → Option Nat} {captures : Script.Captures} {out : Bytes}
    (h : Expands variableIndex value captures contentLength.value out) :
    ∃ index, variableIndex internalName = some index ∧ out = value index := by
  have hall : ∀ ch ∈ internalName, Script.isName ch = true :=
    List.all_eq_true.mp (by decide : internalName.all Script.isName = true)
  generalize hs : contentLength.value = s at h
  cases h with
  | nil => cases hs
  | text hne _ => exact absurd (List.cons.inj hs).1.symm hne
  | capture hdigit _ =>
      have hch := congrArg (fun t => t.tail.headD 0) hs
      have hfirst : contentLength.value.tail.headD 0 = 112 := by decide
      rw [hfirst] at hch
      rename_i ch _ _ _
      rw [show ch = 112 from hch.symm] at hdigit
      exact absurd hdigit (by decide)
  | braces =>
      have hch := congrArg (fun t => t.tail.headD 0) hs
      have hfirst : contentLength.value.tail.headD 0 = 112 := by decide
      rw [hfirst] at hch
      exact absurd (show (112 : UInt8) = 123 from hch) (by decide)
  | name hne hname hfirst hnext hfound hrest =>
      have heq : internalName = _ := (List.cons.inj hs).2
      rename_i name index' rest out'
      -- Every byte is one of a name, so nothing stands behind it.
      have hnil : rest = [] := by
        cases hr : rest with
        | nil => rfl
        | cons ch more =>
            have hmem : ch ∈ internalName := by
              rw [heq, hr]
              simp
            have hno := hnext ch (by rw [hr]; exact rfl)
            rw [hall ch hmem] at hno
            cases hno
      rw [hnil, List.append_nil] at heq
      rw [← heq] at hfound
      rw [hnil] at hrest
      cases hrest
      exact ⟨index', hfound, List.append_nil _⟩

end Nginx.Proxy
