import Nginx.Http.ComplexValue.Expand
import Nginx.Http.Proxy

namespace Nginx.Proxy

open ComplexValue (text Expands compile_expands expands_plain)

-- The bytes that a configured value stands for
def evaluated (conf : Script.Conf) (value : Nat → Bytes) (captures : Script.Captures) (source : Bytes) : Bytes :=
  ((compile conf source).map fun codes => codes.flatMap (text value captures)).getD []

-- The line of a configured header, or nothing
def configuredLine (conf : Script.Conf) (value : Nat → Bytes) (captures : Script.Captures) (src : Keyval) : Bytes :=
  if evaluated conf value captures src.value = [] then []
  else src.key ++ ngxString ": " ++ evaluated conf value captures src.value ++ crlf

-- The codes of a header between two NULLs; a header without a value has none.
inductive HeaderCodes (conf : Script.Conf) (src : Keyval) : List Script.Code → Prop where
  | empty (hvalue : src.value = []) : HeaderCodes conf src []
  | text (hvalue : src.value ≠ []) (hplain : 36 ∉ src.value) :
      HeaderCodes conf src [.copy (src.key ++ ngxString ": " ++ src.value ++ crlf)]
  | value {codes : List Script.Code} (h : compile conf src.value = some codes) :
      HeaderCodes conf src (.copy (src.key ++ ngxString ": ") :: (codes ++ [.copy crlf]))

def groupLengths (group : List Script.Code) : List LengthCode :=
  if group = [] then [] else group.map lengthOf ++ [.null]

def groupValues (group : List Script.Code) : List ValueCode :=
  if group = [] then [] else group.map .code ++ [.null]

structure Built (conf : Script.Conf) (c : LocConf) (groups : List (List Script.Code)) (size : Nat) : Prop where
  codes : List.Forall₂ (HeaderCodes conf) (headersMerged (c.headersSource.getD []) c.cache c.bodySource.isSome) groups
  headersSet : c.headersSet = some ⟨groups.flatMap groupLengths ++ [.null], groups.flatMap groupValues⟩
  headersSetHash : c.headersSetHash =
    some ⟨size, (headersMerged (c.headersSource.getD []) c.cache c.bodySource.isSome).map hashKeyOf⟩

-- The two streams of a configured body
structure BuiltBody (conf : Script.Conf) (c : LocConf) : Prop where
  absent : c.bodySource = none → c.bodySet = none
  codes : ∀ source, c.bodySource = some source → ∃ codes, compile conf source = some codes ∧
    c.bodySet = some ⟨codes.map lengthOf ++ [.null], codes.map .code ++ [.null]⟩

variable {conf : Script.Conf} {tableSize : List Hash.Key → Option Nat} {c prev merged : LocConf}

theorem compile_codes (value : Nat → Bytes) (captures : Script.Captures) {source : Bytes} {codes : List Script.Code}
    (h : compile conf source = some codes) : .startArgs ∉ codes ∧
      Expands conf.variableIndex value captures source (codes.flatMap (text value captures)) := by
  obtain ⟨sc, hsc, rfl⟩ := Option.map_eq_some_iff.mp h
  obtain ⟨out, hno, hexpands, htext⟩ := compile_expands value captures hsc
  rw [htext]
  exact ⟨hno, by simpa using hexpands⟩

theorem evaluated_expands (value : Nat → Bytes) (captures : Script.Captures) {source : Bytes}
    {codes : List Script.Code} (h : compile conf source = some codes) :
    Expands conf.variableIndex value captures source (evaluated conf value captures source) := by
  rw [evaluated, h]
  exact (compile_codes value captures h).2

theorem addHeader_codes {s s' : Streams} {src : Keyval} (h : addHeader conf s src = some s') :
    ∃ group, HeaderCodes conf src group ∧
      s' = ⟨s.lengths ++ groupLengths group, s.values ++ groupValues group⟩ := by
  unfold addHeader at h
  split at h
  next hvalue =>
      obtain rfl := Option.some.inj h
      exact ⟨[], .empty hvalue, by simp [groupLengths, groupValues]⟩
  next hvalue =>
      split at h
      next hcount =>
          obtain rfl := Option.some.inj h
          refine ⟨_, .text hvalue (List.count_eq_zero.mp hcount), ?_⟩
          simp [groupLengths, groupValues, Streams.add, Streams.addNull]
      next =>
          obtain ⟨codes, hcodes, hs⟩ := Option.bind_eq_some_iff.mp h
          obtain rfl := Option.some.inj hs
          refine ⟨_, .value hcodes, ?_⟩
          simp [groupLengths, groupValues, Streams.add, Streams.addNull]

theorem addHeaders_codes {srcs : List Keyval} {s s' : Streams} (h : srcs.foldlM (addHeader conf) s = some s') :
    ∃ groups, List.Forall₂ (HeaderCodes conf) srcs groups ∧
      s' = ⟨s.lengths ++ groups.flatMap groupLengths, s.values ++ groups.flatMap groupValues⟩ := by
  induction srcs generalizing s with
  | nil =>
      obtain rfl := Option.some.inj h
      exact ⟨[], .nil, by simp⟩
  | cons src srcs ih =>
      rw [List.foldlM_cons] at h
      obtain ⟨s₁, hone, hrest⟩ := Option.bind_eq_some_iff.mp h
      obtain ⟨group, hgroup, rfl⟩ := addHeader_codes hone
      obtain ⟨groups, hgroups, rfl⟩ := ih hrest
      exact ⟨group :: groups, .cons hgroup hgroups, by simp⟩

-- What ngx_http_proxy_merge_loc_conf leaves to ngx_http_proxy_merge_headers
structure SameHeaders (c c' : LocConf) : Prop where
  headersSet : c'.headersSet = c.headersSet
  headersSetHash : c'.headersSetHash = c.headersSetHash
  headersSource : c'.headersSource = c.headersSource
  cache : c'.cache = c.cache

theorem builtBody_compiled {source : Bytes} {codes : List Script.Code} (hsource : c.bodySource = some source)
    (hcodes : compile conf source = some codes)
    (hset : c.bodySet = some ((⟨[], []⟩ : Streams).add codes).addNull) : BuiltBody conf c where
  absent hnone := by
    rw [hsource] at hnone
    cases hnone
  codes source' hsource' := by
    rw [hsource] at hsource'
    obtain rfl := Option.some.inj hsource'
    exact ⟨codes, hcodes, hset⟩

theorem mergeBody_built (hset : c.bodySet = none) (hprev : BuiltBody conf prev ∨ prev.bodySet = none)
    (h : mergeBody conf c prev = some merged) : BuiltBody conf merged ∧ SameHeaders c merged := by
  cases hc : c.bodySource with
  | some source =>
      simp only [mergeBody, inheritBody, hc, hset, Option.isNone_some, Bool.false_eq_true, if_false] at h
      obtain ⟨codes, hcodes, rfl⟩ := Option.map_eq_some_iff.mp h
      exact ⟨builtBody_compiled rfl hcodes rfl, ⟨rfl, rfl, rfl, rfl⟩⟩
  | none =>
      cases hsource : prev.bodySource with
      | none =>
          simp only [mergeBody, inheritBody, hc, hsource, Option.isNone_none, if_true, Option.some.injEq] at h
          obtain rfl := h
          refine ⟨⟨fun _ => ?_, nofun⟩, ⟨rfl, rfl, rfl, rfl⟩⟩
          exact hprev.elim (fun hbuilt => hbuilt.absent hsource) id
      | some source =>
          cases hbody : prev.bodySet with
          | none =>
              -- The body of http has not been compiled.
              simp only [mergeBody, inheritBody, hc, hsource, hbody, Option.isNone_none, if_true] at h
              obtain ⟨codes, hcodes, rfl⟩ := Option.map_eq_some_iff.mp h
              exact ⟨builtBody_compiled rfl hcodes rfl, ⟨rfl, rfl, rfl, rfl⟩⟩
          | some body =>
              simp only [mergeBody, inheritBody, hc, hsource, hbody, Option.isNone_none, if_true, Option.some.injEq] at h
              obtain rfl := h
              refine ⟨⟨nofun, fun source' hsource' => ?_⟩, ⟨rfl, rfl, rfl, rfl⟩⟩
              rcases hprev with hbuilt | hnone
              · obtain ⟨codes, hcodes, hset'⟩ := hbuilt.codes source' (hsource.trans hsource')
                exact ⟨codes, hcodes, hbody.symm.trans hset'⟩
              · rw [hbody] at hnone
                cases hnone

theorem buildHeaders_built (hbody : BuiltBody conf c) (h : buildHeaders conf tableSize c = some merged) :
    (∃ groups size, Built conf merged groups size) ∧ BuiltBody conf merged := by
  obtain ⟨streams, hstreams, h⟩ := Option.bind_eq_some_iff.mp h
  obtain ⟨size, -, h⟩ := Option.bind_eq_some_iff.mp h
  obtain rfl := Option.some.inj h
  obtain ⟨groups, hgroups, rfl⟩ := addHeaders_codes hstreams
  exact ⟨⟨groups, size, ⟨hgroups, by simp, rfl⟩⟩, ⟨hbody.absent, hbody.codes⟩⟩

-- A configuration that takes the headers of prev as they are needs the same lines.
theorem mergeHeaders_built (hset : c.headersSetHash = none) (hbody : BuiltBody conf c)
    (hprev : (∃ groups size, Built conf prev groups size) ∨ prev.headersSetHash = none)
    (h : mergeHeaders conf tableSize c prev = some merged) :
    (∃ groups size, Built conf merged groups size) ∧ BuiltBody conf merged := by
  have hkept : (inheritHeaders c prev).bodySource = c.bodySource ∧ (inheritHeaders c prev).bodySet = c.bodySet := by
    unfold inheritHeaders
    split <;> exact ⟨rfl, rfl⟩
  have hbody' : BuiltBody conf (inheritHeaders c prev) := by
    refine ⟨fun hnone => ?_, fun source hsource => ?_⟩
    · exact hkept.2.trans (hbody.absent (hkept.1.symm.trans hnone))
    · obtain ⟨codes, hcodes, hset'⟩ := hbody.codes source (hkept.1.symm.trans hsource)
      exact ⟨codes, hcodes, hkept.2.trans hset'⟩
  unfold mergeHeaders at h
  dsimp only at h
  split at h
  next hsame =>
      simp only [Bool.and_eq_true, beq_iff_eq] at hsame
      obtain ⟨⟨hhash, hsource⟩, hcache⟩ := hsame
      obtain rfl := Option.some.inj h
      have hsome : (inheritHeaders c prev).bodySource.isSome = prev.bodySource.isSome := by
        rw [← Option.not_isNone, ← Option.not_isNone, hsource]
      refine ⟨?_, hbody'⟩
      unfold inheritHeaders at hhash
      split at hhash
      next hnone =>
          rcases hprev with ⟨groups, size, hbuilt⟩ | hprev
          · have hheaders : (inheritHeaders c prev).headersSource = prev.headersSource ∧
                (inheritHeaders c prev).headersSet = prev.headersSet ∧
                (inheritHeaders c prev).headersSetHash = prev.headersSetHash := by
              rw [inheritHeaders, if_pos hnone]
              exact ⟨rfl, rfl, rfl⟩
            obtain ⟨hsrc, hstreams, hhashes⟩ := hheaders
            refine ⟨groups, size, ⟨?_, hstreams.trans hbuilt.headersSet, hhashes.trans ?_⟩⟩
            · rw [hsrc, hcache, hsome]
              exact hbuilt.codes
            · rw [hsrc, hcache, hsome]
              exact hbuilt.headersSetHash
          · rw [hprev] at hhash
            cases hhash
      next =>
          rw [hset] at hhash
          cases hhash
  next => exact buildHeaders_built hbody' h

theorem merged_built (h : Merged conf tableSize merged) :
    (∃ groups size, Built conf merged groups size) ∧ BuiltBody conf merged := by
  induction h with
  | server hc hmain h =>
      obtain ⟨between, hbody, hheaders⟩ := Option.bind_eq_some_iff.mp h
      obtain ⟨hbuilt, hsame⟩ := mergeBody_built hc.bodySet (Or.inr hmain.bodySet) hbody
      exact mergeHeaders_built (hsame.headersSetHash.trans hc.headersSetHash) hbuilt (Or.inr hmain.headersSetHash) hheaders
  | location hc _ h ih =>
      obtain ⟨between, hbody, hheaders⟩ := Option.bind_eq_some_iff.mp h
      obtain ⟨hbuilt, hsame⟩ := mergeBody_built hc.bodySet (Or.inl ih.2) hbody
      exact mergeHeaders_built (hsame.headersSetHash.trans hc.headersSetHash) hbuilt (Or.inl ih.1) hheaders

end Nginx.Proxy
