import Nginx.Http.Proxy.Request

namespace Nginx.Proxy

open ComplexValue (text)

variable {conf : Script.Conf} {tableSize : List Hash.Key → Option Nat} {c : LocConf} {r : Request} {le garbage : Flags}
  {pool : Pool} {v : Vars} {value : Nat → Bytes} {codes : List Script.Code} {groups : List (List Script.Code)} {size : Nat}
  {m : Made}

theorem hashKeyLc_eq (data : Bytes) : Hash.hashKeyLc data = Hash.hashKey (data.map tolower) := by
  rw [Hash.hashKeyLc, Hash.hashKey, List.foldl_map]

theorem stored_ne_zero (bucket : Nat) (key : Bytes) (srcs : List Keyval) :
    Hash.stored size bucket key (srcs.map hashKeyOf) ≠ 0 ↔
      (srcs.any fun src => src.key.map tolower == key) = true ∧ bucket = Hash.hashKey key % size := by
  induction srcs with
  | nil => simp [Hash.stored]
  | cons src srcs ih =>
      rw [List.map_cons, Hash.stored, List.any_cons, Bool.or_eq_true, beq_iff_eq]
      by_cases hname : src.key.map tolower = key
      · by_cases hbucket : bucket = Hash.hashKey key % size
        · rw [if_pos ⟨rfl, by rw [hashKeyOf, hashKeyLc_eq, hname, hbucket], hname⟩]
          simp [hashKeyOf, hname, hbucket]
        · have hmiss : ¬((hashKeyOf src).null = false ∧ (hashKeyOf src).keyHash % size = bucket ∧
              (hashKeyOf src).data.map tolower = key) := by
            rintro ⟨-, hhash, -⟩
            rw [hashKeyOf, hashKeyLc_eq, hname] at hhash
            exact hbucket hhash.symm
          rw [if_neg hmiss]
          exact ih.trans (by simp [hbucket])
      · rw [if_neg fun h => hname h.2.2]
        exact ih.trans (by simp [hname])

-- ngx_hash_find finds what is configured and carries the hash of its name.
theorem find_eq (header : Header) (srcs : List Keyval) :
    HeadersHash.find ⟨size, srcs.map hashKeyOf⟩ header = true ↔
      (srcs.any fun src => src.key.map tolower == header.lowcaseKey) = true ∧
        header.hash % size = Hash.hashKey header.lowcaseKey % size := by
  rw [HeadersHash.find, bne_iff_ne]
  exact stored_ne_zero _ _ srcs

theorem filter_flatMap_length {α : Type} {f : α → Bytes} {p q : α → Bool} (hpq : ∀ x, q x = true → p x = true)
    (l : List α) : ((l.filter p).flatMap f).length =
      ((l.filter q).flatMap f).length + ((l.filter fun x => p x && !q x).flatMap f).length := by
  induction l with
  | nil => rfl
  | cons x l ih =>
      cases hp : p x <;> cases hq : q x
      · simpa [List.filter_cons, hp, hq] using ih
      · rw [hpq x hq] at hp
        cases hp
      · simp only [List.filter_cons, hp, hq, if_true, Bool.false_eq_true, if_false, Bool.not_false, Bool.and_self,
          List.flatMap_cons, List.length_append, ih]
        omega
      · simp only [List.filter_cons, hp, hq, if_true, Bool.false_eq_true, if_false, Bool.not_true, Bool.and_false,
          List.flatMap_cons, List.length_append, ih]
        omega

-- As every line has bytes, the same text means the same headers.
theorem filter_flatMap_eq_iff {α : Type} {f : α → Bytes} {p q : α → Bool} (hf : ∀ x, f x ≠ [])
    (hpq : ∀ x, q x = true → p x = true) (l : List α) :
    (l.filter p).flatMap f = (l.filter q).flatMap f ↔ ∀ x ∈ l, p x = true → q x = true := by
  constructor
  · intro h x hx hp
    have hlen := filter_flatMap_length (f := f) hpq l
    rw [h] at hlen
    have hnil : (l.filter fun x => p x && !q x).flatMap f = [] := List.length_eq_zero_iff.mp (by omega)
    cases hq : q x with
    | true => rfl
    | false =>
        rw [List.flatMap_eq_nil_iff] at hnil
        exact absurd (hnil x (List.mem_filter.mpr ⟨hx, by rw [hp, hq]; rfl⟩)) (hf x)
  · intro h
    congr 1
    refine List.filter_congr fun x hx => ?_
    cases hq : q x with
    | true => exact hpq x hq
    | false =>
        cases hp : p x with
        | false => rfl
        | true =>
            rw [h x hx hp] at hq
            cases hq

theorem passedHeaders_iff (hhash : c.headersSetHash = some ⟨size, (configured c).map hashKeyOf⟩) :
    (passedHeaders c ⟨size, (configured c).map hashKeyOf⟩ r).flatMap headerLine = clientLines c r ↔ Hashed c r := by
  unfold passedHeaders clientLines Hashed
  cases hpass : c.passRequestHeaders with
  | false => simp
  | true =>
      have hline : ∀ header, headerLine header ≠ [] := by
        intro header h
        simp [headerLine, crlf, ngxString] at h
      have hfind : ∀ header, (!isConfigured c header) = true →
          (!HeadersHash.find ⟨size, (configured c).map hashKeyOf⟩ header) = true := by
        intro header h
        rw [Bool.not_eq_true'] at h ⊢
        rw [Bool.eq_false_iff, Ne, find_eq]
        rintro ⟨hyes, -⟩
        rw [isConfigured, hyes] at h
        cases h
      simp only [if_true]
      rw [filter_flatMap_eq_iff hline hfind]
      constructor
      · rintro h - hash hsome header hheader hyes
        rw [hhash] at hsome
        obtain rfl := Option.some.inj hsome
        by_contra hmiss
        have hno : HeadersHash.find ⟨size, (configured c).map hashKeyOf⟩ header = false := by
          rw [Bool.eq_false_iff, Ne, find_eq]
          exact fun h => hmiss h.2
        have hconf := h header hheader (by rw [hno]; rfl)
        rw [hyes] at hconf
        cases hconf
      · intro h header hheader hmiss
        rw [Bool.not_eq_true'] at hmiss ⊢
        by_contra hyes
        rw [Bool.not_eq_false] at hyes
        have hfound := (find_eq header (configured c)).mpr ⟨hyes, h trivial _ hhash header hheader hyes⟩
        rw [hmiss] at hfound
        cases hfound

theorem groups_text {srcs : List Keyval} (h : List.Forall₂ (HeaderCodes conf) srcs groups) :
    groups.flatMap (groupText r le value) = srcs.flatMap (configuredLine conf value r.captures) := by
  induction h with
  | nil => rfl
  | cons hone _ ih => rw [List.flatMap_cons, List.flatMap_cons, groupText_line hone, ih]

variable (r le value) in
theorem groups_length (groups : List (List Script.Code)) :
    (groups.flatMap (groupText r le value)).length ≤ (groups.map (groupSize r le value)).sum := by
  induction groups with
  | nil => exact Nat.le_refl _
  | cons group groups ih =>
      have hone : (groupText r le value group).length ≤ groupSize r le value group := groupText_length group
      rw [List.flatMap_cons, List.length_append, List.map_cons, List.sum_cons]
      omega

-- The last of the configured headers is the generated length, and skip tells whether it has a value.
theorem lastSkip_eq (hcodes : List.Forall₂ (HeaderCodes conf) (configured c) groups) (hbody : c.bodySource.isSome = true) :
    lastSkip r le value groups false = decide (evaluated conf value r.captures contentLength.value = []) := by
  unfold configured headersMerged at hcodes
  rw [hbody, if_pos rfl] at hcodes
  have hlast := List.forall₂_drop_append _ _ _ hcodes.flip
  generalize hn : (addDefaults (if c.cache then proxyCacheHeaders else proxyHeaders)
    (c.headersSource.getD [])).length = n at hlast
  obtain ⟨group, hgroup, hdrop⟩ : ∃ group, HeaderCodes conf contentLength group ∧ groups.drop n = [group] := by
    cases hd : groups.drop n with
    | nil => rw [hd] at hlast; cases hlast
    | cons group rest =>
        rw [hd] at hlast
        cases hlast with
        | cons hone hnil => cases hnil; exact ⟨group, hone, rfl⟩
  rw [← List.take_append_drop n groups, hdrop]
  have hdollar : (36 : UInt8) ∈ contentLength.value := List.mem_cons_self
  cases hgroup with
  | empty hvalue => cases hvalue
  | text _ hplain => exact absurd hdollar hplain
  | value hcompiled =>
      rw [lastSkip, List.foldl_append]
      simp only [List.foldl_cons, List.foldl_nil]
      rw [skipOf_value, evaluated_eq hcompiled]

theorem countBody_none (h : c.bodySet = none) : countBody conf c r garbage v = (0, garbage, v) := by
  rw [countBody, h]

variable (conf r garbage v) in
theorem countBody_some (hno : .startArgs ∉ codes)
    (h : c.bodySet = some ⟨codes.map lengthOf ++ [.null], codes.map .code ++ [.null]⟩) :
    countBody conf c r garbage v = (groupSize r garbage (reading conf v) codes, garbage,
      { touched conf codes v with internalBodyLength := groupSize r garbage (reading conf v) codes }) := by
  simp only [countBody, h]
  rw [runLengths_codes conf r garbage hno [] v]

theorem countBody_flags (hbody : BuiltBody conf c) : (countBody conf c r garbage v).2.1 = garbage := by
  cases hsource : c.bodySource with
  | none => rw [countBody_none (hbody.absent hsource)]
  | some source =>
      obtain ⟨codes, hcodes, hset⟩ := hbody.codes source hsource
      rw [countBody_some conf r garbage v (compile_codes (fun _ => []) ⟨[], []⟩ hcodes).1 hset]

-- What stands behind the header: nothing of the body but captures, when skip is left set.
def bodyWritten (conf : Script.Conf) (c : LocConf) (r : Request) (value : Nat → Bytes) : Bytes :=
  ((c.bodySource.bind (compile conf)).map fun codes => codes.flatMap
    (written r (decide (evaluated conf value r.captures contentLength.value = [])) value)).getD []

variable (r v) in
theorem writeBody_eq (hcodes : List.Forall₂ (HeaderCodes conf) (configured c) groups) (hbody : BuiltBody conf c) {e : Engine}
    (hflags : e.flags = ⟨false, false⟩) (hskip : e.skip = lastSkip r le (reading conf v) groups false) :
    ∃ v', writeBody conf c r e v = ({ e with pos := e.pos ++ bodyWritten conf c r (reading conf v) }, v') := by
  cases hsource : c.bodySource with
  | none =>
      refine ⟨v, ?_⟩
      simp [writeBody, hbody.absent hsource, bodyWritten, hsource]
  | some source =>
      obtain ⟨codes, hcompiled, hset⟩ := hbody.codes source hsource
      have hno := (compile_codes (fun _ => []) ⟨[], []⟩ hcompiled).1
      obtain ⟨v', -, hrun⟩ := runValues_codes conf r (e := e) hno hflags [] v
      refine ⟨v', ?_⟩
      simp only [writeBody, hset, hrun]
      rw [hskip, lastSkip_eq hcodes (by rw [hsource]; rfl)]
      simp only [bodyWritten, hsource, Option.bind_some, hcompiled, Option.map_some, Option.getD_some]

structure Parts (conf : Script.Conf) (c : LocConf) (garbage : Flags) (pool : Pool) (r : Request) (v : Vars) (size : Nat)
    (m : Made) : Prop where
  fits : m.bytes.length ≤ m.allocated
  counted : (countBody conf c r garbage v).1 ≤ m.allocated
  pool : pool.tempBuf m.allocated = true
  bytes : m.bytes = requestMethod c r ++ writeUri c r ++ proxyVersion ++
    (configured c).flatMap (configuredLine conf (assigned conf c garbage r v) r.captures) ++
    (passedHeaders c ⟨size, (configured c).map hashKeyOf⟩ r).flatMap headerLine ++ crlf ++
    bodyWritten conf c r (assigned conf c garbage r v)

theorem written_length (skip : Bool) (codes : List Script.Code) :
    (codes.flatMap (written r skip value)).length ≤ (codes.flatMap (text value r.captures)).length := by
  induction codes with
  | nil => exact Nat.le_refl _
  | cons code codes ih =>
      have hone : (written r skip value code).length ≤ (text value r.captures code).length := by
        cases code with
        | copyCapture n => exact Nat.le_refl _
        | _ => cases skip <;> simp [written]
      simp only [List.flatMap_cons, List.length_append]
      omega

theorem touched_value (codes : List Script.Code) (v : Vars) : (touched conf codes v).value = v.value := by
  unfold touched
  split <;> rfl

-- A body that reads the variable has it cached, so that the length set behind it changes nothing.
theorem internal_counted (n : Nat) (h : (v.cached.isSome || codes.any (readsInternal conf)) = true) :
    Vars.internal { touched conf codes v with internalBodyLength := n } = v.internal := by
  unfold touched
  split
  next => rfl
  next hno =>
      rw [Bool.eq_false_iff.mpr hno, Bool.or_false] at h
      obtain ⟨cached, hcached⟩ := Option.isSome_iff_exists.mp h
      simp [Vars.internal, hcached]

theorem reading_counted (n : Nat) (h : (v.cached.isSome || codes.any (readsInternal conf)) = true) :
    reading conf { touched conf codes v with internalBodyLength := n } = reading conf v := by
  funext index
  unfold reading getVariable
  split
  · exact congrArg (Option.getD · []) (internal_counted n h)
  · exact congrArg (fun value => (value index).getD []) (touched_value codes v)

variable (r garbage v) in
theorem assigned_text {source : Bytes} (hbody : BuiltBody conf c) (hsource : c.bodySource = some source)
    (hcodes : compile conf source = some codes) :
    codes.flatMap (text (assigned conf c garbage r v) r.captures) = codes.flatMap (text (reading conf v) r.captures) := by
  obtain ⟨codes', hcodes', hset⟩ := hbody.codes source hsource
  rw [hcodes] at hcodes'
  obtain rfl := Option.some.inj hcodes'
  rw [assigned, countBody_some conf r garbage v (compile_codes (fun _ => []) ⟨[], []⟩ hcodes).1 hset]
  cases hreads : v.cached.isSome || codes.any (readsInternal conf) with
  | true => rw [reading_counted _ hreads]
  | false =>
      rw [Bool.or_eq_false_iff] at hreads
      refine List.flatMap_congr fun code hcode => ?_
      cases code with
      | copyVar index =>
          have hother : ¬conf.variableIndex internalName = some index := by
            intro hindex
            have hread := List.any_eq_false.mp hreads.2 _ hcode
            simp [readsInternal, hindex] at hread
          simp only [text, reading, getVariable, if_neg hother, touched_value]
      | _ => rfl

variable (r garbage v) in
theorem evaluated_length {source : Bytes} (hbody : BuiltBody conf c) (hsource : c.bodySource = some source) :
    (evaluated conf (assigned conf c garbage r v) r.captures source).length ≤ (countBody conf c r garbage v).1 := by
  obtain ⟨codes, hcodes, hset⟩ := hbody.codes source hsource
  rw [evaluated_eq hcodes, assigned_text r garbage v hbody hsource hcodes,
    countBody_some conf r garbage v (compile_codes (fun _ => []) ⟨[], []⟩ hcodes).1 hset]
  exact Nat.le_add_right _ _

theorem bodyWritten_length (hbody : BuiltBody conf c) :
    (bodyWritten conf c r (assigned conf c garbage r v)).length ≤ (countBody conf c r garbage v).1 := by
  cases hsource : c.bodySource with
  | none => simp [bodyWritten, hsource]
  | some source =>
      obtain ⟨codes, hcodes, -⟩ := hbody.codes source hsource
      simp only [bodyWritten, hsource, Option.bind_some, hcodes, Option.map_some, Option.getD_some]
      refine Nat.le_trans (written_length _ codes) ?_
      rw [← evaluated_eq hcodes]
      exact evaluated_length r garbage v hbody hsource

-- NGX_OK comes with the parts one behind the other.
theorem createRequest_parts (hbuilt : Built conf c groups size) (hbody : BuiltBody conf c)
    (h : createRequest conf c garbage pool r v = .made m) : Parts conf c garbage pool r v size m := by
  have hcodes : List.Forall₂ (HeaderCodes conf) (configured c) groups := hbuilt.codes
  have hno : ∀ group ∈ groups, .startArgs ∉ group :=
    forall₂_right (R := HeaderCodes conf) (fun _ _ hgroup => noStartArgs hgroup) hcodes
  have hbodyLen : (bodyWritten conf c r (assigned conf c garbage r v)).length ≤ (countBody conf c r garbage v).1 :=
    bodyWritten_length hbody
  unfold createRequest at h
  rw [hbuilt.headersSet, hbuilt.headersSetHash] at h
  cases hn : uriLen c r with
  | none =>
      rw [hn] at h
      cases h
  | some n =>
      have huri := writeUri_length hn
      rw [hn] at h
      dsimp only at h
      split at h
      next => cases h
      next =>
          have hle : (countBody conf c r garbage v).2.1 = garbage := countBody_flags hbody
          have hassigned : assigned conf c garbage r v = reading conf (countBody conf c r garbage v).2.2 := rfl
          rw [hassigned] at hbodyLen
          generalize hcounted : countBody conf c r garbage v = counted at h hle hassigned hbodyLen
          obtain ⟨bodyLen, flags, v₁⟩ := counted
          obtain rfl : flags = garbage := hle
          dsimp only at h hassigned hbodyLen
          obtain ⟨v₂, hv₂, hsum⟩ := sumLengths_groups conf r flags hno v₁
          rw [hsum] at h
          dsimp only at h
          split at h
          next => cases h
          next hpool =>
              simp only [Bool.or_eq_true, Bool.not_eq_true', not_or, Bool.not_eq_false] at hpool
              have hfuel : (groups.flatMap groupLengths).length ≤
                  (groups.flatMap groupLengths ++ [LengthCode.null]).length := by
                rw [List.length_append]
                exact Nat.le_add_right _ _
              obtain ⟨v₃, hv₃, hwrite⟩ := writeHeaders_groups conf r flags hno hfuel
                (e := ⟨⟨false, false⟩, false, requestMethod c r ++ writeUri c r ++ proxyVersion⟩) rfl v₂
              rw [hwrite] at h
              rw [hv₂] at hv₃ hwrite h
              rw [groups_text hcodes] at h
              dsimp only at h
              rw [show headersMerged (c.headersSource.getD []) c.cache c.bodySource.isSome = configured c from rfl] at h hpool
              generalize hpassed : passedHeaders c ⟨size, (configured c).map hashKeyOf⟩ r = passed at h hpool
              obtain ⟨v₄, hrun⟩ := writeBody_eq r v₃ hcodes hbody
                (e := ⟨⟨false, false⟩, lastSkip r flags (reading conf v₁) groups false, requestMethod c r ++ writeUri c r ++
                  proxyVersion ++ (configured c).flatMap (configuredLine conf (reading conf v₁) r.captures) ++
                  passed.flatMap headerLine ++ crlf⟩) rfl (by rw [hv₃])
              rw [hrun, hv₃] at h
              dsimp only at h
              have hmade : m.allocated = (requestMethod c r).length + proxyVersion.length + crlf.length + n + bodyLen +
                    (groups.map (groupSize r flags (reading conf v₁))).sum +
                    (passed.map fun header => (headerLine header).length).sum ∧
                  m.bytes = requestMethod c r ++ writeUri c r ++ proxyVersion ++
                    (configured c).flatMap (configuredLine conf (reading conf v₁) r.captures) ++
                    passed.flatMap headerLine ++ crlf ++ bodyWritten conf c r (reading conf v₁) := by
                split at h
                next =>
                    split at h
                    next =>
                        obtain rfl := Result.made.inj h
                        exact ⟨rfl, rfl⟩
                    next => cases h
                next =>
                    obtain rfl := Result.made.inj h
                    exact ⟨rfl, rfl⟩
              obtain ⟨hallocated, hbytes⟩ := hmade
              have hlines := groups_length r flags (reading conf v₁) groups
              rw [groups_text hcodes] at hlines
              refine ⟨?_, ?_, ?_, ?_⟩
              · rw [hallocated, hbytes]
                simp only [List.length_append, List.length_flatMap (f := headerLine)]
                omega
              · rw [hallocated, hcounted]
                dsimp only
                omega
              · rw [hallocated]
                exact hpool.1
              · rw [hassigned, hbytes, hpassed]

theorem sizeText_eq {n : Nat} (h : n < 2 ^ 63) : sizeText n = Printf.decimal n := by
  have hnat : (BitVec.ofNat 64 n).toNat = n := by
    rw [BitVec.toNat_ofNat]
    exact Nat.mod_eq_of_lt (by omega)
  have hrender : Printf.Renders (ngxString "%uz") [.word (BitVec.ofNat 64 n)] (Printf.decimal n ++ []) := by
    have hdone := Printf.Renders.size (.done []) (BitVec.ofNat 64 n)
    rw [hnat] at hdone
    exact hdone
  have hlen : (Printf.decimal n).length ≤ 2 ^ 64 - 1 - 0 := by
    have hwidth := Printf.decimalWidth_le n (Nat.lt_of_lt_of_le h (by decide))
    rw [Printf.decimal_length n (Nat.lt_of_lt_of_le h (by decide))]
    omega
  rw [List.append_nil] at hrender
  rw [sizeText, Printf.sprintf, Printf.vslprintf_eq_take hrender, Option.getD_some, List.take_of_length_le hlen]

theorem decimal_injective {k n : Nat} (hk : k < 2 ^ 64) (hn : n < 2 ^ 64) (h : Printf.decimal k = Printf.decimal n) :
    k = n := by
  rw [← Printf.digitsValue_decimal k hk, h, Printf.digitsValue_decimal n hn]

-- The generated length reads the variable.
theorem contentLength_evaluated (hcodes : List.Forall₂ (HeaderCodes conf) (configured c) groups)
    (hbody : c.bodySource.isSome = true) : ∃ index, conf.variableIndex internalName = some index ∧
      ∀ value, evaluated conf value r.captures contentLength.value = value index := by
  have hmem : contentLength ∈ configured c := by
    unfold configured headersMerged
    rw [hbody]
    simp
  obtain ⟨group, hgroup⟩ : ∃ group, HeaderCodes conf contentLength group := by
    obtain ⟨front, back, hsplit⟩ := List.append_of_mem hmem
    rw [hsplit] at hcodes
    have hrest := List.forall₂_drop_append _ _ _ hcodes.flip
    obtain ⟨group, -, hgroup, -⟩ := List.forall₂_cons_right_iff.mp hrest
    exact ⟨group, hgroup⟩
  have hdollar : (36 : UInt8) ∈ contentLength.value := List.mem_cons_self
  cases hgroup with
  | empty hvalue => cases hvalue
  | text _ hplain => exact absurd hdollar hplain
  | value hcompiled =>
      have hread := fun value => expands_internal (evaluated_expands value r.captures hcompiled)
      obtain ⟨index, hindex, -⟩ := hread fun _ => []
      refine ⟨index, hindex, fun value => ?_⟩
      obtain ⟨index', hindex', hvalue⟩ := hread value
      rw [hindex] at hindex'
      obtain rfl := Option.some.inj hindex'
      exact hvalue

theorem announced_iff (hcodes : List.Forall₂ (HeaderCodes conf) (configured c) groups) (hbody : BuiltBody conf c)
    (hcount : (countBody conf c r garbage v).1 < 2 ^ 63) :
    (∀ source, c.bodySource = some source →
      evaluated conf (assigned conf c garbage r v) r.captures contentLength.value =
        Printf.decimal (evaluated conf (assigned conf c garbage r v) r.captures source).length) ↔
      Announced conf c garbage r v := by
  cases hsource : c.bodySource with
  | none =>
      refine ⟨fun _ source codes h => ?_, fun _ _ h => by cases h⟩
      rw [hsource] at h
      cases h
  | some source =>
      obtain ⟨codes, hcompiled, hset⟩ := hbody.codes source hsource
      obtain ⟨index, hindex, hvalue⟩ := contentLength_evaluated (r := r) hcodes (by rw [hsource]; rfl)
      have htext := assigned_text r garbage v hbody hsource hcompiled
      have hcounted := countBody_some conf r garbage v (compile_codes (fun _ => []) ⟨[], []⟩ hcompiled).1 hset
      have hone : (∀ source', some source = some source' →
          evaluated conf (assigned conf c garbage r v) r.captures contentLength.value =
            Printf.decimal (evaluated conf (assigned conf c garbage r v) r.captures source').length) ↔
          assigned conf c garbage r v index =
            Printf.decimal (codes.flatMap (text (reading conf v) r.captures)).length := by
        rw [hvalue, ← htext, ← evaluated_eq hcompiled]
        refine ⟨fun h => h source rfl, fun h source' heq => ?_⟩
        obtain rfl := Option.some.inj heq
        exact h
      have htwo : Announced conf c garbage r v ↔ if v.cached.isSome || codes.any (readsInternal conf) then
            v.internal = some (Printf.decimal (codes.flatMap (text (reading conf v) r.captures)).length)
          else v.memory = true ∧ slack r garbage codes = 0 := by
        refine ⟨fun h => h source codes hsource hcompiled, fun h source' codes' hsource' hcompiled' => ?_⟩
        rw [hsource] at hsource'
        obtain rfl := Option.some.inj hsource'
        rw [hcompiled] at hcompiled'
        obtain rfl := Option.some.inj hcompiled'
        exact h
      rw [hone, htwo, assigned, hcounted]
      rw [hcounted] at hcount
      dsimp only at hcount ⊢
      have hsize : groupSize r garbage (reading conf v) codes =
        (codes.flatMap (text (reading conf v) r.captures)).length + slack r garbage codes := rfl
      generalize (codes.flatMap (text (reading conf v) r.captures)).length = len at hsize ⊢
      have hne := Printf.decimal_ne_nil len (by omega)
      cases hreads : v.cached.isSome || codes.any (readsInternal conf) with
      | true =>
          rw [reading_counted _ hreads, reading, getVariable, if_pos hindex, if_pos rfl]
          dsimp only
          cases v.internal with
          | none => exact ⟨fun h => absurd h.symm hne, fun h => by cases h⟩
          | some value => exact ⟨fun h => congrArg some h, fun h => Option.some.inj h⟩
      | false =>
          rw [Bool.or_eq_false_iff] at hreads
          have hsame : touched conf codes v = v := by
            rw [touched, if_neg (by rw [hreads.2]; exact Bool.false_ne_true)]
          have hcached : v.cached = none := Option.isSome_eq_false_iff.mp hreads.1 |> Option.isNone_iff_eq_none.mp
          rw [hsame, reading, getVariable, if_pos hindex, if_neg Bool.false_ne_true]
          simp only [Vars.internal, hcached]
          cases v.memory with
          | false => exact ⟨fun h => absurd h.symm hne, fun h => absurd h.1 Bool.false_ne_true⟩
          | true =>
              rw [if_pos rfl, Option.getD_some, sizeText_eq hcount, hsize]
              constructor
              · intro h
                have heq := decimal_injective (by omega) (by omega) h
                exact ⟨rfl, by omega⟩
              · rintro ⟨-, hzero⟩
                rw [hzero, Nat.add_zero]

-- With a length in front of it the body is written.
theorem bodyWritten_eq (hbody : BuiltBody conf c) (hcount : (countBody conf c r garbage v).1 < 2 ^ 63)
    (h : ∀ source, c.bodySource = some source →
      evaluated conf (assigned conf c garbage r v) r.captures contentLength.value =
        Printf.decimal (evaluated conf (assigned conf c garbage r v) r.captures source).length) :
    bodyWritten conf c r (assigned conf c garbage r v) = bodyText conf c r (assigned conf c garbage r v) := by
  cases hsource : c.bodySource with
  | none => simp [bodyWritten, bodyText, hsource]
  | some source =>
      obtain ⟨codes, hcodes, -⟩ := hbody.codes source hsource
      have hlen := evaluated_length r garbage v hbody hsource
      have hne : evaluated conf (assigned conf c garbage r v) r.captures contentLength.value ≠ [] := by
        rw [h source hsource]
        exact Printf.decimal_ne_nil _ (by omega)
      simp only [bodyWritten, bodyText, hsource, Option.bind_some, hcodes, Option.map_some, Option.getD_some]
      rw [decide_eq_false hne, flatMap_written_false, evaluated_eq hcodes]

theorem createRequest_exact (hmerged : Merged conf tableSize c)
    (h : createRequest conf c garbage pool r v = .made m) :
    Encodes conf c r (assigned conf c garbage r v) m ↔ Announced conf c garbage r v ∧ Hashed c r := by
  obtain ⟨⟨groups, size, hbuilt⟩, hbody⟩ := merged_built hmerged
  have hparts := createRequest_parts hbuilt hbody h
  have hcount := Nat.lt_of_le_of_lt hparts.counted (pool.fits _ hparts.pool)
  have hannounced := announced_iff hbuilt.codes hbody hcount
  have hpassed : _ ↔ Hashed c r := passedHeaders_iff hbuilt.headersSetHash
  constructor
  · intro hencodes
    refine ⟨hannounced.mp hencodes.length, hpassed.mp ?_⟩
    have hbytes := hparts.bytes.symm.trans hencodes.bytes
    rw [writeUri_eq, bodyWritten_eq hbody hcount hencodes.length] at hbytes
    exact List.append_cancel_left (List.append_cancel_right (List.append_cancel_right hbytes))
  · rintro ⟨hann, hhashed⟩
    have hlength := hannounced.mpr hann
    refine ⟨hparts.fits, ?_, hlength⟩
    rw [hparts.bytes, writeUri_eq, bodyWritten_eq hbody hcount hlength, hpassed.mpr hhashed]

theorem made_of_isSome (result : Result) (h : result.made?.isSome = true) : result = .made (result.made?.get h) := by
  cases result with
  | made m => rfl
  | error => cases h
  | fault => cases h

def sampleConf : Script.Conf where
  getHandler _ r := ⟨true, r.captures, r.vars⟩
  noCacheable _ := false
  variableIndex name :=
    if name = ngxString "proxy_host" then some 0 else if name = internalName then some 1 else none
  pnalloc _ := true
  listPush := true

def http : LocConf := ⟨none, none, none, none, none, false, [], false, [], true, true⟩

-- A location with proxy_set_body "hello"
def fallback : LocConf :=
  (mergeLocConf sampleConf (fun _ => some 8) { http with bodySource := some (ngxString "hello") } http).get
    (by decide)

theorem fallback_merged : Merged sampleConf (fun _ => some 8) fallback :=
  .server ⟨rfl, rfl, rfl⟩ ⟨rfl, rfl, rfl⟩ (Option.some_get _).symm

def samplePool : Pool where
  tempBuf n := decide (n < 4096)
  link := true
  bodyBufs := true
  fits n h := by
    have hlt := of_decide_eq_true h
    omega

def sampleRequest : Request where
  upstreamMethod := ⟨[], 0⟩
  methodName := ⟨ngxString "GET", 32⟩
  uri := ngxString "/x"
  args := []
  unparsedUri := ngxString "/x"
  quotedUri := false
  spaceInUri := false
  plusInUri := false
  internal := true
  validUnparsedUri := false
  validLocation := true
  main := true
  ctxUri := []
  captures := ⟨[], []⟩
  headers := []
  requestBufs := []

def sampleVars (cached : Option (Option Bytes)) : Vars := ⟨fun _ => some (ngxString "backend"), cached, 0, true⟩

theorem createRequest_exact_first : ∃ m,
    createRequest sampleConf fallback ⟨false, false⟩ samplePool sampleRequest (sampleVars none) = .made m ∧
      (Encodes sampleConf fallback sampleRequest
          (assigned sampleConf fallback ⟨false, false⟩ sampleRequest (sampleVars none)) m ↔
        Announced sampleConf fallback ⟨false, false⟩ sampleRequest (sampleVars none) ∧ Hashed fallback sampleRequest) := by
  have hmade := made_of_isSome (createRequest sampleConf fallback ⟨false, false⟩ samplePool sampleRequest
    (sampleVars none)) (by decide)
  exact ⟨_, hmade, createRequest_exact fallback_merged hmade⟩

-- The variable has the length of another body, which the request was sent with before an error page led to fallback.
theorem stale_body_length : ∃ m,
    createRequest sampleConf fallback ⟨false, false⟩ samplePool sampleRequest (sampleVars (some (some (ngxString "2")))) =
      .made m ∧
      m.bytes = ngxString
        "GET /x HTTP/1.0\r\nHost: backend\r\nConnection: close\r\nContent-Length: 2\r\n\r\nhello" ∧
      ¬ Encodes sampleConf fallback sampleRequest (assigned sampleConf fallback ⟨false, false⟩ sampleRequest
        (sampleVars (some (some (ngxString "2"))))) m := by
  have hmade := made_of_isSome (createRequest sampleConf fallback ⟨false, false⟩ samplePool sampleRequest
    (sampleVars (some (some (ngxString "2"))))) (by decide)
  refine ⟨_, hmade, by decide, fun hencodes => ?_⟩
  have hlength := hencodes.length (ngxString "hello") rfl
  revert hlength
  decide

end Nginx.Proxy
