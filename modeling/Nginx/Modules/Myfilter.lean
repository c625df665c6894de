import Nginx.Core.Bytes

namespace Nginx.Myfilter

-- ngx_http_myfilter_loc_conf_t; NGX_CONF_UNSET is -1.
structure LocConf where
  argFlag : Int

def createLocConf : LocConf := ⟨-1⟩

-- add_prefix on, add_prefix off, or no directive.
def directive : Option Bool → LocConf
  | none => createLocConf
  | some on => ⟨if on then 1 else 0⟩

-- ngx_conf_merge_value(conf->arg_flag, prev->arg_flag, 0)
def mergeLocConf (prev conf : LocConf) : LocConf :=
  if conf.argFlag = -1 then ⟨if prev.argFlag = -1 then 0 else prev.argFlag⟩ else conf

-- ngx_http_myfilter_ctx_t
structure Ctx where
  flagCount : Int

structure HeadersOut where
  status : Nat
  contentType : Bytes
  contentLengthN : Int

-- ctx is what ngx_http_get_module_ctx finds.
structure Request where
  headersOut : HeadersOut
  ctx : Option Ctx

def filterPrefix : Bytes := ngxString "[my filter prefix]"

def textPlain : Bytes := ngxString "text/plain"

def isTextPlain (type : Bytes) : Bool :=
  decide (textPlain.length ≤ type.length) && strncasecmp type textPlain textPlain.length == some 0

-- if (content_length_n > 0) content_length_n += filter_prefix.len, added in size_t arithmetic.
def addPrefixLen (n : Int) : Int := if 0 < n then toInt64 (n + filterPrefix.length) else n

-- ngx_http_myfilter_header_filter: the request handed to the next header filter, none when
-- ngx_pcalloc fails and NGX_ERROR is returned.
def headerFilter (pcalloc : Bool) (mlcf : LocConf) (r : Request) : Option Request :=
  if r.headersOut.status ≠ 200 then some r
  else if mlcf.argFlag = 0 then some r
  else if r.ctx.isSome then some r
  else if !pcalloc then none
  else if isTextPlain r.headersOut.contentType then
    let n := addPrefixLen r.headersOut.contentLengthN
    some { headersOut := { r.headersOut with contentLengthN := n }, ctx := some ⟨1⟩ }
  else some { r with ctx := some ⟨0⟩ }

-- One call of the body filter: the bufs of the chain it is given, and whether
-- ngx_create_temp_buf and ngx_alloc_chain_link return memory.
structure BodyCall where
  chain : List Bytes
  tempBuf : Bool := true
  chainLink : Bool := true

-- ngx_http_myfilter_body_filter: the chain handed to the next body filter. The results of the
-- two allocations are not checked, so a failure dereferences NULL (none).
def bodyFilter (r : Request) (call : BodyCall) : Option (Request × List Bytes) :=
  match r.ctx with
  | some ⟨1⟩ =>
      if call.tempBuf && call.chainLink then
        some ({ r with ctx := some ⟨2⟩ }, filterPrefix :: call.chain)
      else none
  | _ => some (r, call.chain)

-- The calls one response makes, in order, and the bytes they pass on.
def bodyRun : Request → List BodyCall → Option Bytes
  | _, [] => some []
  | r, call :: calls => do
      let (r, out) ← bodyFilter r call
      let rest ← bodyRun r calls
      return out.flatten ++ rest

-- A whole response: the content_length_n and the body that the next filters see.
def respond (pcalloc : Bool) (mlcf : LocConf) (r : Request) (calls : List BodyCall) :
    Option (Int × Bytes) := do
  let r ← headerFilter pcalloc mlcf r
  let body ← bodyRun r calls
  return (r.headersOut.contentLengthN, body)

def input (calls : List BodyCall) : Bytes := (calls.map fun call => call.chain.flatten).flatten

-- When a prefix is due, in the words of the directive and the headers.
def Active (mlcf : LocConf) (r : Request) : Prop :=
  r.headersOut.status = 200 ∧ mlcf.argFlag = 1 ∧
    (r.headersOut.contentType.map tolower).take textPlain.length = textPlain

instance (mlcf : LocConf) (r : Request) : Decidable (Active mlcf r) := by
  unfold Active
  infer_instance

-- The next filters see the input bytes, behind one prefix when it is due, and a known length
-- that counts them.
def Agrees (mlcf : LocConf) (r : Request) (calls : List BodyCall) (seen : Option (Int × Bytes)) :
    Prop :=
  ∃ n body, seen = some (n, body) ∧ (0 ≤ n → n = body.length) ∧
    body = (if Active mlcf r then filterPrefix else []) ++ input calls

theorem mergeLocConf_flag (prev conf : Option Bool) :
    (mergeLocConf (directive prev) (directive conf)).argFlag = 0 ∨
      (mergeLocConf (directive prev) (directive conf)).argFlag = 1 := by
  rcases prev with _ | _ | _ <;> rcases conf with _ | _ | _ <;> decide

theorem isTextPlain_iff (type : Bytes) :
    isTextPlain type = true ↔ (type.map tolower).take textPlain.length = textPlain := by
  have hfold : (textPlain.take textPlain.length).map tolower = textPlain := by decide
  have hnul : ∀ c ∈ textPlain, tolower c ≠ 0 := by decide +kernel
  unfold isTextPlain
  by_cases hlen : textPlain.length ≤ type.length
  · have h := strncasecmp_eq_zero_iff type textPlain _ hlen (Nat.le_refl _) hnul
    rw [hfold] at h
    simp [hlen, h, List.map_take]
  · have hne : (type.map tolower).take textPlain.length ≠ textPlain := by
      intro h
      have := congrArg List.length h
      simp only [List.length_take, List.length_map] at this
      omega
    simp [hlen, hne]

-- Once the flag is not 1 every call passes its chain on unchanged.
theorem bodyRun_of_ne_one (r : Request) (calls : List BodyCall) (h : r.ctx ≠ some ⟨1⟩) :
    bodyRun r calls = some (input calls) := by
  induction calls with
  | nil => rfl
  | cons call calls ih =>
      have hstep : bodyFilter r call = some (r, call.chain) := by
        unfold bodyFilter
        split
        · rename_i hctx
          exact absurd hctx h
        · rfl
      simp [bodyRun, hstep, ih, input]

-- The first call puts the prefix in front and moves the flag to 2.
theorem bodyRun_of_one (r : Request) (call : BodyCall) (calls : List BodyCall)
    (h : r.ctx = some ⟨1⟩) :
    bodyRun r (call :: calls) =
      if call.tempBuf && call.chainLink then some (filterPrefix ++ input (call :: calls)) else none := by
  have hrest := bodyRun_of_ne_one { r with ctx := some ⟨2⟩ } calls (by simp)
  by_cases ha : (call.tempBuf && call.chainLink) = true
  · simp [bodyRun, bodyFilter, h, ha, hrest, input]
  · simp [bodyRun, bodyFilter, h, ha]

theorem agrees_unchanged (mlcf : LocConf) (r r' : Request) (calls : List BodyCall)
    (hactive : ¬Active mlcf r) (hctx : r'.ctx ≠ some ⟨1⟩)
    (hlen : 0 ≤ r'.headersOut.contentLengthN →
      ((input calls).length : Int) = r'.headersOut.contentLengthN) :
    Agrees mlcf r calls
      ((bodyRun r' calls).bind fun body => some (r'.headersOut.contentLengthN, body)) := by
  rw [bodyRun_of_ne_one r' calls hctx]
  exact ⟨_, _, rfl, fun h => (hlen h).symm, by simp [hactive]⟩

-- The condition under which the two halves of the filter agree: no allocation it depends on
-- fails, and a prefixed response has a body call and a length other than 0.
def Consistent (pcalloc : Bool) (mlcf : LocConf) (r : Request) (calls : List BodyCall) : Prop :=
  (r.headersOut.status = 200 → mlcf.argFlag = 1 → pcalloc = true) ∧
    (Active mlcf r → r.headersOut.contentLengthN ≠ 0 ∧
      ∃ call rest, calls = call :: rest ∧ (call.tempBuf && call.chainLink) = true)

-- The length announced for a prefixed response counts the prefix unless it was 0.
theorem addPrefixLen_agrees_iff (n : Int) (len : Nat) (hn : n < 2 ^ 63)
    (hlen : 0 ≤ n → (len : Int) = n) :
    (0 ≤ addPrefixLen n → addPrefixLen n = (filterPrefix.length + len : Nat)) ↔ n ≠ 0 := by
  have hp : filterPrefix.length = 18 := by decide
  unfold addPrefixLen
  rw [hp]
  rcases Int.lt_trichotomy n 0 with h | h | h
  · rw [if_neg (by omega)]
    omega
  · have := hlen (by omega)
    rw [if_neg (by omega)]
    omega
  · have := hlen (by omega)
    rw [if_pos h, toInt64, Int.bmod_def]
    split <;> omega

theorem headerFilter_active (mlcf : LocConf) (r : Request) (ha : Active mlcf r) (hctx : r.ctx = none) :
    headerFilter true mlcf r = some
      { headersOut :=
          { r.headersOut with contentLengthN := addPrefixLen r.headersOut.contentLengthN },
        ctx := some ⟨1⟩ } := by
  obtain ⟨hs, hf, ht⟩ := ha
  simp [headerFilter, hs, hf, hctx, (isTextPlain_iff _).mpr ht]

-- An inactive filter only remembers that the header was seen.
theorem headerFilter_inactive (mlcf : LocConf) (r : Request) (hflag : mlcf.argFlag = 0 ∨ mlcf.argFlag = 1)
    (ha : ¬Active mlcf r) (hctx : r.ctx = none) :
    ∃ ctx : Option Ctx, ctx ≠ some ⟨1⟩ ∧ headerFilter true mlcf r = some { r with ctx } := by
  by_cases hs : r.headersOut.status = 200
  · rcases hflag with hf | hf
    · exact ⟨none, by simp, by simp [headerFilter, hs, hf, ← hctx]⟩
    · have ht : ¬isTextPlain r.headersOut.contentType = true := by
        intro ht
        exact ha ⟨hs, hf, (isTextPlain_iff _).mp ht⟩
      exact ⟨some ⟨0⟩, by simp, by simp [headerFilter, hs, hf, hctx, ht]⟩
  · exact ⟨none, by simp, by simp [headerFilter, hs, ← hctx]⟩

-- Without memory for its context the header filter gives up only where it needs one.
theorem headerFilter_no_memory (mlcf : LocConf) (r : Request)
    (hflag : mlcf.argFlag = 0 ∨ mlcf.argFlag = 1) (hctx : r.ctx = none) :
    headerFilter false mlcf r =
      if r.headersOut.status = 200 ∧ mlcf.argFlag = 1 then none else headerFilter true mlcf r := by
  by_cases hs : r.headersOut.status = 200
  · rcases hflag with hf | hf <;> simp [headerFilter, hs, hf, hctx]
  · simp [headerFilter, hs]

theorem respond_agrees_iff (pcalloc : Bool) (prev conf : Option Bool) (r : Request)
    (calls : List BodyCall) (hctx : r.ctx = none) (hrange : r.headersOut.contentLengthN < 2 ^ 63)
    (hlen : 0 ≤ r.headersOut.contentLengthN →
      ((input calls).length : Int) = r.headersOut.contentLengthN) :
    let mlcf := mergeLocConf (directive prev) (directive conf)
    Agrees mlcf r calls (respond pcalloc mlcf r calls) ↔ Consistent pcalloc mlcf r calls := by
  intro mlcf
  have hflag : mlcf.argFlag = 0 ∨ mlcf.argFlag = 1 := mergeLocConf_flag prev conf
  by_cases hmem : r.headersOut.status = 200 → mlcf.argFlag = 1 → pcalloc = true
  · have hheader : headerFilter pcalloc mlcf r = headerFilter true mlcf r := by
      cases pcalloc with
      | true => rfl
      | false =>
          rw [headerFilter_no_memory mlcf r hflag hctx, if_neg]
          rintro ⟨hs, hf⟩
          exact absurd (hmem hs hf) (by simp)
    by_cases ha : Active mlcf r
    · have hseen := headerFilter_active mlcf r ha hctx
      have hcount := addPrefixLen_agrees_iff _ (input calls).length hrange hlen
      cases calls with
      | nil =>
          -- no call, no prefix
          have hne : [] ≠ filterPrefix := by decide
          simp [Agrees, Consistent, respond, hheader, hseen, ha, bodyRun, input, hne]
      | cons call calls =>
          have hbody := bodyRun_of_one { headersOut := { r.headersOut with
            contentLengthN := addPrefixLen r.headersOut.contentLengthN }, ctx := some ⟨1⟩ }
            call calls rfl
          by_cases halloc : (call.tempBuf && call.chainLink) = true
          · rw [if_pos halloc] at hbody
            simp only [Agrees, respond, hheader, hseen, hbody, Option.bind_eq_bind,
              Option.bind_some, Option.pure_def, Consistent, ha, if_true]
            constructor
            · rintro ⟨n, body, hseen, hn, -⟩
              simp only [Option.some.injEq, Prod.mk.injEq] at hseen
              obtain ⟨rfl, rfl⟩ := hseen
              rw [List.length_append] at hn
              exact ⟨hmem, fun _ => ⟨hcount.mp hn, call, calls, rfl, halloc⟩⟩
            · rintro ⟨-, h⟩
              refine ⟨_, _, rfl, ?_, rfl⟩
              rw [List.length_append]
              exact hcount.mpr (h trivial).1
          · rw [if_neg halloc] at hbody
            have hfail : ¬Agrees mlcf r (call :: calls) (respond pcalloc mlcf r (call :: calls)) := by
              simp [Agrees, respond, hheader, hseen, hbody]
            refine iff_of_false hfail fun h => ?_
            obtain ⟨-, _, _, heq, hok⟩ := h.2 ha
            obtain ⟨rfl, -⟩ := List.cons.inj heq
            exact halloc hok
    · obtain ⟨ctx, hne, hseen⟩ := headerFilter_inactive mlcf r hflag ha hctx
      have hagrees := agrees_unchanged mlcf r { r with ctx } calls ha hne hlen
      have hrespond : respond pcalloc mlcf r calls =
          ((bodyRun { r with ctx } calls).bind fun body =>
            some (r.headersOut.contentLengthN, body)) := by
        simp [respond, hheader, hseen]
      exact iff_of_true (hrespond ▸ hagrees) ⟨hmem, fun h => absurd h ha⟩
  · have hp : pcalloc = false := by
      cases pcalloc <;> simp_all
    simp only [Classical.not_imp] at hmem
    have hnone : headerFilter pcalloc mlcf r = none := by
      rw [hp, headerFilter_no_memory mlcf r hflag hctx, if_pos ⟨hmem.1, hmem.2.1⟩]
    have hfail : ¬Agrees mlcf r calls (respond pcalloc mlcf r calls) := by
      simp [Agrees, respond, hnone]
    exact iff_of_false hfail fun h => hmem.2.2 (h.1 hmem.1 hmem.2.1)

theorem respond_agrees_iff_hello :
    let mlcf := mergeLocConf (directive none) (directive (some true))
    let r : Request := ⟨⟨200, textPlain, 5⟩, none⟩
    let calls : List BodyCall := [⟨[ngxString "he"], true, true⟩, ⟨[ngxString "llo"], true, true⟩]
    Agrees mlcf r calls (respond true mlcf r calls) ↔ Consistent true mlcf r calls :=
  respond_agrees_iff true none (some true) ⟨⟨200, textPlain, 5⟩, none⟩ _ rfl (by decide)
    (fun _ => by decide)

-- An empty text/plain body sent in one call: length 0 is announced and 18 bytes follow.
theorem empty_text_disagrees :
    let mlcf := mergeLocConf (directive none) (directive (some true))
    let r : Request := ⟨⟨200, textPlain, 0⟩, none⟩
    let calls : List BodyCall := [⟨[], true, true⟩]
    ((input calls).length : Int) = r.headersOut.contentLengthN ∧
      respond true mlcf r calls = some (0, filterPrefix) ∧
      ¬Agrees mlcf r calls (respond true mlcf r calls) := by
  intro mlcf r calls
  have hseen : respond true mlcf r calls = some (0, filterPrefix) := by decide
  refine ⟨by decide, hseen, ?_⟩
  rintro ⟨n, body, heq, hn, -⟩
  rw [hseen] at heq
  simp only [Option.some.injEq, Prod.mk.injEq] at heq
  obtain ⟨rfl, rfl⟩ := heq
  exact absurd (hn (Int.le_refl 0)) (by decide)

end Nginx.Myfilter
