import Nginx.Core.Bytes

namespace Nginx.SubFilter

-- sub_start_state and sub_match_state
inductive State where
  | start
  | matching
deriving DecidableEq

-- What is passed to the next filter: bytes of the body and the replacement.
inductive Piece where
  | text (bytes : Bytes)
  | sub
deriving DecidableEq

-- ngx_http_sub_ctx_t. Positions are counted from ctx->buf->pos, and none is NULL.
structure Ctx where
  saved : Bytes := []
  looked : Bytes := []
  once : Bool := false
  state : State := .start
  pos : Nat := 0
  copyStart : Option Nat := none
  copyEnd : Option Nat := none
  out : List Piece := []

-- The memory from ctx->match.data on, and ctx->match.len
structure Match where
  data : Nat → UInt8
  len : Nat

-- The local variables state, looked with its bytes, and copy_end of ngx_http_sub_parse
structure Scan where
  state : State
  looked : Bytes
  copyEnd : Option Nat

section

variable (m : Match)

-- One turn of the loop: whether the match is complete. The tight loop goes on in the same way in sub_start_state.
def look (p : Nat) (byte : UInt8) (l : Scan) : Bool × Scan :=
  let ch := tolower byte
  match l.state with
  | .start => (false, if ch = m.data 0 then ⟨.matching, [byte], some p⟩ else l)
  | .matching =>
      if ch = m.data l.looked.length then
        (l.looked.length + 1 = m.len, { l with looked := l.looked ++ [byte] })
      else if ch = m.data 0 then (false, ⟨.matching, [byte], some p⟩)
      else (false, ⟨.start, [], some p⟩)

-- The loop over the bytes from p on, up to the last byte of a match or the end
def lookLoop : Bytes → Nat → Scan → Bool × Nat × Scan
  | [], p, l => (false, p, l)
  | byte :: rest, p, l =>
      match look m p byte l with
      | (true, l) => (true, p, l)
      | (false, l) => lookLoop rest (p + 1) l

-- ngx_http_sub_parse: true is NGX_OK, false NGX_AGAIN.
def parse (buf : Bytes) (ctx : Ctx) : Bool × Ctx :=
  if ctx.once then
    (false, { ctx with copyStart := some ctx.pos, copyEnd := some buf.length, pos := buf.length, looked := [] })
  else
    let (found, p, l) := lookLoop m (buf.drop ctx.pos) ctx.pos ⟨ctx.state, ctx.looked, ctx.copyEnd⟩
    if found then
      (true, { ctx with
        saved := if p - ctx.pos < l.looked.length then [] else ctx.saved
        state := .start
        pos := p + 1
        looked := []
        copyEnd := l.copyEnd
        copyStart := if ctx.copyStart = none ∧ l.copyEnd ≠ none then some 0 else ctx.copyStart })
    else
      let copyEnd := if l.state = .start then some p else l.copyEnd
      (false, { ctx with
        state := l.state
        pos := p
        looked := l.looked
        copyEnd := copyEnd
        copyStart := if ctx.copyStart = none ∧ copyEnd ≠ none then some 0 else ctx.copyStart })

-- if (ctx->copy_start != ctx->copy_end)
def copy (buf : Bytes) (ctx : Ctx) : Ctx :=
  if ctx.copyStart = ctx.copyEnd then ctx
  else
    let saved := if ctx.saved = [] then [] else [.text ctx.saved]
    let part := (buf.take (ctx.copyEnd.getD 0)).drop (ctx.copyStart.getD 0)
    { ctx with saved := [], out := ctx.out ++ saved ++ [.text part] }

-- One turn of while (ctx->pos < ctx->buf->last), where once is slcf->once
def turn (once : Bool) (buf : Bytes) (ctx : Ctx) : Ctx :=
  let (found, ctx) := parse m buf ctx
  let ctx := copy buf ctx
  let ctx :=
    if ctx.state = .start then { ctx with copyStart := some ctx.pos, copyEnd := some ctx.pos }
    else { ctx with copyStart := none, copyEnd := none }
  if found then { ctx with out := ctx.out ++ [.sub], once := once } else ctx

-- Each turn takes a byte at least.
def turns (once : Bool) (buf : Bytes) : Nat → Ctx → Ctx
  | 0, ctx => ctx
  | n + 1, ctx => if ctx.pos < buf.length then turns once buf n (turn m once buf ctx) else ctx

-- One turn of while (ctx->in || ctx->buf)
def readBuf (once : Bool) (ctx : Ctx) (buf : Bytes) : Ctx :=
  let ctx := { ctx with pos := 0 }
  let ctx := if ctx.state = .start then { ctx with copyStart := some ctx.pos, copyEnd := some ctx.pos } else ctx
  let ctx := turns m once buf buf.length ctx
  { ctx with saved := ctx.looked }

-- ngx_http_sub_body_filter on the buffers of a chain
def bodyFilter (once : Bool) (ctx : Ctx) (chain : List Bytes) : Ctx :=
  if ctx.once then { ctx with out := ctx.out ++ chain.map .text } else chain.foldl (readBuf m once) ctx

end

-- ctx->match after ngx_strlow, with what the memory holds behind it
def matchOf (value : Bytes) (behind : Nat → UInt8) : Match where
  data := fun i => ((value.map tolower)[i]?).getD (behind i)
  len := value.length

-- The bytes that are passed downstream
def passed (sub : Bytes) (out : List Piece) : Bytes :=
  out.flatMap fun
    | .text bytes => bytes
    | .sub => sub

def respond (value : Bytes) (behind : Nat → UInt8) (sub : Bytes) (once : Bool) (calls : List (List Bytes)) : Bytes :=
  passed sub (calls.foldl (bodyFilter (matchOf value behind) once) {}).out

-- The leftmost occurrences of pat, which do not overlap, or the first one, with sub in their place; skip is what is
-- left of an occurrence.
def substitute (pat sub : Bytes) (once : Bool) : Nat → Bytes → Bytes
  | _, [] => []
  | 0, c :: x =>
      if pat <+: (c :: x).map tolower then
        sub ++ if once then x.drop (pat.length - 1) else substitute pat sub once (pat.length - 1) x
      else c :: substitute pat sub once 0 x
  | skip + 1, _ :: x => substitute pat sub once skip x


-- The output with the replacement still open: none stands for it.
def holes (out : List Piece) : List (Option UInt8) :=
  out.flatMap fun
    | .text bytes => bytes.map some
    | .sub => [none]

def fill (sub : Bytes) (h : List (Option UInt8)) : Bytes :=
  h.flatMap fun
    | some byte => [byte]
    | none => sub

theorem passed_eq_fill (sub : Bytes) (out : List Piece) : passed sub out = fill sub (holes out) := by
  induction out with
  | nil => rfl
  | cons piece out ih =>
      have hpiece : fill sub (holes (piece :: out)) = fill sub (holes [piece]) ++ fill sub (holes out) := by
        simp [fill, holes]
      rw [hpiece, ← ih]
      cases piece with
      | text bytes => simp [passed, fill, holes, List.flatMap_map]
      | sub => simp [passed, fill, holes]

theorem holes_append (out more : List Piece) : holes (out ++ more) = holes out ++ holes more := List.flatMap_append

-- The bytes of a buffer from position p on, each with whether it is the first one of the buffer
def marks : Nat → Bytes → List (UInt8 × Bool)
  | _, [] => []
  | p, c :: x => (c, p = 0) :: marks (p + 1) x

def body (calls : List (List Bytes)) : List (UInt8 × Bool) := calls.flatten.flatMap (marks 0)

@[simp] theorem marks_fst (p : Nat) (buf : Bytes) : (marks p buf).map Prod.fst = buf := by
  induction buf generalizing p with
  | nil => rfl
  | cons c x ih => rw [marks, List.map_cons, ih]

@[simp] theorem marks_some (p : Nat) (buf : Bytes) : ((marks p buf).map fun b => some b.1) = buf.map some := by
  conv_rhs => rw [← marks_fst p buf, List.map_map]
  rfl

theorem body_fst (calls : List (List Bytes)) : (body calls).map Prod.fst = calls.flatten.flatten := by
  rw [body, List.map_flatMap]
  simp

-- The filter as it reads the body: idle, or trying to match with the bytes w behind it and the bytes old, saved from
-- an earlier buffer, that it has given up but not passed
inductive Mode where
  | idle
  | trying (old w : Bytes)

section

variable (m : Match) (once : Bool)

def run : Mode → List (UInt8 × Bool) → List (Option UInt8)
  | _, [] => []
  | .idle, (c, _) :: x => if tolower c = m.data 0 then run (.trying [] [c]) x else some c :: run .idle x
  | .trying old w, (c, first) :: x =>
      -- The first byte of a buffer finds w in ctx->saved, and old overwritten.
      let old := if first then [] else old
      if tolower c = m.data w.length then
        if w.length + 1 = m.len then none :: if once then x.map fun b => some b.1 else run .idle x
        else run (.trying old (w ++ [c])) x
      else if tolower c = m.data 0 then
        if first then run (.trying w [c]) x else (old ++ w).map some ++ run (.trying [] [c]) x
      else (old ++ w ++ [c]).map some ++ run .idle x

-- What follows a match
def after (x : List (UInt8 × Bool)) : List (Option UInt8) := if once then x.map fun b => some b.1 else run m once .idle x

variable {m} {c : UInt8} {old w : Bytes}

theorem run_next (h : tolower c = m.data w.length) (hlen : w.length + 1 ≠ m.len) (first : Bool) (x : List (UInt8 × Bool)) :
    run m once (.trying old w) ((c, first) :: x) = run m once (.trying (if first then [] else old) (w ++ [c])) x := by
  simp [run, h, hlen]

theorem run_done (h : tolower c = m.data w.length) (hlen : w.length + 1 = m.len) (first : Bool) (x : List (UInt8 × Bool)) :
    run m once (.trying old w) ((c, first) :: x) = none :: after m once x := by
  simp [run, h, hlen, after]

theorem run_again (h : tolower c ≠ m.data w.length) (hfirst : tolower c = m.data 0) (first : Bool) (x : List (UInt8 × Bool)) :
    run m once (.trying old w) ((c, first) :: x) =
      if first then run m once (.trying w [c]) x else (old ++ w).map some ++ run m once (.trying [] [c]) x := by
  rw [run]
  simp only [if_neg h, if_pos hfirst]
  cases first <;> rfl

theorem run_fail (h : tolower c ≠ m.data w.length) (hfirst : tolower c ≠ m.data 0) (first : Bool) (x : List (UInt8 × Bool)) :
    run m once (.trying old w) ((c, first) :: x) =
      ((if first then [] else old) ++ w ++ [c]).map some ++ run m once .idle x := by
  simp [run, h, hfirst]

end

section

-- A call of ngx_http_sub_parse on buf, with ctx->saved and ctx->copy_start
variable (m : Match) (once : Bool) (saved : Bytes) (copyStart : Option Nat) (buf : Bytes)

def Scan.mode (l : Scan) : Mode :=
  match l.state with
  | .start => .idle
  | .matching => .trying (if l.copyEnd = some (copyStart.getD 0) then saved else []) l.looked

-- What is passed of the buffer up to copyEnd, behind ctx->saved
def handed (copyEnd : Option Nat) : Bytes :=
  match copyEnd with
  | none => []
  | some q => if q = copyStart.getD 0 then [] else saved ++ (buf.take q).drop (copyStart.getD 0)

-- If the call ends at p
def Scan.copied (p : Nat) (l : Scan) : Bytes :=
  handed saved copyStart buf (if l.state = .start then some p else l.copyEnd)

def Scan.Fits (p : Nat) (l : Scan) : Prop :=
  match l.state, l.copyEnd with
  | .start, _ => copyStart.getD 0 ≤ p ∧ (p = copyStart.getD 0 → saved = []) ∧ l.looked = []
  | .matching, none => copyStart = none ∧ l.looked = saved ++ buf.take p
  | .matching, some q => copyStart.getD 0 ≤ q ∧ q < p ∧ l.looked = (buf.take p).drop q

variable {m once saved copyStart buf}

theorem part_succ {p q : Nat} {c : UInt8} (hc : buf[p]? = some c) (hq : q ≤ p) :
    (buf.take (p + 1)).drop q = (buf.take p).drop q ++ [c] := by
  obtain ⟨hlt, _⟩ := List.getElem?_eq_some_iff.mp hc
  rw [List.take_add_one, hc, Option.toList_some, List.drop_append_of_le_length (by simp; omega)]

theorem part_join {start p q : Nat} (hstart : start ≤ q) (hq : q ≤ p) (hp : p ≤ buf.length) :
    (buf.take q).drop start ++ (buf.take p).drop q = (buf.take p).drop start := by
  have hsplit : buf.take p = buf.take q ++ (buf.take p).drop q := by
    have htake : (buf.take p).take q = buf.take q := by rw [List.take_take, Nat.min_eq_left hq]
    rw [← htake, List.take_append_drop]
  conv_rhs => rw [hsplit]
  rw [List.drop_append_of_le_length (by simp; omega)]

-- What look does of one byte, once with the bytes copied so far and once without
def Follows (m : Match) (once : Bool) (saved : Bytes) (copyStart : Option Nat) (buf : Bytes) (p : Nat) (byte : UInt8) (l : Scan)
    (x : List (UInt8 × Bool)) : Prop :=
  (look m p byte l).2.Fits saved copyStart buf (p + 1) ∧
    (l.copied saved copyStart buf p).map some ++ run m once (l.mode saved copyStart) ((byte, p = 0) :: x) =
      ((look m p byte l).2.copied saved copyStart buf (p + 1)).map some ++
        if (look m p byte l).1 then none :: after m once x
        else run m once ((look m p byte l).2.mode saved copyStart) x

section

variable {p : Nat} {byte : UInt8} {looked : Bytes} {copyEnd : Option Nat}

theorem look_next (h : tolower byte = m.data looked.length) :
    look m p byte ⟨.matching, looked, copyEnd⟩ =
      (decide (looked.length + 1 = m.len), ⟨.matching, looked ++ [byte], copyEnd⟩) := by
  simp [look, h]

theorem look_again (h : tolower byte ≠ m.data looked.length) (hfirst : tolower byte = m.data 0) :
    look m p byte ⟨.matching, looked, copyEnd⟩ = (false, ⟨.matching, [byte], some p⟩) := by
  simp only [look, if_neg h, if_pos hfirst]

theorem look_fail (h : tolower byte ≠ m.data looked.length) (hfirst : tolower byte ≠ m.data 0) :
    look m p byte ⟨.matching, looked, copyEnd⟩ = (false, ⟨.start, [], some p⟩) := by
  simp only [look, if_neg h, if_neg hfirst]

theorem fits_one (hc : buf[p]? = some byte) (hstart : copyStart.getD 0 ≤ p) :
    Scan.Fits saved copyStart buf (p + 1) ⟨.matching, [byte], some p⟩ := by
  refine ⟨hstart, Nat.lt_succ_self p, ?_⟩
  rw [part_succ hc (Nat.le_refl p)]
  simp

theorem look_start (x : List (UInt8 × Bool)) (hc : buf[p]? = some byte)
    (hfits : Scan.Fits saved copyStart buf p ⟨.start, looked, copyEnd⟩) :
    Follows m once saved copyStart buf p byte ⟨.start, looked, copyEnd⟩ x := by
  obtain ⟨hstart, hsaved, hlooked⟩ := hfits
  have hpart := part_succ hc hstart
  by_cases hbyte : tolower byte = m.data 0
  · have hlook : look m p byte ⟨.start, looked, copyEnd⟩ = (false, ⟨.matching, [byte], some p⟩) := by simp [look, hbyte]
    refine ⟨by rw [hlook]; exact fits_one hc hstart, ?_⟩
    rw [hlook]
    by_cases hp : p = copyStart.getD 0
    · simp [Scan.mode, Scan.copied, handed, run, hbyte, hp, hsaved hp]
    · simp [Scan.mode, Scan.copied, handed, run, hbyte, hp]
  · have hlook : look m p byte ⟨.start, looked, copyEnd⟩ = (false, ⟨.start, looked, copyEnd⟩) := by simp [look, hbyte]
    have hne : p + 1 ≠ copyStart.getD 0 := by omega
    refine ⟨by rw [hlook]; exact ⟨by omega, fun h => absurd h hne, hlooked⟩, ?_⟩
    rw [hlook]
    by_cases hp : p = copyStart.getD 0
    · subst hp
      simp [Scan.mode, Scan.copied, handed, run, hbyte, hsaved, hpart]
    · simp [Scan.mode, Scan.copied, handed, run, hbyte, hp, hne, hpart]

-- The attempt has begun before the call.
theorem look_carried (x : List (UInt8 × Bool)) (hc : buf[p]? = some byte)
    (hfits : Scan.Fits saved copyStart buf p ⟨.matching, looked, none⟩) :
    Follows m once saved copyStart buf p byte ⟨.matching, looked, none⟩ x := by
  obtain ⟨rfl, hlooked⟩ : copyStart = none ∧ looked = saved ++ buf.take p := hfits
  have hpart : buf.take (p + 1) = buf.take p ++ [byte] := part_succ hc (Nat.zero_le p)
  by_cases hbyte : tolower byte = m.data looked.length
  · refine ⟨?_, ?_⟩
    · rw [look_next hbyte]
      exact ⟨rfl, by rw [hlooked, hpart, List.append_assoc]⟩
    · rw [look_next hbyte]
      by_cases hlen : looked.length + 1 = m.len
      · simp [Scan.mode, Scan.copied, handed, run_done once hbyte hlen, hlen]
      · simp [Scan.mode, Scan.copied, handed, run_next once hbyte hlen, hlen]
  · by_cases hfirst : tolower byte = m.data 0
    · refine ⟨by rw [look_again hbyte hfirst]; exact fits_one hc (Nat.zero_le p), ?_⟩
      rw [look_again hbyte hfirst, Scan.mode, run_again once hbyte hfirst]
      by_cases hp : p = 0
      · simp [Scan.mode, Scan.copied, handed, hp, hlooked]
      · simp [Scan.mode, Scan.copied, handed, hp, hlooked]
    · refine ⟨by rw [look_fail hbyte hfirst]; exact ⟨Nat.zero_le _, fun h => absurd h (Nat.succ_ne_zero p), rfl⟩, ?_⟩
      rw [look_fail hbyte hfirst, Scan.mode, run_fail once hbyte hfirst]
      simp [Scan.mode, Scan.copied, handed, hlooked, hpart]

-- It has begun at q.
theorem look_begun {q : Nat} (x : List (UInt8 × Bool)) (hc : buf[p]? = some byte)
    (hfits : Scan.Fits saved copyStart buf p ⟨.matching, looked, some q⟩) :
    Follows m once saved copyStart buf p byte ⟨.matching, looked, some q⟩ x := by
  obtain ⟨hstart, hq, hlooked⟩ : copyStart.getD 0 ≤ q ∧ q < p ∧ looked = (buf.take p).drop q := hfits
  obtain ⟨hlt, _⟩ := List.getElem?_eq_some_iff.mp hc
  have hall := part_succ hc (Nat.le_trans hstart (Nat.le_of_lt hq))
  have hp : p ≠ 0 := by omega
  have hpstart : p ≠ copyStart.getD 0 := by omega
  have hpstart' : p + 1 ≠ copyStart.getD 0 := by omega
  have hgiven : Scan.copied saved copyStart buf p ⟨.matching, looked, some q⟩ ++
      ((if q = copyStart.getD 0 then saved else []) ++ looked) = saved ++ (buf.take p).drop (copyStart.getD 0) := by
    by_cases hqs : q = copyStart.getD 0
    · simp [Scan.copied, handed, hqs, hlooked]
    · simp [Scan.copied, handed, hqs, hlooked, part_join hstart (Nat.le_of_lt hq) (Nat.le_of_lt hlt)]
  by_cases hbyte : tolower byte = m.data looked.length
  · refine ⟨?_, ?_⟩
    · rw [look_next hbyte]
      exact ⟨hstart, Nat.lt_succ_of_lt hq, by rw [part_succ hc (Nat.le_of_lt hq), hlooked]⟩
    · rw [look_next hbyte]
      by_cases hlen : looked.length + 1 = m.len
      · simp [Scan.mode, Scan.copied, handed, run_done once hbyte hlen, hlen]
      · simp [Scan.mode, Scan.copied, handed, run_next once hbyte hlen, hlen, hp]
  · by_cases hfirst : tolower byte = m.data 0
    · refine ⟨by rw [look_again hbyte hfirst]; exact fits_one hc (by omega), ?_⟩
      have hnext : Scan.copied saved copyStart buf (p + 1) ⟨.matching, [byte], some p⟩ = saved ++ (buf.take p).drop (copyStart.getD 0) := by
        simp [Scan.copied, handed, hpstart]
      rw [look_again hbyte hfirst, Scan.mode, run_again once hbyte hfirst, hnext, ← hgiven]
      simp [Scan.mode, hp, hpstart]
    · refine ⟨by rw [look_fail hbyte hfirst]; exact ⟨by omega, fun h => absurd h hpstart', rfl⟩, ?_⟩
      have hnext : Scan.copied saved copyStart buf (p + 1) ⟨.start, [], some p⟩ =
          saved ++ (buf.take p).drop (copyStart.getD 0) ++ [byte] := by
        simp [Scan.copied, handed, hpstart', hall]
      rw [look_fail hbyte hfirst, Scan.mode, run_fail once hbyte hfirst, hnext, ← hgiven]
      simp [Scan.mode, hp]

end

theorem look_follows {p : Nat} {byte : UInt8} {l : Scan} (x : List (UInt8 × Bool))
    (hc : buf[p]? = some byte) (hfits : l.Fits saved copyStart buf p) :
    Follows m once saved copyStart buf p byte l x := by
  obtain ⟨state, looked, copyEnd⟩ := l
  cases state with
  | start => exact look_start x hc hfits
  | matching =>
      cases copyEnd with
      | none => exact look_carried x hc hfits
      | some q => exact look_begun x hc hfits

theorem copied_matching {l : Scan} (hs : l.state = .matching) (p p' : Nat) :
    l.copied saved copyStart buf p = l.copied saved copyStart buf p' := by
  simp [Scan.copied, hs]

theorem look_true {p : Nat} {byte : UInt8} {l : Scan} (h : (look m p byte l).1 = true) :
    (look m p byte l).2.state = .matching := by
  simp only [look] at h ⊢
  split
  · next hs => simp [hs] at h
  · next hs =>
      by_cases hbyte : tolower byte = m.data l.looked.length
      · simp [hbyte, hs]
      · rw [hs] at h
        simp only [if_neg hbyte] at h
        split at h <;> cases h

-- How the loop ends: at the end of the buffer, or at the last byte of a match.
def Ends (m : Match) (once : Bool) (saved : Bytes) (copyStart : Option Nat) (buf : Bytes) (x : List (UInt8 × Bool)) (p : Nat)
    (result : Bool × Nat × Scan) (h : List (Option UInt8)) : Prop :=
  let (found, p', l') := result
  if found then
    p ≤ p' ∧ p' < buf.length ∧ l'.state = .matching ∧ l'.Fits saved copyStart buf (p' + 1) ∧
      h = (l'.copied saved copyStart buf p').map some ++ none :: after m once (marks (p' + 1) (buf.drop (p' + 1)) ++ x)
  else
    p' = buf.length ∧ l'.Fits saved copyStart buf p' ∧
      h = (l'.copied saved copyStart buf p').map some ++ run m once (l'.mode saved copyStart) x

theorem Ends.mono {x : List (UInt8 × Bool)} {p q : Nat} {result : Bool × Nat × Scan} {h : List (Option UInt8)}
    (hends : Ends m once saved copyStart buf x q result h) (hpq : p ≤ q) : Ends m once saved copyStart buf x p result h := by
  obtain ⟨found, p', l'⟩ := result
  cases found with
  | true => exact ⟨Nat.le_trans hpq hends.1, hends.2⟩
  | false => exact hends

theorem lookLoop_ends (once : Bool) (x : List (UInt8 × Bool)) {rest : Bytes} {p : Nat} {l : Scan} (hrest : buf.drop p = rest)
    (hp : p ≤ buf.length) (hfits : l.Fits saved copyStart buf p) :
    Ends m once saved copyStart buf x p (lookLoop m rest p l)
      ((l.copied saved copyStart buf p).map some ++ run m once (l.mode saved copyStart) (marks p rest ++ x)) := by
  induction rest generalizing p l with
  | nil =>
      have hend : p = buf.length := by
        have := List.drop_eq_nil_iff.mp hrest
        omega
      exact ⟨hend, hfits, rfl⟩
  | cons byte rest ih =>
      have hlt : p < buf.length := by
        by_contra hge
        rw [List.drop_eq_nil_of_le (by omega)] at hrest
        cases hrest
      rw [List.drop_eq_getElem_cons hlt, List.cons.injEq] at hrest
      obtain ⟨hc, hrest⟩ := hrest
      obtain ⟨hfits', hrun⟩ := look_follows (m := m) (marks (p + 1) rest ++ x)
        (List.getElem?_eq_some_iff.mpr ⟨hlt, hc⟩) hfits
      rw [lookLoop, marks, List.cons_append, hrun]
      have hstate : (look m p byte l).1 = true → _ := look_true
      revert hfits' hstate
      obtain ⟨found, l'⟩ := look m p byte l
      intro hfits' hstate
      cases found with
      | true =>
          refine ⟨Nat.le_refl p, hlt, hstate rfl, hfits', ?_⟩
          rw [copied_matching (hstate rfl) p (p + 1), hrest]
          rfl
      | false =>
          exact (ih hrest hlt hfits').mono (Nat.le_succ p)

theorem Scan.Fits.none {p : Nat} {l : Scan} (h : l.Fits saved copyStart buf p) (hs : l.state = .matching)
    (hend : l.copyEnd = none) : copyStart = none := by
  rw [Scan.Fits, hs, hend] at h
  exact h.1

-- ctx->saved is cleared by a match when copying has not gone on in the call.
theorem Scan.Fits.clears {p : Nat} {l : Scan} (h : l.Fits saved copyStart buf (p + 1)) (hs : l.state = .matching)
    (hp : p < buf.length) :
    p - copyStart.getD 0 < l.looked.length ↔ l.copyEnd.getD (copyStart.getD 0) = copyStart.getD 0 := by
  rw [Scan.Fits, hs] at h
  cases hend : l.copyEnd with
  | none =>
      rw [hend] at h
      obtain ⟨rfl, hlooked⟩ := h
      simp [hlooked]
      omega
  | some q =>
      rw [hend] at h
      obtain ⟨hstart, hq, hlooked⟩ := h
      simp [hlooked]
      omega

theorem starts {copyEnd : Option Nat} {q : Nat} (hend : copyEnd = some q) :
    (if copyStart = none ∧ copyEnd ≠ none then some 0 else copyStart) = some (copyStart.getD 0) := by
  rw [hend]
  cases copyStart <;> simp

theorem copy_out {ctx : Ctx} (copyStart : Option Nat)
    (hstart : ctx.copyStart = if copyStart = none ∧ ctx.copyEnd ≠ none then some 0 else copyStart)
    (hnone : ctx.copyEnd = none → copyStart = none) :
    holes (copy buf ctx).out = holes ctx.out ++ (handed ctx.saved copyStart buf ctx.copyEnd).map some := by
  cases hend : ctx.copyEnd with
  | none =>
      have heq : ctx.copyStart = ctx.copyEnd := by simp [hstart, hend, hnone hend]
      simp [copy, heq, handed]
  | some q =>
      have hsome : ctx.copyStart = some (copyStart.getD 0) := hstart.trans (starts hend)
      by_cases hq : q = copyStart.getD 0
      · simp [copy, hsome, hend, hq, handed]
      · have hne : copyStart.getD 0 ≠ q := fun h => hq h.symm
        by_cases hsaved : ctx.saved = []
        · simp [copy, hsome, hend, hq, hne, handed, hsaved, holes]
        · simp [copy, hsome, hend, hq, hne, handed, hsaved, holes]

end

@[simp] theorem copy_pos (buf : Bytes) (ctx : Ctx) : (copy buf ctx).pos = ctx.pos := by
  unfold copy
  split <;> rfl

@[simp] theorem copy_state (buf : Bytes) (ctx : Ctx) : (copy buf ctx).state = ctx.state := by
  unfold copy
  split <;> rfl

@[simp] theorem copy_looked (buf : Bytes) (ctx : Ctx) : (copy buf ctx).looked = ctx.looked := by
  unfold copy
  split <;> rfl

@[simp] theorem copy_once (buf : Bytes) (ctx : Ctx) : (copy buf ctx).once = ctx.once := by
  unfold copy
  split <;> rfl

theorem copy_saved {buf : Bytes} {ctx : Ctx} (h : ctx.copyStart ≠ ctx.copyEnd ∨ ctx.saved = []) : (copy buf ctx).saved = [] := by
  unfold copy
  split
  · next heq => exact h.resolve_left (fun hne => hne heq)
  · rfl

-- What holds of ctx in a buffer
def Ctx.Within (buf : Bytes) (ctx : Ctx) : Prop :=
  ctx.pos ≤ buf.length ∧
    match ctx.state with
    | .start => ctx.copyStart = some ctx.pos ∧ ctx.saved = [] ∧ ctx.looked = []
    | .matching => ctx.once = false ∧ ctx.copyStart = none ∧ ctx.copyEnd = none ∧
        (ctx.pos = 0 ∧ ctx.saved = ctx.looked ∨ ctx.pos = buf.length)

-- What is made of the rest of the body
def Ctx.left (m : Match) (once : Bool) (ctx : Ctx) (x : List (UInt8 × Bool)) : List (Option UInt8) :=
  if ctx.once then x.map fun b => some b.1
  else
    match ctx.state with
    | .start => run m once .idle x
    | .matching => run m once (.trying [] ctx.looked) x

def Fresh (x : List (UInt8 × Bool)) : Prop := ∀ b ∈ x.head?, b.2 = true

theorem run_fresh (m : Match) (once : Bool) {x : List (UInt8 × Bool)} (hx : Fresh x) (old w : Bytes) :
    run m once (.trying old w) x = run m once (.trying [] w) x := by
  cases x with
  | nil => rfl
  | cons b x =>
      obtain ⟨c, first⟩ := b
      obtain rfl : first = true := hx (c, first) rfl
      simp [run]

section

variable {m : Match} {once : Bool} {buf : Bytes} {ctx : Ctx} {x : List (UInt8 × Bool)}

-- What a turn does: it takes bytes, and what it passes and what is left for it to make of the body stay the same.
def Turned (m : Match) (once : Bool) (buf : Bytes) (x : List (UInt8 × Bool)) (ctx ctx' : Ctx) : Prop :=
  ctx'.Within buf ∧ ctx.pos < ctx'.pos ∧
    holes ctx.out ++ ctx.left m once (marks ctx.pos (buf.drop ctx.pos) ++ x) =
      holes ctx'.out ++ ctx'.left m once (marks ctx'.pos (buf.drop ctx'.pos) ++ x)

theorem turn_eq {found : Bool} {ctx' : Ctx} (h : parse m buf ctx = (found, ctx')) :
    turn m once buf ctx =
      { saved := (copy buf ctx').saved
        looked := ctx'.looked
        once := if found then once else ctx'.once
        state := ctx'.state
        pos := ctx'.pos
        copyStart := if ctx'.state = .start then some ctx'.pos else none
        copyEnd := if ctx'.state = .start then some ctx'.pos else none
        out := (copy buf ctx').out ++ if found then [.sub] else [] } := by
  have hlooked := copy_looked buf ctx'
  have honce := copy_once buf ctx'
  have hstate := copy_state buf ctx'
  have hpos := copy_pos buf ctx'
  rw [turn, h]
  cases hs : ctx'.state <;> cases found <;> simp_all

theorem turned_of_parse {found : Bool} {ctx' : Ctx} (h : parse m buf ctx = (found, ctx')) (hpos : ctx.pos < ctx'.pos)
    (hlast : ctx'.pos ≤ buf.length) (hstart : ctx'.state = .start → (copy buf ctx').saved = [] ∧ ctx'.looked = [])
    (hmatching : ctx'.state = .matching → found = false ∧ ctx'.once = false ∧ ctx'.pos = buf.length)
    (hleft : holes ctx.out ++ ctx.left m once (marks ctx.pos (buf.drop ctx.pos) ++ x) =
      holes (copy buf ctx').out ++
        if found then none :: after m once (marks ctx'.pos (buf.drop ctx'.pos) ++ x)
        else ctx'.left m once (marks ctx'.pos (buf.drop ctx'.pos) ++ x)) :
    Turned m once buf x ctx (turn m once buf ctx) := by
  rw [turn_eq h]
  cases hs : ctx'.state with
  | start =>
      obtain ⟨hsaved, hlooked⟩ := hstart hs
      refine ⟨⟨hlast, by simp [hsaved, hlooked]⟩, hpos, ?_⟩
      rw [hleft]
      cases found with
      | true => simp [holes, Ctx.left, after]
      | false => simp [Ctx.left, hs]
  | matching =>
      obtain ⟨rfl, honce, hend⟩ := hmatching hs
      refine ⟨⟨hlast, by simp [honce, hend]⟩, hpos, ?_⟩
      rw [hleft]
      simp [Ctx.left, hs]

theorem Ctx.Within.start (hctx : ctx.Within buf) (hs : ctx.state = .start) :
    ctx.copyStart = some ctx.pos ∧ ctx.saved = [] ∧ ctx.looked = [] := by
  have h := hctx.2
  rwa [hs] at h

theorem Ctx.Within.matching (hctx : ctx.Within buf) (hs : ctx.state = .matching) (hpos : ctx.pos < buf.length) :
    ctx.once = false ∧ ctx.copyStart = none ∧ ctx.copyEnd = none ∧ ctx.pos = 0 ∧ ctx.saved = ctx.looked := by
  have h := hctx.2
  rw [hs] at h
  obtain ⟨honce, hstart, hend, ⟨hzero, hsaved⟩ | hlast⟩ := h
  · exact ⟨honce, hstart, hend, hzero, hsaved⟩
  · omega

theorem turn_once (hctx : ctx.Within buf) (hpos : ctx.pos < buf.length) (honce : ctx.once = true) :
    Turned m once buf x ctx (turn m once buf ctx) := by
  have hstate : ctx.state = .start := by
    cases hs : ctx.state with
    | start => rfl
    | matching => exact absurd honce (by simp [(hctx.matching hs hpos).1])
  obtain ⟨-, hsaved, -⟩ := hctx.start hstate
  have hne : buf.length ≠ ctx.pos := by omega
  have hparse : parse m buf ctx = (false, { ctx with
      copyStart := some ctx.pos, copyEnd := some buf.length, pos := buf.length, looked := [] }) := by
    rw [parse, if_pos honce]
  apply turned_of_parse hparse hpos (Nat.le_refl _)
  · intro _
    exact ⟨copy_saved (Or.inr hsaved), rfl⟩
  · simp [hstate]
  · rw [copy_out (some ctx.pos) (by simp) (by simp)]
    simp [Ctx.left, honce, handed, hsaved, hne, marks]

theorem turn_found {p : Nat} {l' : Scan} (honce : ctx.once ≠ true) (hfrom : ctx.copyStart.getD 0 = ctx.pos)
    (hloop : lookLoop m (buf.drop ctx.pos) ctx.pos ⟨ctx.state, ctx.looked, ctx.copyEnd⟩ = (true, p, l'))
    (hends : Ends m once ctx.saved ctx.copyStart buf x ctx.pos (true, p, l')
      (ctx.left m once (marks ctx.pos (buf.drop ctx.pos) ++ x))) :
    Turned m once buf x ctx (turn m once buf ctx) := by
  obtain ⟨hpos, hlt, hs, hfits, hleft⟩ := hends
  have hparse : parse m buf ctx = (true, { ctx with
      saved := if p - ctx.pos < l'.looked.length then [] else ctx.saved
      state := .start
      pos := p + 1
      looked := []
      copyEnd := l'.copyEnd
      copyStart := if ctx.copyStart = none ∧ l'.copyEnd ≠ none then some 0 else ctx.copyStart }) := by
    rw [parse, if_neg honce, hloop]
    rfl
  have hclears := hfits.clears hs hlt
  rw [hfrom] at hclears
  apply turned_of_parse hparse (Nat.lt_succ_of_le hpos) hlt
  · intro _
    refine ⟨copy_saved ?_, rfl⟩
    by_cases hsaved : p - ctx.pos < l'.looked.length
    · exact Or.inr (if_pos hsaved)
    · left
      cases hend : l'.copyEnd with
      | none => exact absurd (hclears.mpr (by rw [hend]; rfl)) hsaved
      | some q =>
          have hq : q ≠ ctx.pos := fun hq => hsaved (hclears.mpr (by rw [hend, hq]; rfl))
          simp only [starts rfl, hfrom]
          exact fun heq => hq (Option.some.inj heq).symm
  · simp
  · rw [copy_out _ rfl (hfits.none hs), hleft]
    have hhanded : handed (if p - ctx.pos < l'.looked.length then [] else ctx.saved) ctx.copyStart buf l'.copyEnd =
        l'.copied ctx.saved ctx.copyStart buf p := by
      rw [Scan.copied, hs]
      by_cases hsaved : p - ctx.pos < l'.looked.length
      · have hgetD := hclears.mp hsaved
        cases hend : l'.copyEnd with
        | none => rfl
        | some q =>
            obtain rfl : q = ctx.pos := by simpa [hend] using hgetD
            simp [handed, hfrom]
      · rw [if_neg hsaved]
        rfl
    simp [hhanded]

theorem turn_again {p : Nat} {l' : Scan} (honce : ctx.once ≠ true) (hfrom : ctx.copyStart.getD 0 = ctx.pos)
    (hpos : ctx.pos < buf.length) (hx : Fresh x)
    (hloop : lookLoop m (buf.drop ctx.pos) ctx.pos ⟨ctx.state, ctx.looked, ctx.copyEnd⟩ = (false, p, l'))
    (hends : Ends m once ctx.saved ctx.copyStart buf x ctx.pos (false, p, l')
      (ctx.left m once (marks ctx.pos (buf.drop ctx.pos) ++ x))) :
    Turned m once buf x ctx (turn m once buf ctx) := by
  obtain ⟨rfl, hfits, hleft⟩ := hends
  have hparse : parse m buf ctx = (false, { ctx with
      state := l'.state
      pos := buf.length
      looked := l'.looked
      copyEnd := if l'.state = .start then some buf.length else l'.copyEnd
      copyStart := if ctx.copyStart = none ∧ (if l'.state = .start then some buf.length else l'.copyEnd) ≠ none then some 0
        else ctx.copyStart }) := by
    rw [parse, if_neg honce, hloop]
    rfl
  apply turned_of_parse hparse hpos (Nat.le_refl _)
  · intro (hs : l'.state = .start)
    rw [Scan.Fits, hs] at hfits
    refine ⟨copy_saved (Or.inl ?_), hfits.2.2⟩
    simp only [hs, if_true, starts rfl, hfrom]
    exact fun heq => Nat.ne_of_lt hpos (Option.some.inj heq)
  · intro hs
    exact ⟨rfl, by simpa using honce, rfl⟩
  · rw [copy_out _ rfl ?_, hleft]
    · cases hs : l'.state with
      | start => simp [Scan.copied, hs, Scan.mode, Ctx.left, honce, marks]
      | matching => simp [Scan.copied, hs, Scan.mode, Ctx.left, honce, marks, run_fresh m once hx (if _ then _ else _)]
    · cases hs : l'.state with
      | start => simp
      | matching => simpa using hfits.none hs

theorem turn_turned (hctx : ctx.Within buf) (hpos : ctx.pos < buf.length) (hx : Fresh x) :
    Turned m once buf x ctx (turn m once buf ctx) := by
  by_cases honce : ctx.once = true
  · exact turn_once hctx hpos honce
  have hends : Ends m once ctx.saved ctx.copyStart buf x ctx.pos
      (lookLoop m (buf.drop ctx.pos) ctx.pos ⟨ctx.state, ctx.looked, ctx.copyEnd⟩)
      (ctx.left m once (marks ctx.pos (buf.drop ctx.pos) ++ x)) ∧ ctx.copyStart.getD 0 = ctx.pos := by
    cases hs : ctx.state with
    | start =>
        obtain ⟨hstart, hsaved, hlooked⟩ := hctx.start hs
        refine ⟨?_, by simp [hstart]⟩
        have hfits : (⟨.start, ctx.looked, ctx.copyEnd⟩ : Scan).Fits ctx.saved ctx.copyStart buf ctx.pos := by
          simp [Scan.Fits, hstart, hsaved, hlooked]
        have hends := lookLoop_ends (m := m) once x rfl hctx.1 hfits
        simpa [Scan.copied, handed, hstart, Scan.mode, Ctx.left, honce, hs] using hends
    | matching =>
        obtain ⟨-, hstart, hend, hzero, hsaved⟩ := hctx.matching hs hpos
        refine ⟨?_, by simp [hstart, hzero]⟩
        have hfits : (⟨.matching, ctx.looked, ctx.copyEnd⟩ : Scan).Fits ctx.saved ctx.copyStart buf ctx.pos := by
          simp [Scan.Fits, hstart, hend, hzero, hsaved]
        have hends := lookLoop_ends (m := m) once x rfl hctx.1 hfits
        simpa [Scan.copied, handed, hend, Scan.mode, Ctx.left, honce, hs] using hends
  obtain ⟨hends, hfrom⟩ := hends
  cases hloop : lookLoop m (buf.drop ctx.pos) ctx.pos ⟨ctx.state, ctx.looked, ctx.copyEnd⟩ with
  | mk found r =>
      obtain ⟨p, l'⟩ := r
      rw [hloop] at hends
      cases found with
      | true => exact turn_found honce hfrom hloop hends
      | false => exact turn_again honce hfrom hpos hx hloop hends

theorem turns_turned {n : Nat} (hn : buf.length - ctx.pos ≤ n) (hctx : ctx.Within buf) (hx : Fresh x) :
    (turns m once buf n ctx).Within buf ∧ (turns m once buf n ctx).pos = buf.length ∧
      holes ctx.out ++ ctx.left m once (marks ctx.pos (buf.drop ctx.pos) ++ x) =
        holes (turns m once buf n ctx).out ++ (turns m once buf n ctx).left m once x := by
  induction n generalizing ctx with
  | zero =>
      have hpos : ctx.pos = buf.length := by have := hctx.1; omega
      exact ⟨hctx, hpos, by simp [turns, hpos, marks]⟩
  | succ n ih =>
      by_cases hpos : ctx.pos < buf.length
      · obtain ⟨hctx', hpos', hleft⟩ := turn_turned (m := m) hctx hpos hx
        rw [turns, if_pos hpos, hleft]
        exact ih (by omega) hctx'
      · have hend : ctx.pos = buf.length := by have := hctx.1; omega
        rw [turns, if_neg hpos]
        exact ⟨hctx, hend, by simp [hend, marks]⟩

-- What holds of ctx from one buffer to the next
def Ctx.Between (ctx : Ctx) : Prop :=
  match ctx.state with
  | .start => ctx.saved = [] ∧ ctx.looked = []
  | .matching => ctx.once = false ∧ ctx.copyStart = none ∧ ctx.copyEnd = none ∧ ctx.saved = ctx.looked

theorem readBuf_turned (hctx : ctx.Between) (hx : Fresh x) :
    (readBuf m once ctx buf).Between ∧ holes ctx.out ++ ctx.left m once (marks 0 buf ++ x) =
      holes (readBuf m once ctx buf).out ++ (readBuf m once ctx buf).left m once x := by
  obtain ⟨ctx', hread, hwithin, hpos, hbegin⟩ : ∃ ctx' : Ctx,
      readBuf m once ctx buf = { turns m once buf buf.length ctx' with saved := (turns m once buf buf.length ctx').looked } ∧
        ctx'.Within buf ∧ ctx'.pos = 0 ∧
        ∀ y, holes ctx.out ++ ctx.left m once y = holes ctx'.out ++ ctx'.left m once y := by
    refine ⟨_, rfl, ?_⟩
    cases hs : ctx.state with
    | start =>
        rw [Ctx.Between, hs] at hctx
        exact ⟨⟨Nat.zero_le _, by simp [hctx]⟩, rfl, fun y => by simp [Ctx.left, hs]⟩
    | matching =>
        rw [Ctx.Between, hs] at hctx
        exact ⟨⟨Nat.zero_le _, by simp [hctx]⟩, rfl, fun y => by simp [Ctx.left, hs]⟩
  obtain ⟨hwithin', -, hleft⟩ := turns_turned (m := m) (n := buf.length) (by omega) hwithin hx
  rw [hpos, List.drop_zero] at hleft
  rw [hread, hbegin, hleft]
  refine ⟨?_, rfl⟩
  cases hs : (turns m once buf buf.length ctx').state with
  | start => simp [Ctx.Between, hs, (hwithin'.start hs).2.2]
  | matching =>
      have h := hwithin'.2
      rw [hs] at h
      simp [Ctx.Between, hs, h]

theorem fresh_marks (chain : List Bytes) (hx : Fresh x) : Fresh (chain.flatMap (marks 0) ++ x) := by
  induction chain with
  | nil => exact hx
  | cons buf chain ih =>
      rw [List.flatMap_cons, List.append_assoc]
      cases buf with
      | nil => exact ih
      | cons c rest => simp [Fresh, marks]

theorem bodyFilter_turned (hctx : ctx.Between) (hx : Fresh x) (chain : List Bytes) :
    (bodyFilter m once ctx chain).Between ∧ holes ctx.out ++ ctx.left m once (chain.flatMap (marks 0) ++ x) =
      holes (bodyFilter m once ctx chain).out ++ (bodyFilter m once ctx chain).left m once x := by
  unfold bodyFilter
  by_cases honce : ctx.once = true
  · rw [if_pos honce]
    refine ⟨hctx, ?_⟩
    have hchain : holes (chain.map .text) = (chain.flatMap (marks 0)).map fun b => some b.1 := by
      simp [holes, List.map_flatMap, List.flatMap_map]
    simp [Ctx.left, honce, holes_append, hchain]
  · rw [if_neg honce]
    clear honce
    induction chain generalizing ctx with
    | nil => exact ⟨hctx, rfl⟩
    | cons buf chain ih =>
        obtain ⟨hctx', hleft⟩ := readBuf_turned (m := m) hctx (fresh_marks chain hx)
        rw [List.flatMap_cons, List.append_assoc, hleft]
        exact ih hctx'

theorem calls_turned (once : Bool) (hctx : ctx.Between) (calls : List (List Bytes)) :
    holes ctx.out ++ ctx.left m once (body calls) = holes (calls.foldl (bodyFilter m once) ctx).out ++
      (calls.foldl (bodyFilter m once) ctx).left m once [] := by
  induction calls generalizing ctx with
  | nil => rfl
  | cons chain calls ih =>
      have hrest : Fresh (body calls) := by simpa [body] using fresh_marks calls.flatten (x := []) (by simp [Fresh])
      obtain ⟨hctx', hleft⟩ := bodyFilter_turned (m := m) hctx hrest chain
      have hbody : body (chain :: calls) = chain.flatMap (marks 0) ++ body calls := by simp [body]
      rw [hbody, hleft]
      exact ih hctx'

theorem left_nil : ctx.left m once [] = [] := by
  unfold Ctx.left
  split
  · rfl
  · cases ctx.state <;> simp [run]

end

-- The filter is the machine, however the body is split.
theorem respond_eq_run (value : Bytes) (behind : Nat → UInt8) (sub : Bytes) (once : Bool) (calls : List (List Bytes)) :
    respond value behind sub once calls = fill sub (run (matchOf value behind) once .idle (body calls)) := by
  have hbetween : ({} : Ctx).Between := by simp [Ctx.Between]
  have hcalls := calls_turned (m := matchOf value behind) once hbetween calls
  rw [left_nil, List.append_nil] at hcalls
  rw [respond, passed_eq_fill, ← hcalls]
  rfl

end Nginx.SubFilter
