import Nginx.Core.Bytes

namespace Nginx

-- The types NGX_ESCAPE_URI, NGX_ESCAPE_ARGS and so on of ngx_escape_uri
inductive EscapeType where
  | uri
  | args
  | uriComponent
  | html
  | refresh
  | memcached
  | mailAuth
  deriving DecidableEq, Repr

-- The eight words of the table of a type. Bit b of word w stands for the byte 32 * w + b.
def EscapeType.map : EscapeType → List Nat
  | .uri => [0xffffffff, 0x80000029, 0x00000000, 0x80000000,
      0xffffffff, 0xffffffff, 0xffffffff, 0xffffffff]
  | .args => [0xffffffff, 0x88000869, 0x00000000, 0x80000000,
      0xffffffff, 0xffffffff, 0xffffffff, 0xffffffff]
  | .uriComponent => [0xffffffff, 0xfc009fff, 0x78000001, 0xb8000001,
      0xffffffff, 0xffffffff, 0xffffffff, 0xffffffff]
  | .html => [0xffffffff, 0x000000ad, 0x00000000, 0x80000000,
      0xffffffff, 0xffffffff, 0xffffffff, 0xffffffff]
  | .refresh => [0xffffffff, 0x00000085, 0x00000000, 0x80000000,
      0xffffffff, 0xffffffff, 0xffffffff, 0xffffffff]
  | .memcached | .mailAuth => [0xffffffff, 0x00000021, 0x00000000, 0x00000000,
      0x00000000, 0x00000000, 0x00000000, 0x00000000]

def EscapeType.escapes (type : EscapeType) (ch : UInt8) : Bool :=
  (type.map.getD (ch.toNat / 32) 0).testBit (ch.toNat % 32)

def hexDigit (n : UInt8) : UInt8 := if n < 10 then 48 + n else 87 + n

-- ngx_escape_uri with a NULL destination: how many bytes are to be escaped.
def escapeCount (type : EscapeType) (src : Bytes) : Nat := src.countP type.escapes

-- ngx_escape_uri with a destination: what it writes there.
def escapeUri (type : EscapeType) : Bytes → Bytes
  | [] => []
  | ch :: src =>
      if type.escapes ch then 37 :: hexDigit (ch >>> 4) :: hexDigit (ch &&& 0xf) :: escapeUri type src
      else ch :: escapeUri type src

theorem escapeUri_length (type : EscapeType) (s : Bytes) :
    (escapeUri type s).length = s.length + 2 * escapeCount type s := by
  induction s with
  | nil => rfl
  | cons ch s ih =>
      have hcount : escapeCount type (ch :: s) = escapeCount type s + if type.escapes ch then 1 else 0 :=
        List.countP_cons ..
      rw [hcount]
      by_cases h : type.escapes ch = true
      · simp only [escapeUri, h, if_true, List.length_cons, ih]
        omega
      · simp only [escapeUri, h, if_false, List.length_cons, ih, Bool.false_eq_true]
        omega

-- The type of ngx_unescape_uri: 0, NGX_UNESCAPE_URI or NGX_UNESCAPE_REDIRECT.
inductive UnescapeType where
  | plain
  | uri
  | redirect
  deriving DecidableEq, Repr

-- The second state keeps the first hexadecimal digit, which the source reads back at s - 2.
inductive UnescapeState where
  | usual
  | quoted
  | quotedSecond (decoded digit : UInt8)
  deriving DecidableEq, Repr

-- The value of a hexadecimal digit, and whether it is one of '0' to '9'.
def unescapeDigit (ch : UInt8) : Option (UInt8 × Bool) :=
  let c := ch ||| 0x20
  if 48 ≤ ch ∧ ch ≤ 57 then some (ch - 48, true)
  else if 97 ≤ c ∧ c ≤ 102 then some (c - 97 + 10, false)
  else none

-- ngx_unescape_uri: what it writes, and the part of the source that it leaves unread.
def unescapeUri (type : UnescapeType) : UnescapeState → Bytes → Bytes × Bytes
  | _, [] => ([], [])
  | .usual, ch :: src =>
      if ch = 63 ∧ type ≠ .plain then ([ch], src)
      else if ch = 37 then unescapeUri type .quoted src
      else
        let (dst, rest) := unescapeUri type .usual src
        (ch :: dst, rest)
  | .quoted, ch :: src =>
      match unescapeDigit ch with
      | some (decoded, _) => unescapeUri type (.quotedSecond decoded ch) src
      | none =>
          let (dst, rest) := unescapeUri type .usual src
          (ch :: dst, rest)
  | .quotedSecond decoded digit, ch :: src =>
      match unescapeDigit ch with
      | some (low, decimal) =>
          let byte := (decoded <<< 4) + low
          if decimal = false ∧ type ≠ .plain ∧ byte = 63 then ([byte], src)
          else
            let (dst, rest) := unescapeUri type .usual src
            if type = .redirect ∧ ¬(37 < byte ∧ byte < 0x7f) then (37 :: digit :: ch :: dst, rest)
            else (byte :: dst, rest)
      | none => unescapeUri type .usual src

example : unescapeUri .redirect .usual (ngxString "a%41%20?%41") = (ngxString "aA%20?", ngxString "%41") := by
  decide


-- What ngx_escape_uri writes for a byte
def escapeByte (type : EscapeType) (ch : UInt8) : Bytes :=
  if type.escapes ch then [37, hexDigit (ch >>> 4), hexDigit (ch &&& 0xf)] else [ch]

theorem escapeUri_eq_flatMap (type : EscapeType) (s : Bytes) : escapeUri type s = s.flatMap (escapeByte type) := by
  induction s with
  | nil => rfl
  | cons ch s ih =>
      rw [escapeUri, List.flatMap_cons, ih, escapeByte]
      split <;> rfl

-- Where a byte of the output comes from
theorem flatMap_eq_append_cons {α β : Type} {f : α → List β} {s : List α} {pre rest : List β} {c : β}
    (h : s.flatMap f = pre ++ c :: rest) :
    ∃ s₁ a s₂ p q, s = s₁ ++ a :: s₂ ∧ f a = p ++ c :: q ∧ rest = q ++ s₂.flatMap f := by
  induction s generalizing pre with
  | nil => simp at h
  | cons a s ih =>
      rw [List.flatMap_cons, List.append_eq_append_iff] at h
      obtain ⟨p, hpre, hs⟩ | ⟨q, ha, hs⟩ := h
      · obtain ⟨s₁, b, s₂, p', q', rfl, hb, hrest⟩ := ih hs
        exact ⟨a :: s₁, b, s₂, p', q', rfl, hb, hrest⟩
      · cases q with
        | nil =>
            have hs' : s.flatMap f = [] ++ c :: rest := hs.symm
            obtain ⟨s₁, b, s₂, p', q', rfl, hb, hrest⟩ := ih hs'
            exact ⟨a :: s₁, b, s₂, p', q', rfl, hb, hrest⟩
        | cons d q =>
            obtain ⟨rfl, rfl⟩ := List.cons.inj hs
            exact ⟨[], a, s, pre, q, rfl, ha, rfl⟩

-- A half of a byte is one of sixteen values.
theorem half_cases {P : UInt8 → Prop} (h : ∀ n < 16, P (UInt8.ofNat n)) (ch : UInt8) : P (ch >>> 4) ∧ P (ch &&& 0xf) := by
  have hlow : (ch &&& 0xf).toNat < 16 := by
    rw [UInt8.toNat_and]
    exact Nat.lt_of_le_of_lt Nat.and_le_right (by decide)
  have hhigh : (ch >>> 4).toNat < 16 := by
    have hlt := ch.toNat_lt
    rw [UInt8.toNat_shiftRight, Nat.shiftRight_eq_div_pow]
    exact Nat.div_lt_of_lt_mul hlt
  have hh := h _ hhigh
  have hl := h _ hlow
  rw [UInt8.ofNat_toNat] at hh hl
  exact ⟨hh, hl⟩

theorem hexDigit_plain (type : EscapeType) (ch : UInt8) :
    type.escapes (hexDigit (ch >>> 4)) = false ∧ type.escapes (hexDigit (ch &&& 0xf)) = false := by
  apply half_cases (P := fun n => type.escapes (hexDigit n) = false)
  cases type <;> decide

theorem hexDigit_value (ch : UInt8) :
    (unescapeDigit (hexDigit (ch >>> 4))).map Prod.fst = some (ch >>> 4) ∧
      (unescapeDigit (hexDigit (ch &&& 0xf))).map Prod.fst = some (ch &&& 0xf) ∧ (ch >>> 4) <<< 4 + (ch &&& 0xf) = ch := by
  obtain ⟨hhigh, hlow⟩ := half_cases (P := fun n => (unescapeDigit (hexDigit n)).map Prod.fst = some n) (by decide +kernel) ch
  exact ⟨hhigh, hlow, byte_cases (P := fun ch => (ch >>> 4) <<< 4 + (ch &&& 0xf) = ch) (by decide +kernel) ch⟩

theorem escapes_percent {type : EscapeType} (h : type ≠ .refresh) : type.escapes 37 = true := by
  cases type <;> first | rfl | exact absurd rfl h

theorem unescapeUri_escapeUri {type : EscapeType} (h : type ≠ .refresh) (s : Bytes) :
    unescapeUri .plain .usual (escapeUri type s) = (s, []) := by
  induction s with
  | nil => rfl
  | cons ch s ih =>
      rw [escapeUri]
      by_cases hch : type.escapes ch = true
      · obtain ⟨hhigh, hlow, hbyte⟩ := hexDigit_value ch
        obtain ⟨⟨high, decimal⟩, hhigh, rfl⟩ := Option.map_eq_some_iff.mp hhigh
        obtain ⟨⟨low, decimal'⟩, hlow, rfl⟩ := Option.map_eq_some_iff.mp hlow
        rw [if_pos hch]
        simp [unescapeUri, hhigh, hlow, hbyte, ih]
      · have hne : ch ≠ 37 := by
          rintro rfl
          exact hch (escapes_percent h)
        rw [if_neg hch]
        simp [unescapeUri, hne, ih]

-- An escaped byte in the output is the '%' of an escape.
theorem escapeUri_escapes {type : EscapeType} {s pre rest : Bytes} {c : UInt8} (h : escapeUri type s = pre ++ c :: rest)
    (hc : type.escapes c = true) :
    c = 37 ∧ ∃ ch rest', type.escapes ch = true ∧ rest = hexDigit (ch >>> 4) :: hexDigit (ch &&& 0xf) :: rest' := by
  rw [escapeUri_eq_flatMap] at h
  obtain ⟨s₁, ch, s₂, p, q, -, hch, rfl⟩ := flatMap_eq_append_cons h
  obtain ⟨hhigh, hlow⟩ := hexDigit_plain type ch
  rw [escapeByte] at hch
  split at hch
  · next hescapes =>
      rcases p with _ | ⟨_, _ | ⟨_, _ | ⟨_, p⟩⟩⟩
      · obtain ⟨rfl, rfl⟩ := List.cons.inj hch
        exact ⟨rfl, ch, _, hescapes, rfl⟩
      · simp_all
      · simp_all
      · simp at hch
  · next hescapes =>
      cases p with
      | nil =>
          obtain ⟨rfl, -⟩ := List.cons.inj hch
          exact absurd hc hescapes
      | cons _ p => simp at hch

-- ngx_escape_html with a NULL destination
def escapeHtmlCount : Bytes → Nat
  | [] => 0
  | ch :: src =>
      (if ch = 60 then 3 else if ch = 62 then 3 else if ch = 38 then 4 else if ch = 34 then 5 else 0) + escapeHtmlCount src

-- and with a destination
def escapeHtml : Bytes → Bytes
  | [] => []
  | ch :: src =>
      if ch = 60 then 38 :: 108 :: 116 :: 59 :: escapeHtml src
      else if ch = 62 then 38 :: 103 :: 116 :: 59 :: escapeHtml src
      else if ch = 38 then 38 :: 97 :: 109 :: 112 :: 59 :: escapeHtml src
      else if ch = 34 then 38 :: 113 :: 117 :: 111 :: 116 :: 59 :: escapeHtml src
      else ch :: escapeHtml src

-- The entities that ngx_escape_html writes
def entities : List Bytes := [ngxString "&lt;", ngxString "&gt;", ngxString "&amp;", ngxString "&quot;"]

-- What ngx_escape_html writes for a byte
def escapeHtmlByte (ch : UInt8) : Bytes := escapeHtml [ch]

theorem escapeHtml_eq_flatMap (s : Bytes) : escapeHtml s = s.flatMap escapeHtmlByte := by
  induction s with
  | nil => rfl
  | cons ch s ih =>
      rw [List.flatMap_cons, ← ih]
      simp only [escapeHtmlByte, escapeHtml]
      split_ifs <;> rfl

theorem escapeHtml_length (s : Bytes) : (escapeHtml s).length = s.length + escapeHtmlCount s := by
  induction s with
  | nil => rfl
  | cons ch s ih =>
      rw [escapeHtml, escapeHtmlCount]
      split_ifs <;> simp only [List.length_cons, ih] <;> omega

theorem escapeHtmlByte_cases (ch : UInt8) :
    escapeHtmlByte ch ∈ entities ∨ escapeHtmlByte ch = [ch] ∧ ch ≠ 60 ∧ ch ≠ 62 ∧ ch ≠ 38 := by
  simp only [escapeHtmlByte, escapeHtml]
  split_ifs with h60 h62 h38 h34
  · exact Or.inl (by decide)
  · exact Or.inl (by decide)
  · exact Or.inl (by decide)
  · exact Or.inl (by decide)
  · exact Or.inr ⟨rfl, h60, h62, h38⟩

theorem entities_head : ∀ e ∈ entities, e.head? = some 38 ∧ ∀ c ∈ e.tail, c ≠ 60 ∧ c ≠ 62 ∧ c ≠ 38 := by
  decide +kernel

-- Of the bytes that are looked for only the '&' of an entity is left.
theorem escapeHtml_special {s pre rest : Bytes} {c : UInt8} (h : escapeHtml s = pre ++ c :: rest)
    (hc : c = 60 ∨ c = 62 ∨ c = 38) : c = 38 ∧ ∃ e ∈ entities, e <+: c :: rest := by
  rw [escapeHtml_eq_flatMap] at h
  obtain ⟨s₁, ch, s₂, p, q, -, hch, rfl⟩ := flatMap_eq_append_cons h
  obtain hentity | ⟨hplain, h60, h62, h38⟩ := escapeHtmlByte_cases ch
  · obtain ⟨hhead, htail⟩ := entities_head _ hentity
    cases p with
    | nil =>
        have hc38 : c = 38 := by simpa [hch] using hhead
        exact ⟨hc38, _, hentity, by rw [hch]; exact List.prefix_append (c :: q) _⟩
    | cons d p =>
        obtain ⟨h60, h62, h38⟩ := htail c (by simp [hch])
        exact absurd hc (by simp [h60, h62, h38])
  · rw [hplain] at hch
    cases p with
    | nil =>
        obtain ⟨rfl, -⟩ := List.cons.inj hch
        exact absurd hc (by simp [h60, h62, h38])
    | cons d p => simp at hch

-- The two passes agree in the length, what is written holds nothing to be escaped but the escapes, and an escaped URI is
-- read back.
theorem escape_laws (s : Bytes) (type : EscapeType) (htype : type ≠ .refresh) :
    ((escapeUri type s).length = s.length + 2 * escapeCount type s ∧
      (∀ pre c rest, escapeUri type s = pre ++ c :: rest → type.escapes c = true →
        c = 37 ∧ ∃ ch rest', type.escapes ch = true ∧ rest = hexDigit (ch >>> 4) :: hexDigit (ch &&& 0xf) :: rest') ∧
      unescapeUri .plain .usual (escapeUri type s) = (s, [])) ∧
    (escapeHtml s).length = s.length + escapeHtmlCount s ∧
      ∀ pre c rest, escapeHtml s = pre ++ c :: rest → c = 60 ∨ c = 62 ∨ c = 38 →
        c = 38 ∧ ∃ e ∈ entities, e <+: c :: rest :=
  ⟨⟨escapeUri_length type s, fun _ _ _ => escapeUri_escapes, unescapeUri_escapeUri htype s⟩,
    escapeHtml_length s, fun _ _ _ => escapeHtml_special⟩

theorem escape_laws_args :
    ((escapeUri .args (ngxString "a&b")).length = (ngxString "a&b").length + 2 * escapeCount .args (ngxString "a&b") ∧
      (∀ pre c rest, escapeUri .args (ngxString "a&b") = pre ++ c :: rest → EscapeType.args.escapes c = true →
        c = 37 ∧ ∃ ch rest', EscapeType.args.escapes ch = true ∧
          rest = hexDigit (ch >>> 4) :: hexDigit (ch &&& 0xf) :: rest') ∧
      unescapeUri .plain .usual (escapeUri .args (ngxString "a&b")) = (ngxString "a&b", [])) ∧
    (escapeHtml (ngxString "a&b")).length = (ngxString "a&b").length + escapeHtmlCount (ngxString "a&b") ∧
      ∀ pre c rest, escapeHtml (ngxString "a&b") = pre ++ c :: rest → c = 60 ∨ c = 62 ∨ c = 38 →
        c = 38 ∧ ∃ e ∈ entities, e <+: c :: rest :=
  escape_laws (ngxString "a&b") .args (by decide)

end Nginx
