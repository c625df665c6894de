import Nginx.Core.Bytes

namespace Nginx.Base64

-- basis64 of ngx_decode_base64
def basis64 : List UInt8 :=
  [77, 77, 77, 77, 77, 77, 77, 77, 77, 77, 77, 77, 77, 77, 77, 77, 77, 77, 77, 77, 77, 77, 77, 77, 77, 77, 77, 77, 77, 77, 77, 77,
    77, 77, 77, 77, 77, 77, 77, 77, 77, 77, 77, 62, 77, 77, 77, 63, 52, 53, 54, 55, 56, 57, 58, 59, 60, 61, 77, 77, 77, 77, 77, 77,
    77, 0, 1, 2, 3, 4, 5, 6, 7, 8, 9, 10, 11, 12, 13, 14, 15, 16, 17, 18, 19, 20, 21, 22, 23, 24, 25, 77, 77, 77, 77, 77,
    77, 26, 27, 28, 29, 30, 31, 32, 33, 34, 35, 36, 37, 38, 39, 40, 41, 42, 43, 44, 45, 46, 47, 48, 49, 50, 51, 77, 77, 77, 77, 77,
    77, 77, 77, 77, 77, 77, 77, 77, 77, 77, 77, 77, 77, 77, 77, 77, 77, 77, 77, 77, 77, 77, 77, 77, 77, 77, 77, 77, 77, 77, 77, 77,
    77, 77, 77, 77, 77, 77, 77, 77, 77, 77, 77, 77, 77, 77, 77, 77, 77, 77, 77, 77, 77, 77, 77, 77, 77, 77, 77, 77, 77, 77, 77, 77,
    77, 77, 77, 77, 77, 77, 77, 77, 77, 77, 77, 77, 77, 77, 77, 77, 77, 77, 77, 77, 77, 77, 77, 77, 77, 77, 77, 77, 77, 77, 77, 77,
    77, 77, 77, 77, 77, 77, 77, 77, 77, 77, 77, 77, 77, 77, 77, 77, 77, 77, 77, 77, 77, 77, 77, 77, 77, 77, 77, 77, 77, 77, 77, 77]

-- basis64 of ngx_decode_base64url
def basis64url : List UInt8 :=
  [77, 77, 77, 77, 77, 77, 77, 77, 77, 77, 77, 77, 77, 77, 77, 77, 77, 77, 77, 77, 77, 77, 77, 77, 77, 77, 77, 77, 77, 77, 77, 77,
    77, 77, 77, 77, 77, 77, 77, 77, 77, 77, 77, 77, 77, 62, 77, 77, 52, 53, 54, 55, 56, 57, 58, 59, 60, 61, 77, 77, 77, 77, 77, 77,
    77, 0, 1, 2, 3, 4, 5, 6, 7, 8, 9, 10, 11, 12, 13, 14, 15, 16, 17, 18, 19, 20, 21, 22, 23, 24, 25, 77, 77, 77, 77, 63,
    77, 26, 27, 28, 29, 30, 31, 32, 33, 34, 35, 36, 37, 38, 39, 40, 41, 42, 43, 44, 45, 46, 47, 48, 49, 50, 51, 77, 77, 77, 77, 77,
    77, 77, 77, 77, 77, 77, 77, 77, 77, 77, 77, 77, 77, 77, 77, 77, 77, 77, 77, 77, 77, 77, 77, 77, 77, 77, 77, 77, 77, 77, 77, 77,
    77, 77, 77, 77, 77, 77, 77, 77, 77, 77, 77, 77, 77, 77, 77, 77, 77, 77, 77, 77, 77, 77, 77, 77, 77, 77, 77, 77, 77, 77, 77, 77,
    77, 77, 77, 77, 77, 77, 77, 77, 77, 77, 77, 77, 77, 77, 77, 77, 77, 77, 77, 77, 77, 77, 77, 77, 77, 77, 77, 77, 77, 77, 77, 77,
    77, 77, 77, 77, 77, 77, 77, 77, 77, 77, 77, 77, 77, 77, 77, 77, 77, 77, 77, 77, 77, 77, 77, 77, 77, 77, 77, 77, 77, 77, 77, 77]

-- for (len = 0; len < src->len; len++), where none is NGX_ERROR
def textLength (basis : UInt8 → UInt8) : Bytes → Option Nat
  | [] => some 0
  | c :: src => if c = 61 then some 0 else if basis c = 77 then none else (textLength basis src).map (· + 1)

-- The characters in front of the first '='
def textOf (src : Bytes) : Bytes := src.takeWhile (· ≠ 61)

-- The bytes that are written through d for len characters
def decodeText (basis : UInt8 → UInt8) : Bytes → Bytes
  | a :: b :: c :: d :: s =>
    (basis a <<< 2 ||| basis b >>> 4) :: (basis b <<< 4 ||| basis c >>> 2) :: (basis c <<< 6 ||| basis d) ::
      decodeText basis s
  | [a, b, c] => [basis a <<< 2 ||| basis b >>> 4, basis b <<< 4 ||| basis c >>> 2]
  | [a, b] => [basis a <<< 2 ||| basis b >>> 4]
  | _ => []

-- ngx_decode_base64_internal: what is written at dst->data and counted in dst->len, or none for NGX_ERROR
def decodeInternal (basis : UInt8 → UInt8) (src : Bytes) : Option Bytes :=
  match textLength basis src with
  | none => none
  | some len => if len % 4 = 1 then none else some (decodeText basis (src.take len))

def decodeBase64 (src : Bytes) : Option Bytes := decodeInternal (fun c => basis64.getD c.toNat 77) src

def decodeBase64url (src : Bytes) : Option Bytes := decodeInternal (fun c => basis64url.getD c.toNat 77) src

-- The characters of an encoding, without the padding
def encodeText (alphabet : UInt8 → UInt8) : Bytes → Bytes
  | x :: y :: z :: s =>
    alphabet (x >>> 2) :: alphabet ((x &&& 3) <<< 4 ||| y >>> 4) :: alphabet ((y &&& 15) <<< 2 ||| z >>> 6) ::
      alphabet (z &&& 63) :: encodeText alphabet s
  | [x, y] => [alphabet (x >>> 2), alphabet ((x &&& 3) <<< 4 ||| y >>> 4), alphabet ((y &&& 15) <<< 2)]
  | [x] => [alphabet (x >>> 2), alphabet ((x &&& 3) <<< 4)]
  | [] => []

def alphabetUrl : Bytes := ngxString "ABCDEFGHIJKLMNOPQRSTUVWXYZabcdefghijklmnopqrstuvwxyz0123456789-_"

def encodeBase64url (src : Bytes) : Bytes := encodeText (fun v => alphabetUrl.getD v.toNat 0) src

-- The letters and the digits as bytes, which the checks over all bytes are made on
def alphanumerics : Bytes := (List.range' 65 26 ++ List.range' 97 26 ++ List.range' 48 10).map UInt8.ofNat

theorem alphanumerics_eq : alphanumerics =
    [65, 66, 67, 68, 69, 70, 71, 72, 73, 74, 75, 76, 77, 78, 79, 80, 81, 82, 83, 84, 85, 86, 87, 88, 89, 90, 97, 98,
      99, 100, 101, 102, 103, 104, 105, 106, 107, 108, 109, 110, 111, 112, 113, 114, 115, 116, 117, 118, 119, 120,
      121, 122, 48, 49, 50, 51, 52, 53, 54, 55, 56, 57] := rfl

theorem alphabetUrl_eq : alphabetUrl = alphanumerics ++ [45, 95] := (ngxString_ofList _).trans rfl

-- What is checked on the entries of a table holds wherever it is read.
theorem table_cases {P : UInt8 → UInt8 → Prop} {l : Bytes} (h : ∀ p ∈ l.zipIdx, P p.1 (UInt8.ofNat p.2)) (d : UInt8)
    {n : Nat} (hlen : l.length = n) (v : UInt8) (hv : v.toNat < n) : P (l.getD v.toNat d) v := by
  rw [← hlen] at hv
  have hp := h (l[v.toNat], v.toNat) (List.mk_mem_zipIdx_iff_getElem?.mpr (List.getElem?_eq_getElem hv))
  rw [UInt8.ofNat_toNat] at hp
  rwa [List.getD_eq_getElem l d hv]

section Bits

variable {a b c d : UInt8}

-- What is checked on the pairs of small values holds of each pair.
theorem pair_cases {P : UInt8 → UInt8 → Prop} {m n : Nat} (h : ∀ i < m, ∀ j < n, P (UInt8.ofNat i) (UInt8.ofNat j))
    (ha : a.toNat < m) (hb : b.toNat < n) : P a b := by
  have hpair := h a.toNat ha b.toNat hb
  rwa [UInt8.ofNat_toNat, UInt8.ofNat_toNat] at hpair

-- A byte of two parts: six bits and two, four and four, two and six
abbrev SixTwo (a b : UInt8) : Prop :=
  (a <<< 2 ||| b) >>> 2 = a ∧ (a <<< 2 ||| b) &&& 3 = b ∧ (a <<< 2 ||| b) <<< 6 = b <<< 6 ∧ (a < 16 → a <<< 2 ||| b < 64)

abbrev FourFour (a b : UInt8) : Prop :=
  (a <<< 4 ||| b) >>> 4 = a ∧ (a <<< 4 ||| b) &&& 15 = b ∧ (a <<< 4 ||| b) <<< 4 = b <<< 4 ∧ (a < 4 → a <<< 4 ||| b < 64)

abbrev TwoSix (a b : UInt8) : Prop := (a <<< 6 ||| b) >>> 6 = a ∧ (a <<< 6 ||| b) &&& 63 = b

-- A byte in the first, the second and the third place
abbrev ByteParts (x : UInt8) : Prop :=
  (x >>> 2 < 64 ∧ x &&& 3 < 4 ∧ x >>> 2 <<< 2 ||| (x &&& 3) = x) ∧
    (x >>> 4 < 16 ∧ x &&& 15 < 16 ∧ x >>> 4 <<< 4 ||| (x &&& 15) = x) ∧
    (x >>> 6 < 4 ∧ x &&& 63 < 64 ∧ x >>> 6 <<< 6 ||| (x &&& 63) = x)

-- What a character leaves to the byte in front of it and to its own
abbrev CharParts (b : UInt8) : Prop :=
  (b >>> 4 < 4 ∧ b >>> 4 <<< 4 = b &&& 48 ∧ b <<< 4 = (b &&& 15) <<< 4 ∧ b &&& 15 < 16) ∧
    (b >>> 2 < 16 ∧ b >>> 2 <<< 2 = b &&& 60 ∧ b <<< 6 = (b &&& 3) <<< 6 ∧ b &&& 3 < 4) ∧
    ((b &&& 48) ||| (b &&& 15) = b ∧ (b &&& 60) ||| (b &&& 3) = b ∧ b &&& 48 < 64)

-- One check for all of them, since each is over few values
theorem bit_table :
    (∀ i < 64, ∀ j < 4, SixTwo (UInt8.ofNat i) (UInt8.ofNat j)) ∧
      (∀ i < 16, ∀ j < 16, FourFour (UInt8.ofNat i) (UInt8.ofNat j)) ∧
      (∀ i < 4, ∀ j < 64, TwoSix (UInt8.ofNat i) (UInt8.ofNat j)) ∧
      (∀ n < 256, ByteParts (UInt8.ofNat n)) ∧ ∀ n < 256, UInt8.ofNat n < 64 → CharParts (UInt8.ofNat n) := by
  refine ⟨?_, ?_, ?_, ?_, ?_⟩ <;> decide +kernel

-- A table and an alphabet that belong together
structure Coding (basis alphabet : UInt8 → UInt8) : Prop where
  basis_alphabet : ∀ v : UInt8, v < 64 → basis (alphabet v) = v
  alphabet_basis : ∀ c : UInt8, basis c ≠ 77 → basis c < 64 ∧ alphabet (basis c) = c
  padding : ∀ v : UInt8, v < 64 → alphabet v ≠ 61

theorem six_two (ha : a < 64) (hb : b < 4) : SixTwo a b :=
  pair_cases bit_table.1 (UInt8.lt_iff_toNat_lt.mp ha) (UInt8.lt_iff_toNat_lt.mp hb)

theorem four_four (ha : a < 16) (hb : b < 16) : FourFour a b :=
  pair_cases bit_table.2.1 (UInt8.lt_iff_toNat_lt.mp ha) (UInt8.lt_iff_toNat_lt.mp hb)

theorem two_six (ha : a < 4) (hb : b < 64) : TwoSix a b :=
  pair_cases bit_table.2.2.1 (UInt8.lt_iff_toNat_lt.mp ha) (UInt8.lt_iff_toNat_lt.mp hb)

theorem byte_parts (x : UInt8) : ByteParts x :=
  byte_cases bit_table.2.2.2.1 x

theorem char_parts (hb : b < 64) : CharParts b :=
  byte_cases (P := fun b => b < 64 → CharParts b) bit_table.2.2.2.2 b hb

theorem first_byte (ha : a < 64) (hb : b < 64) :
    (a <<< 2 ||| b >>> 4) >>> 2 = a ∧ ((a <<< 2 ||| b >>> 4) &&& 3) <<< 4 = b &&& 48 := by
  obtain ⟨hlow, hshift, -⟩ := (char_parts hb).1
  obtain ⟨hleft, hright, -⟩ := six_two ha hlow
  exact ⟨hleft, by rw [hright, hshift]⟩

theorem second_byte (hb : b < 64) (hc : c < 64) :
    (b <<< 4 ||| c >>> 2) >>> 4 = b &&& 15 ∧ ((b <<< 4 ||| c >>> 2) &&& 15) <<< 2 = c &&& 60 := by
  obtain ⟨-, -, hshift, hhigh⟩ := (char_parts hb).1
  obtain ⟨hlow, hshift', -⟩ := (char_parts hc).2.1
  obtain ⟨hleft, hright, -⟩ := four_four hhigh hlow
  rw [hshift]
  exact ⟨hleft, by rw [hright, hshift']⟩

theorem third_byte (hc : c < 64) (hd : d < 64) : (c <<< 6 ||| d) >>> 6 = c &&& 3 ∧ (c <<< 6 ||| d) &&& 63 = d := by
  obtain ⟨-, -, hshift, hhigh⟩ := (char_parts hc).2.1
  rw [hshift]
  exact two_six hhigh hd

-- The characters in the middle take bits of two bytes.
theorem second_char (ha : a < 4) (hb : b < 16) :
    (a <<< 4 ||| b) >>> 4 = a ∧ (a <<< 4 ||| b) <<< 4 = b <<< 4 ∧ a <<< 4 ||| b < 64 := by
  obtain ⟨hleft, -, hright, hsmall⟩ := four_four (UInt8.lt_trans ha (by decide)) hb
  exact ⟨hleft, hright, hsmall ha⟩

theorem third_char (ha : a < 16) (hb : b < 4) :
    (a <<< 2 ||| b) >>> 2 = a ∧ (a <<< 2 ||| b) <<< 6 = b <<< 6 ∧ a <<< 2 ||| b < 64 := by
  obtain ⟨hleft, -, hright, hsmall⟩ := six_two (UInt8.lt_trans ha (by decide)) hb
  exact ⟨hleft, hright, hsmall ha⟩

end Bits

-- What is left when there are neither four characters, nor three nor two
theorem length_of_rest {s : Bytes} (hfour : ∀ a b c d s', s = a :: b :: c :: d :: s' → False)
    (hthree : ∀ a b c, s = [a, b, c] → False) (htwo : ∀ a b, s = [a, b] → False) : s.length < 2 := by
  rcases s with _ | ⟨a, _ | ⟨b, _ | ⟨c, _ | ⟨d, s⟩⟩⟩⟩
  · exact Nat.zero_lt_two
  · exact Nat.one_lt_two
  · exact (htwo a b rfl).elim
  · exact (hthree a b c rfl).elim
  · exact (hfour a b c d s rfl).elim

section RoundTrip

variable {basis alphabet : UInt8 → UInt8} (h : Coding basis alphabet)

include h

theorem alphabet_valid {v : UInt8} (hv : v < 64) : alphabet v ≠ 61 ∧ basis (alphabet v) ≠ 77 := by
  refine ⟨h.padding v hv, fun hbasis => ?_⟩
  rw [h.basis_alphabet v hv] at hbasis
  exact absurd (hbasis ▸ hv) (by decide)

-- An encoding is read back, and has characters of the alphabet only.
theorem decodeText_encodeText (l : Bytes) :
    decodeText basis (encodeText alphabet l) = l ∧ ∀ c ∈ encodeText alphabet l, c ≠ 61 ∧ basis c ≠ 77 := by
  induction l using encodeText.induct with
  | case1 x y z s ih =>
      obtain ⟨hx, hx3, hxs⟩ := (byte_parts x).1
      obtain ⟨hy4, hy15, hys⟩ := (byte_parts y).2.1
      obtain ⟨hz6, hz63, hzs⟩ := (byte_parts z).2.2
      obtain ⟨hfirst, hsecond, hxy⟩ := second_char hx3 hy4
      obtain ⟨hsecond', hthird, hyz⟩ := third_char hy15 hz6
      rw [encodeText, decodeText, h.basis_alphabet _ hx, h.basis_alphabet _ hxy, h.basis_alphabet _ hyz,
        h.basis_alphabet _ hz63, hfirst, hsecond, hsecond', hthird, hxs, hys, hzs, ih.1]
      refine ⟨rfl, ?_⟩
      simp only [List.forall_mem_cons]
      exact ⟨alphabet_valid h hx, alphabet_valid h hxy, alphabet_valid h hyz, alphabet_valid h hz63, ih.2⟩
  | case2 x y =>
      obtain ⟨hx, hx3, hxs⟩ := (byte_parts x).1
      obtain ⟨hy4, hy15, hys⟩ := (byte_parts y).2.1
      obtain ⟨hfirst, hsecond, hxy⟩ := second_char hx3 hy4
      obtain ⟨hsecond', -, hyz⟩ := third_char hy15 (by decide : (0 : UInt8) < 4)
      rw [UInt8.or_zero] at hsecond' hyz
      rw [encodeText, decodeText, h.basis_alphabet _ hx, h.basis_alphabet _ hxy, h.basis_alphabet _ hyz, hfirst, hsecond,
        hsecond', hxs, hys]
      refine ⟨rfl, ?_⟩
      simp only [List.forall_mem_cons]
      exact ⟨alphabet_valid h hx, alphabet_valid h hxy, alphabet_valid h hyz, List.forall_mem_nil _⟩
  | case3 x =>
      obtain ⟨hx, hx3, hxs⟩ := (byte_parts x).1
      obtain ⟨hfirst, -, hxy⟩ := second_char hx3 (by decide : (0 : UInt8) < 16)
      rw [UInt8.or_zero] at hfirst hxy
      rw [encodeText, decodeText, h.basis_alphabet _ hx, h.basis_alphabet _ hxy, hfirst, hxs]
      refine ⟨rfl, ?_⟩
      simp only [List.forall_mem_cons]
      exact ⟨alphabet_valid h hx, alphabet_valid h hxy, List.forall_mem_nil _⟩
  | case4 => exact ⟨rfl, List.forall_mem_nil _⟩

-- Four characters are an encoding of their bytes; of two the last one has bits that do not matter.
theorem encodeText_decodeText (s : Bytes) (hs : ∀ c ∈ s, basis c ≠ 77) (hlen : s.length % 4 = 2) :
    ∃ init c c', s = init ++ [c] ∧ encodeText alphabet (decodeText basis s) = init ++ [c'] ∧
      basis c' = basis c &&& 48 := by
  induction s using decodeText.induct with
  | case1 a b c d s ih =>
      simp only [List.forall_mem_cons] at hs
      obtain ⟨ha, hb, hc, hd, hs⟩ := hs
      obtain ⟨init, e, e', hsplit, hencode, hlast⟩ := ih hs (by simp only [List.length_cons] at hlen; omega)
      obtain ⟨ha, hca⟩ := h.alphabet_basis a ha
      obtain ⟨hb, hcb⟩ := h.alphabet_basis b hb
      obtain ⟨hc, hcc⟩ := h.alphabet_basis c hc
      obtain ⟨hd, hcd⟩ := h.alphabet_basis d hd
      obtain ⟨hfirst, hfirst'⟩ := first_byte ha hb
      obtain ⟨hsecond, hsecond'⟩ := second_byte hb hc
      obtain ⟨hthird, hthird'⟩ := third_byte hc hd
      refine ⟨a :: b :: c :: d :: init, e, e', by rw [hsplit]; rfl, ?_, hlast⟩
      rw [decodeText, encodeText, hencode, hfirst, hfirst', hsecond, hsecond', hthird, hthird', (char_parts hb).2.2.1, (char_parts hc).2.2.2.1,
        hca, hcb, hcc, hcd]
      rfl
  | case2 a b c => cases hlen
  | case3 a b =>
      simp only [List.forall_mem_cons] at hs
      obtain ⟨ha, hb, -⟩ := hs
      obtain ⟨ha, hca⟩ := h.alphabet_basis a ha
      obtain ⟨hb, hcb⟩ := h.alphabet_basis b hb
      obtain ⟨hfirst, hfirst'⟩ := first_byte ha hb
      refine ⟨[a], b, alphabet (basis b &&& 48), rfl, ?_, h.basis_alphabet _ (char_parts hb).2.2.2.2⟩
      rw [decodeText, encodeText, hfirst, hfirst', hca]
      rfl
  | case4 s hfour hthree htwo =>
      obtain hshort := length_of_rest hfour hthree htwo
      omega

end RoundTrip

theorem encodeText_length (alphabet : UInt8 → UInt8) (l : Bytes) :
    (encodeText alphabet l).length = (4 * l.length + 2) / 3 := by
  induction l using encodeText.induct with
  | case1 x y z s ih =>
      rw [encodeText]
      simp only [List.length_cons, ih]
      omega
  | case2 x y =>
      rw [encodeText]
      simp only [List.length_cons, List.length_nil]
  | case3 x =>
      rw [encodeText]
      simp only [List.length_cons, List.length_nil]
  | case4 => rfl

theorem decodeText_length (basis : UInt8 → UInt8) (s : Bytes) (hs : s.length % 4 ≠ 1) :
    (decodeText basis s).length = 3 * s.length / 4 := by
  induction s using decodeText.induct with
  | case1 a b c d s ih =>
      simp only [List.length_cons] at hs
      rw [decodeText]
      simp only [List.length_cons, ih (by omega)]
      omega
  | case2 a b c =>
      rw [decodeText]
      simp only [List.length_cons, List.length_nil]
  | case3 a b =>
      rw [decodeText]
      simp only [List.length_cons, List.length_nil]
  | case4 s hfour hthree htwo =>
      have hshort := length_of_rest hfour hthree htwo
      rw [decodeText]
      · rw [List.length_nil]
        omega
      · exact hfour
      · exact hthree
      · exact htwo

theorem textLength_spec (basis : UInt8 → UInt8) (src : Bytes) :
    match textLength basis src with
    | none => ∃ c ∈ textOf src, basis c = 77
    | some len => (∀ c ∈ textOf src, basis c ≠ 77) ∧ src.take len = textOf src ∧ len = (textOf src).length := by
  induction src with
  | nil => exact ⟨List.forall_mem_nil _, rfl, rfl⟩
  | cons c src ih =>
      rw [textLength, textOf]
      by_cases hend : c = 61
      · rw [if_pos hend, List.takeWhile_cons_of_neg (by simpa using hend)]
        exact ⟨List.forall_mem_nil _, rfl, rfl⟩
      · rw [if_neg hend, List.takeWhile_cons_of_pos (by simpa using hend)]
        by_cases hbad : basis c = 77
        · rw [if_pos hbad]
          exact ⟨c, List.mem_cons_self, hbad⟩
        · rw [if_neg hbad]
          cases hlen : textLength basis src with
          | none =>
              rw [hlen] at ih
              obtain ⟨d, hd, hbad⟩ := ih
              exact ⟨d, List.mem_cons_of_mem c hd, hbad⟩
          | some len =>
              rw [hlen] at ih
              obtain ⟨hall, htake, rfl⟩ := ih
              exact ⟨List.forall_mem_cons.mpr ⟨hbad, hall⟩, congrArg (c :: ·) htake, rfl⟩

theorem decodeInternal_eq_some_iff (basis : UInt8 → UInt8) (src dst : Bytes) :
    decodeInternal basis src = some dst ↔
      (∀ c ∈ textOf src, basis c ≠ 77) ∧ (textOf src).length % 4 ≠ 1 ∧ decodeText basis (textOf src) = dst := by
  have hspec := textLength_spec basis src
  rw [decodeInternal]
  cases hlen : textLength basis src with
  | none =>
      rw [hlen] at hspec
      obtain ⟨c, hc, hbad⟩ := hspec
      exact iff_of_false nofun fun h => h.1 c hc hbad
  | some len =>
      rw [hlen] at hspec
      obtain ⟨hall, htake, rfl⟩ := hspec
      dsimp only
      rw [htake]
      by_cases hone : (textOf src).length % 4 = 1
      · rw [if_pos hone]
        exact iff_of_false nofun fun h => h.2.1 hone
      · rw [if_neg hone, Option.some.injEq]
        exact ⟨fun h => ⟨hall, hone, h⟩, fun h => h.2.2⟩

-- The entries of the two tables
theorem table_values :
    (basis64url.length = 256 ∧ ∀ p ∈ basis64url.zipIdx,
      p.1 ≠ 77 → p.1 < 64 ∧ (alphanumerics ++ [45, 95]).getD p.1.toNat 0 = UInt8.ofNat p.2) ∧
    basis64.length = 256 ∧ ∀ p ∈ basis64.zipIdx,
      p.1 ≠ 77 → p.1 < 64 ∧ (alphanumerics ++ [43, 47]).getD p.1.toNat 0 = UInt8.ofNat p.2 := by
  rw [alphanumerics_eq]
  decide +kernel

theorem url_coding : Coding (fun c => basis64url.getD c.toNat 77) (fun v => alphabetUrl.getD v.toNat 0) := by
  rw [alphabetUrl_eq]
  refine ⟨?_, ?_, ?_⟩
  · exact fun v hv => table_cases (P := fun c v => basis64url.getD c.toNat 77 = v) (by decide) 0 rfl v
      (UInt8.lt_iff_toNat_lt.mp hv)
  · exact fun c => table_cases (P := fun v c => v ≠ 77 → v < 64 ∧ List.getD _ v.toNat 0 = c) table_values.1.2 77
      table_values.1.1 c c.toNat_lt
  · exact fun v hv => table_cases (P := fun c _ => c ≠ 61) (by decide) 0 rfl v (UInt8.lt_iff_toNat_lt.mp hv)

-- basis64 of ngx_encode_base64
def alphabet : Bytes := ngxString "ABCDEFGHIJKLMNOPQRSTUVWXYZabcdefghijklmnopqrstuvwxyz0123456789+/"

-- ngx_encode_base64: what is written at dst->data and counted in dst->len
def encodeBase64 : Bytes → Bytes
  | x :: y :: z :: s =>
    alphabet.getD ((x >>> 2) &&& 63).toNat 0 :: alphabet.getD ((x &&& 3) <<< 4 ||| y >>> 4).toNat 0 ::
      alphabet.getD ((y &&& 15) <<< 2 ||| z >>> 6).toNat 0 :: alphabet.getD (z &&& 63).toNat 0 :: encodeBase64 s
  | [x, y] =>
    [alphabet.getD ((x >>> 2) &&& 63).toNat 0, alphabet.getD ((x &&& 3) <<< 4 ||| y >>> 4).toNat 0,
      alphabet.getD ((y &&& 15) <<< 2).toNat 0, 61]
  | [x] => [alphabet.getD ((x >>> 2) &&& 63).toNat 0, alphabet.getD ((x &&& 3) <<< 4).toNat 0, 61, 61]
  | [] => []

-- ngx_base64_encoded_length and ngx_base64_decoded_length
def encodedLength (len : Nat) : Nat := (len + 2) / 3 * 4

def decodedLength (len : Nat) : Nat := (len + 3) / 4 * 3

-- The padding that completes n characters
def padding (n : Nat) : Bytes := List.replicate ((4 - n % 4) % 4) 61

theorem alphabet_eq : alphabet = alphanumerics ++ [43, 47] := (ngxString_ofList _).trans rfl

theorem coding : Coding (fun c => basis64.getD c.toNat 77) (fun v => alphabet.getD v.toNat 0) := by
  rw [alphabet_eq]
  refine ⟨?_, ?_, ?_⟩
  · exact fun v hv => table_cases (P := fun c v => basis64.getD c.toNat 77 = v) (by decide) 0 rfl v
      (UInt8.lt_iff_toNat_lt.mp hv)
  · exact fun c => table_cases (P := fun v c => v ≠ 77 → v < 64 ∧ List.getD _ v.toNat 0 = c) table_values.2.2 77
      table_values.2.1 c c.toNat_lt
  · exact fun v hv => table_cases (P := fun c _ => c ≠ 61) (by decide) 0 rfl v (UInt8.lt_iff_toNat_lt.mp hv)

theorem encodeBase64_eq (s : Bytes) :
    encodeBase64 s = encodeText (fun v => alphabet.getD v.toNat 0) s ++
      padding (encodeText (fun v => alphabet.getD v.toNat 0) s).length := by
  have hsix : ∀ x : UInt8, (x >>> 2) &&& (63 : UInt8) = x >>> 2 := by
    intro x
    have hlt : (x >>> 2).toNat < 2 ^ 6 := UInt8.lt_iff_toNat_lt.mp (byte_parts x).1.1
    rw [← UInt8.toNat_inj, UInt8.toNat_and]
    exact Nat.and_two_pow_sub_one_of_lt_two_pow hlt
  induction s using encodeBase64.induct with
  | case1 x y z s ih =>
      have hpadding : ∀ n, padding (n + 4) = padding n := fun n => by rw [padding, padding, Nat.add_mod_right]
      rw [encodeBase64, encodeText, ih, hsix]
      simp only [List.length_cons, hpadding]
      rfl
  | case2 x y => rw [encodeBase64, encodeText, hsix]; rfl
  | case3 x => rw [encodeBase64, encodeText, hsix]; rfl
  | case4 => rfl

theorem encodeBase64_length (s : Bytes) : (encodeBase64 s).length = encodedLength s.length := by
  rw [encodeBase64_eq, List.length_append, padding, List.length_replicate, encodeText_length, encodedLength]
  omega

-- What is in front of the padding is the text.
theorem textOf_append {t u : Bytes} (ht : ∀ c ∈ t, c ≠ 61) : textOf (t ++ 61 :: u) = t := by
  rw [textOf, List.takeWhile_append_of_pos (by simpa using ht)]
  simp

theorem textOf_padded {t : Bytes} (ht : ∀ c ∈ t, c ≠ 61) (n : Nat) : textOf (t ++ List.replicate n 61) = t := by
  cases n with
  | zero =>
      rw [List.replicate_zero, textOf, List.takeWhile_append_of_pos (by simpa using ht)]
      simp
  | succ n => exact textOf_append ht

theorem decodeBase64_encodeBase64 (s : Bytes) : decodeBase64 (encodeBase64 s) = some s := by
  obtain ⟨hdecode, hall⟩ := decodeText_encodeText coding s
  rw [decodeBase64, decodeInternal_eq_some_iff, encodeBase64_eq, padding, textOf_padded (fun c hc => (hall c hc).1)]
  refine ⟨fun c hc => (hall c hc).2, ?_, hdecode⟩
  rw [encodeText_length]
  omega

section Decode

variable {basis : UInt8 → UInt8}

theorem decodeInternal_length {src dst : Bytes} (h : decodeInternal basis src = some dst) :
    dst.length ≤ decodedLength src.length := by
  obtain ⟨-, hlen, rfl⟩ := (decodeInternal_eq_some_iff basis src dst).mp h
  have hle : (textOf src).length ≤ src.length := (List.takeWhile_sublist _).length_le
  rw [decodeText_length basis _ hlen, decodedLength]
  omega

theorem decodeInternal_isSome_iff {letters : Bytes} (hletters : ∀ c, basis c ≠ 77 ↔ c ∈ letters) (src : Bytes) :
    (decodeInternal basis src).isSome ↔ (∀ c ∈ textOf src, c ∈ letters) ∧ (textOf src).length % 4 ≠ 1 := by
  simp only [Option.isSome_iff_exists, decodeInternal_eq_some_iff, hletters]
  exact ⟨fun ⟨_, hall, hlen, _⟩ => ⟨hall, hlen⟩, fun ⟨hall, hlen⟩ => ⟨_, hall, hlen, rfl⟩⟩

-- The bits of the last character that no byte takes are zero.
def TrailingZero (basis : UInt8 → UInt8) (t : Bytes) : Prop :=
  (t.length % 4 = 2 → ∀ c ∈ t.getLast?, basis c &&& 15 = 0) ∧ (t.length % 4 = 3 → ∀ c ∈ t.getLast?, basis c &&& 3 = 0)

theorem TrailingZero.tail {a b c d : UInt8} {t : Bytes} (h : TrailingZero basis (a :: b :: c :: d :: t)) :
    TrailingZero basis t := by
  have hlast : t.length % 4 ≠ 0 → (a :: b :: c :: d :: t).getLast? = t.getLast? := by
    intro hne
    cases t with
    | nil => simp at hne
    | cons e t => simp [List.getLast?_cons_cons]
  obtain ⟨htwo, hthree⟩ := h
  simp only [List.length_cons] at htwo hthree
  refine ⟨fun hlen => ?_, fun hlen => ?_⟩
  · rw [← hlast (by omega)]
    exact htwo (by omega)
  · rw [← hlast (by omega)]
    exact hthree (by omega)

theorem encodeText_decodeText_eq {alphabet : UInt8 → UInt8} (h : Coding basis alphabet) (t : Bytes)
    (ht : ∀ c ∈ t, basis c ≠ 77) (hlen : t.length % 4 ≠ 1) (hzero : TrailingZero basis t) :
    encodeText alphabet (decodeText basis t) = t := by
  induction t using decodeText.induct with
  | case1 a b c d s ih =>
      simp only [List.forall_mem_cons] at ht
      obtain ⟨ha, hb, hc, hd, hs⟩ := ht
      obtain ⟨ha, hca⟩ := h.alphabet_basis a ha
      obtain ⟨hb, hcb⟩ := h.alphabet_basis b hb
      obtain ⟨hc, hcc⟩ := h.alphabet_basis c hc
      obtain ⟨hd, hcd⟩ := h.alphabet_basis d hd
      obtain ⟨hfirst, hfirst'⟩ := first_byte ha hb
      obtain ⟨hsecond, hsecond'⟩ := second_byte hb hc
      obtain ⟨hthird, hthird'⟩ := third_byte hc hd
      rw [decodeText, encodeText, ih hs (by simp only [List.length_cons] at hlen; omega) hzero.tail, hfirst, hfirst', hsecond, hsecond', hthird,
        hthird', (char_parts hb).2.2.1, (char_parts hc).2.2.2.1, hca, hcb, hcc, hcd]
  | case2 a b c =>
      simp only [List.forall_mem_cons] at ht
      obtain ⟨ha, hb, hc, -⟩ := ht
      obtain ⟨ha, hca⟩ := h.alphabet_basis a ha
      obtain ⟨hb, hcb⟩ := h.alphabet_basis b hb
      obtain ⟨hc, hcc⟩ := h.alphabet_basis c hc
      obtain ⟨hfirst, hfirst'⟩ := first_byte ha hb
      obtain ⟨hsecond, hsecond'⟩ := second_byte hb hc
      have hlast : basis c &&& 60 = basis c := by
        have hparts := (char_parts hc).2.2.2.1
        rwa [hzero.2 rfl c rfl, UInt8.or_zero] at hparts
      rw [decodeText, encodeText, hfirst, hfirst', hsecond, hsecond', (char_parts hb).2.2.1, hlast, hca, hcb, hcc]
  | case3 a b =>
      simp only [List.forall_mem_cons] at ht
      obtain ⟨ha, hb, -⟩ := ht
      obtain ⟨ha, hca⟩ := h.alphabet_basis a ha
      obtain ⟨hb, hcb⟩ := h.alphabet_basis b hb
      obtain ⟨hfirst, hfirst'⟩ := first_byte ha hb
      have hlast : basis b &&& 48 = basis b := by
        have hparts := (char_parts hb).2.2.1
        rwa [hzero.1 rfl b rfl, UInt8.or_zero] at hparts
      rw [decodeText, encodeText, hfirst, hfirst', hlast, hca, hcb]
  | case4 s hfour hthree htwo =>
      have hshort := length_of_rest hfour hthree htwo
      have hnil : s = [] := List.length_eq_zero_iff.mp (by omega)
      subst hnil
      rfl

end Decode

theorem Coding.valid_iff {basis : UInt8 → UInt8} {l : Bytes} (h : Coding basis fun v => l.getD v.toNat 0) (hlen : l.length = 64)
    (c : UInt8) : basis c ≠ 77 ↔ c ∈ l := by
  constructor
  · intro hc
    obtain ⟨hlt, hback⟩ := h.alphabet_basis c hc
    have hindex : (basis c).toNat < l.length := by
      rw [hlen]
      exact UInt8.lt_iff_toNat_lt.mp hlt
    rw [← hback, List.getD_eq_getElem l 0 hindex]
    exact List.getElem_mem hindex
  · intro hc
    obtain ⟨i, hi, rfl⟩ := List.getElem_of_mem hc
    rw [hlen] at hi
    have hindex : (UInt8.ofNat i).toNat = i := UInt8.toNat_ofNat_of_lt' (Nat.lt_trans hi (by decide))
    have hlt : UInt8.ofNat i < 64 := by
      rw [UInt8.lt_iff_toNat_lt, hindex]
      exact hi
    have hback := h.basis_alphabet (UInt8.ofNat i) hlt
    rw [hindex, List.getD_eq_getElem l 0 (by omega)] at hback
    rw [hback]
    intro heq
    rw [heq] at hlt
    exact absurd hlt (by decide)

theorem alphabet_valid_iff (c : UInt8) : basis64.getD c.toNat 77 ≠ 77 ↔ c ∈ alphabet :=
  coding.valid_iff (by rw [alphabet_eq, alphanumerics_eq]; rfl) c

theorem alphabetUrl_valid_iff (c : UInt8) : basis64url.getD c.toNat 77 ≠ 77 ↔ c ∈ alphabetUrl :=
  url_coding.valid_iff (by rw [alphabetUrl_eq, alphanumerics_eq]; rfl) c

theorem base64_laws (s src : Bytes) :
    ((encodeBase64 s).length = encodedLength s.length ∧ decodeBase64 (encodeBase64 s) = some s) ∧
    ((∀ dst, decodeBase64 src = some dst → dst.length ≤ decodedLength src.length) ∧
      ∀ dst, decodeBase64url src = some dst → dst.length ≤ decodedLength src.length) ∧
    (((decodeBase64 src).isSome ↔ (∀ c ∈ textOf src, c ∈ alphabet) ∧ (textOf src).length % 4 ≠ 1) ∧
      ((decodeBase64url src).isSome ↔ (∀ c ∈ textOf src, c ∈ alphabetUrl) ∧ (textOf src).length % 4 ≠ 1)) ∧
    ∀ dst, decodeBase64 src = some dst → TrailingZero (fun c => basis64.getD c.toNat 77) (textOf src) →
      textOf src ++ padding (textOf src).length = encodeBase64 dst := by
  refine ⟨⟨encodeBase64_length s, decodeBase64_encodeBase64 s⟩, ⟨fun _ => decodeInternal_length, fun _ => decodeInternal_length⟩,
    ⟨decodeInternal_isSome_iff alphabet_valid_iff src, decodeInternal_isSome_iff alphabetUrl_valid_iff src⟩, ?_⟩
  intro dst hdst hzero
  obtain ⟨hall, hlen, rfl⟩ := (decodeInternal_eq_some_iff _ src dst).mp hdst
  rw [encodeBase64_eq, encodeText_decodeText_eq coding (textOf src) hall hlen hzero]

-- What follows the first '=' is not looked at, and no padding completes it.
theorem text_after_padding_ignored :
    decodeBase64 (ngxString "QQ=A") = some (ngxString "A") ∧
      TrailingZero (fun c => basis64.getD c.toNat 77) (textOf (ngxString "QQ=A")) ∧
      ∀ n, ngxString "QQ=A" ++ List.replicate n 61 ≠ encodeBase64 (ngxString "A") := by
  refine ⟨by decide, ⟨fun _ => by decide +kernel, fun h => by revert h; decide +kernel⟩, fun n h => ?_⟩
  have hlen := congrArg List.length h
  have hfour : (ngxString "QQ=A").length = 4 ∧ (encodeBase64 (ngxString "A")).length = 4 := by decide
  rw [List.length_append, List.length_replicate, hfour.1, hfour.2] at hlen
  obtain rfl : n = 0 := by omega
  revert h
  decide

end Nginx.Base64
