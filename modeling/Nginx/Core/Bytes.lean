import Mathlib

namespace Nginx

abbrev Bytes := List UInt8

-- The bytes of an ngx_string() literal, without the terminating NUL.
def ngxString (s : String) : Bytes := s.toList.map Char.toUInt8

-- A literal is the list of its characters, so that its bytes are found without decoding it.
theorem ngxString_ofList (l : List Char) : ngxString (String.ofList l) = l.map Char.toUInt8 := by
  rw [ngxString, String.toList_ofList]

theorem ngxString_length (l : List Char) : (ngxString (String.ofList l)).length = l.length := by
  rw [ngxString_ofList, List.length_map]

-- What is checked on the 256 bytes holds of every byte.
theorem byte_cases {P : UInt8 → Prop} (h : ∀ n < 256, P (UInt8.ofNat n)) (c : UInt8) : P c := by
  have hc := h c.toNat c.toNat_lt
  rwa [UInt8.ofNat_toNat] at hc

-- A size_t or ngx_uint_t value, and the signed reading of a 64-bit word.
def toSize (n : Int) : Nat := (n % 2 ^ 64).toNat

def toInt64 (n : Int) : Int := n.bmod (2 ^ 64)

-- The signed reading of the low 32 bits, a conversion to int.
def toInt32 (n : Int) : Int := n.bmod (2 ^ 32)

theorem toSize_of_nonneg (n : Int) (h0 : 0 ≤ n) (h : n < 2 ^ 64) : (toSize n : Int) = n := by
  unfold toSize
  omega

theorem toInt64_of_range (n : Int) (h0 : -2 ^ 63 ≤ n) (h : n < 2 ^ 63) : toInt64 n = n := by
  unfold toInt64
  rw [Int.bmod_def]
  split <;> omega

-- A number that wraps round at each digit is what the number of all digits is in 64 bits.
theorem toInt64_mul_add (n b k : Int) : toInt64 (toInt64 n * b + k) = toInt64 (n * b + k) := by
  unfold toInt64
  rw [← Int.bmod_add_bmod, Int.bmod_mul_bmod, Int.bmod_add_bmod]

theorem toInt32_of_range (n : Int) (h0 : -2 ^ 31 ≤ n) (h : n < 2 ^ 31) : toInt32 n = n := by
  unfold toInt32
  rw [Int.bmod_def]
  split <;> omega

theorem toInt32_lt (n : Int) : toInt32 n < 2 ^ 31 := by
  unfold toInt32
  rw [Int.bmod_def]
  split <;> omega

-- The case folding that ngx_strcasecmp and ngx_strncasecmp apply to a byte.
def tolower (c : UInt8) : UInt8 := if 65 ≤ c ∧ c ≤ 90 then c ||| 0x20 else c

-- ngx_strncasecmp. A missing byte models a read past the end of the string.
def strncasecmp : Bytes → Bytes → Nat → Option Int
  | _, _, 0 => some 0
  | c1 :: s1, c2 :: s2, n + 1 =>
      if tolower c1 = tolower c2 then
        if tolower c1 ≠ 0 then strncasecmp s1 s2 n else some 0
      else some ((tolower c1).toNat - (tolower c2).toNat)
  | _, _, _ => none

-- Equality with a literal that holds no NUL byte is equality of the folded prefixes.
theorem strncasecmp_eq_zero_iff (s lit : Bytes) (n : Nat) (hs : n ≤ s.length)
    (hl : n ≤ lit.length) (hnul : ∀ c ∈ lit, tolower c ≠ 0) :
    strncasecmp s lit n = some 0 ↔ (s.take n).map tolower = (lit.take n).map tolower := by
  induction n generalizing s lit with
  | zero => simp [strncasecmp]
  | succ n ih =>
      cases s with
      | nil => simp at hs
      | cons c s =>
          cases lit with
          | nil => simp at hl
          | cons d lit =>
              simp only [List.length_cons, Nat.add_le_add_iff_right] at hs hl
              simp only [List.mem_cons, forall_eq_or_imp] at hnul
              have hrec := ih s lit hs hl hnul.2
              by_cases heq : tolower c = tolower d
              · have hne : tolower c ≠ 0 := heq ▸ hnul.1
                simpa [strncasecmp, heq, hnul.1] using hrec
              · have hsub : ((tolower c).toNat : Int) - (tolower d).toNat ≠ 0 := by
                  intro h
                  exact heq (UInt8.toNat_inj.mp (by omega))
                simp [strncasecmp, heq, hsub]

end Nginx
