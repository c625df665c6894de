import Nginx.Library.BlockHash

-- The MD5 digest as RFC 1321 defines it. A message is a list of bytes.
namespace Rfc1321

-- The four words of the buffer, 3.3
structure State where
  a : UInt32
  b : UInt32
  c : UInt32
  d : UInt32

-- The auxiliary functions, 3.4
def F (x y z : UInt32) : UInt32 := (x &&& y) ||| (~~~x &&& z)

def G (x y z : UInt32) : UInt32 := (x &&& z) ||| (y &&& ~~~z)

def H (x y z : UInt32) : UInt32 := x ^^^ y ^^^ z

def I (x y z : UInt32) : UInt32 := y ^^^ (x ||| ~~~z)

-- The table T: the integer part of 2^32 times the absolute value of the sine of i + 1
def T : List UInt32 :=
  [0xd76aa478, 0xe8c7b756, 0x242070db, 0xc1bdceee, 0xf57c0faf, 0x4787c62a, 0xa8304613, 0xfd469501,
    0x698098d8, 0x8b44f7af, 0xffff5bb1, 0x895cd7be, 0x6b901122, 0xfd987193, 0xa679438e, 0x49b40821,
    0xf61e2562, 0xc040b340, 0x265e5a51, 0xe9b6c7aa, 0xd62f105d, 0x02441453, 0xd8a1e681, 0xe7d3fbc8,
    0x21e1cde6, 0xc33707d6, 0xf4d50d87, 0x455a14ed, 0xa9e3e905, 0xfcefa3f8, 0x676f02d9, 0x8d2a4c8a,
    0xfffa3942, 0x8771f681, 0x6d9d6122, 0xfde5380c, 0xa4beea44, 0x4bdecfa9, 0xf6bb4b60, 0xbebfbc70,
    0x289b7ec6, 0xeaa127fa, 0xd4ef3085, 0x04881d05, 0xd9d4d039, 0xe6db99e5, 0x1fa27cf8, 0xc4ac5665,
    0xf4292244, 0x432aff97, 0xab9423a7, 0xfc93a039, 0x655b59c3, 0x8f0ccc92, 0xffeff47d, 0x85845dd1,
    0x6fa87e4f, 0xfe2ce6e0, 0xa3014314, 0x4e0811a1, 0xf7537e82, 0xbd3af235, 0x2ad7d2bb, 0xeb86d391]

-- The function, the word of the block and the shift of operation i of the 64
def fn (i : Nat) : UInt32 → UInt32 → UInt32 → UInt32 :=
  if i < 16 then F else if i < 32 then G else if i < 48 then H else I

def index (i : Nat) : Nat :=
  if i < 16 then i else if i < 32 then (5 * i + 1) % 16 else if i < 48 then (3 * i + 5) % 16 else 7 * i % 16

def shift (i : Nat) : Nat :=
  (if i < 16 then [7, 12, 17, 22] else if i < 32 then [5, 9, 14, 20] else if i < 48 then [4, 11, 16, 23]
    else [6, 10, 15, 21]).getD (i % 4) 0

def rotateLeft (x : UInt32) (s : Nat) : UInt32 := ⟨x.toBitVec.rotateLeft s⟩

-- a = b + ((a + fn(b, c, d) + X[k] + T[i]) <<< s), after which the words change their names
def operation (x : Nat → UInt32) (w : State) (i : Nat) : State :=
  ⟨w.d, w.b + rotateLeft (w.a + fn i w.b w.c w.d + x (index i) + T.getD i 0) (shift i), w.b, w.c⟩

def block (x : Nat → UInt32) (w : State) : State :=
  let out := (List.range 64).foldl (operation x) w
  ⟨out.a + w.a, out.b + w.b, out.c + w.c, out.d + w.d⟩

-- The bytes of a word stand with the low-order one first.
def wordAt (p : List UInt8) (n : Nat) : UInt32 :=
  let byte := fun k => (p.getD (n * 4 + k) 0).toNat
  UInt32.ofNat (byte 0 + 2 ^ 8 * byte 1 + 2 ^ 16 * byte 2 + 2 ^ 24 * byte 3)

def bytesOf (count x : Nat) : List UInt8 := (List.range count).map fun k => UInt8.ofNat (x / 2 ^ (8 * k))

def initial : State := ⟨0x67452301, 0xefcdab89, 0x98badcfe, 0x10325476⟩

-- A one bit, zeros up to 56 bytes modulo 64, and the number of bits, 3.1 and 3.2
def padding (n : Nat) : List UInt8 := 0x80 :: (List.replicate ((119 - n % 64) % 64) 0 ++ bytesOf 8 (8 * n))

def digest (message : List UInt8) : List UInt8 :=
  let w := BlockHash.absorb 64 (fun p => block (wordAt p)) (message ++ padding message.length) initial
  bytesOf 4 w.a.toNat ++ bytesOf 4 w.b.toNat ++ bytesOf 4 w.c.toNat ++ bytesOf 4 w.d.toNat

example : digest [97, 98, 99] =
    [0x90, 0x01, 0x50, 0x98, 0x3c, 0xd2, 0x4f, 0xb0, 0xd6, 0x96, 0x3f, 0x7d, 0x28, 0xe1, 0x7f, 0x72] := by
  decide +kernel

theorem padding_length (n : Nat) : (padding n).length = 9 + (119 - n % 64) % 64 := by
  simp only [padding, bytesOf, List.length_cons, List.length_append, List.length_replicate, List.length_map,
    List.length_range]
  omega

-- The bytes of a number say what its low-order bits are.
theorem bytesOf_mod (count x : Nat) : bytesOf count (x % 2 ^ (8 * count)) = bytesOf count x := by
  apply List.map_congr_left
  intro k hk
  have hk := List.mem_range.mp hk
  have hsplit : 8 * count = 8 * k + (8 + 8 * (count - k - 1)) := by omega
  have hpower : 2 ^ (8 * count) = 2 ^ (8 * k) * (2 ^ 8 * 2 ^ (8 * (count - k - 1))) := by
    rw [hsplit, Nat.pow_add, Nat.pow_add]
  rw [← UInt8.toNat_inj, UInt8.toNat_ofNat', UInt8.toNat_ofNat', hpower, Nat.mod_mul_right_div_self,
    Nat.mod_mul_right_mod]

theorem wordAt_append {p : List UInt8} (q : List UInt8) {n : Nat} (h : n * 4 + 4 ≤ p.length) :
    wordAt (p ++ q) n = wordAt p n := by
  have hbyte : ∀ k < 4, (p ++ q).getD (n * 4 + k) 0 = p.getD (n * 4 + k) 0 := by
    intro k hk
    rw [List.getD_eq_getElem?_getD, List.getD_eq_getElem?_getD, List.getElem?_append_left (by omega)]
  simp only [wordAt, hbyte 0 (by omega), hbyte 1 (by omega), hbyte 2 (by omega), hbyte 3 (by omega)]

theorem index_lt (i : Nat) : index i < 16 := by
  unfold index
  split
  · assumption
  · split
    · omega
    · split <;> omega

theorem shift_bounds (i : Nat) : 0 < shift i ∧ shift i < 32 := by
  have hentry : ∀ a b c d : Nat, (0 < a ∧ a < 32) ∧ (0 < b ∧ b < 32) ∧ (0 < c ∧ c < 32) ∧ 0 < d ∧ d < 32 →
      0 < [a, b, c, d].getD (i % 4) 0 ∧ [a, b, c, d].getD (i % 4) 0 < 32 := by
    intro a b c d ⟨ha, hb, hc, hd⟩
    have hi : i % 4 = 0 ∨ i % 4 = 1 ∨ i % 4 = 2 ∨ i % 4 = 3 := by omega
    rcases hi with hi | hi | hi | hi <;> rw [hi] <;> assumption
  unfold shift
  split
  · exact hentry _ _ _ _ (by decide)
  · split
    · exact hentry _ _ _ _ (by decide)
    · split <;> exact hentry _ _ _ _ (by decide)

theorem block_congr {x y : Nat → UInt32} (h : ∀ k < 16, x k = y k) (w : State) : block x w = block y w := by
  have hop : operation x = operation y := by
    funext w i
    rw [operation, operation, h _ (index_lt i)]
  rw [block, block, hop]

-- A block is 64 bytes.
theorem block_local : BlockHash.Local 64 fun p => block (wordAt p) := fun _ q w h =>
  block_congr (fun _ _ => wordAt_append q (by omega)) w

end Rfc1321
