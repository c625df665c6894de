import Nginx.Core.Bytes
import Nginx.Library.ReflectedCrc

namespace Nginx

open ReflectedCrc

-- ngx_crc32_table16
def crc32Table16 : List UInt32 :=
  [0x00000000, 0x1db71064, 0x3b6e20c8, 0x26d930ac,
    0x76dc4190, 0x6b6b51f4, 0x4db26158, 0x5005713c,
    0xedb88320, 0xf00f9344, 0xd6d6a3e8, 0xcb61b38c,
    0x9b64c2b0, 0x86d3d2d4, 0xa00ae278, 0xbdbdf21c]

-- The two lookups of ngx_crc32_short for one byte.
def crc32ShortStep (crc : UInt32) (c : UInt8) : UInt32 :=
  let crc := crc32Table16.getD ((crc ^^^ (c &&& 0xf).toUInt32) &&& 0xf).toNat 0 ^^^ (crc >>> 4)
  crc32Table16.getD ((crc ^^^ (c >>> 4).toUInt32) &&& 0xf).toNat 0 ^^^ (crc >>> 4)

-- ngx_crc32_short
def crc32Short (p : Bytes) : UInt32 := p.foldl crc32ShortStep 0xffffffff ^^^ 0xffffffff

-- ngx_crc32_table256
def crc32Table256 : List UInt32 :=
  [0x00000000, 0x77073096, 0xee0e612c, 0x990951ba, 0x076dc419, 0x706af48f, 0xe963a535, 0x9e6495a3,
    0x0edb8832, 0x79dcb8a4, 0xe0d5e91e, 0x97d2d988, 0x09b64c2b, 0x7eb17cbd, 0xe7b82d07, 0x90bf1d91,
    0x1db71064, 0x6ab020f2, 0xf3b97148, 0x84be41de, 0x1adad47d, 0x6ddde4eb, 0xf4d4b551, 0x83d385c7,
    0x136c9856, 0x646ba8c0, 0xfd62f97a, 0x8a65c9ec, 0x14015c4f, 0x63066cd9, 0xfa0f3d63, 0x8d080df5,
    0x3b6e20c8, 0x4c69105e, 0xd56041e4, 0xa2677172, 0x3c03e4d1, 0x4b04d447, 0xd20d85fd, 0xa50ab56b,
    0x35b5a8fa, 0x42b2986c, 0xdbbbc9d6, 0xacbcf940, 0x32d86ce3, 0x45df5c75, 0xdcd60dcf, 0xabd13d59,
    0x26d930ac, 0x51de003a, 0xc8d75180, 0xbfd06116, 0x21b4f4b5, 0x56b3c423, 0xcfba9599, 0xb8bda50f,
    0x2802b89e, 0x5f058808, 0xc60cd9b2, 0xb10be924, 0x2f6f7c87, 0x58684c11, 0xc1611dab, 0xb6662d3d,
    0x76dc4190, 0x01db7106, 0x98d220bc, 0xefd5102a, 0x71b18589, 0x06b6b51f, 0x9fbfe4a5, 0xe8b8d433,
    0x7807c9a2, 0x0f00f934, 0x9609a88e, 0xe10e9818, 0x7f6a0dbb, 0x086d3d2d, 0x91646c97, 0xe6635c01,
    0x6b6b51f4, 0x1c6c6162, 0x856530d8, 0xf262004e, 0x6c0695ed, 0x1b01a57b, 0x8208f4c1, 0xf50fc457,
    0x65b0d9c6, 0x12b7e950, 0x8bbeb8ea, 0xfcb9887c, 0x62dd1ddf, 0x15da2d49, 0x8cd37cf3, 0xfbd44c65,
    0x4db26158, 0x3ab551ce, 0xa3bc0074, 0xd4bb30e2, 0x4adfa541, 0x3dd895d7, 0xa4d1c46d, 0xd3d6f4fb,
    0x4369e96a, 0x346ed9fc, 0xad678846, 0xda60b8d0, 0x44042d73, 0x33031de5, 0xaa0a4c5f, 0xdd0d7cc9,
    0x5005713c, 0x270241aa, 0xbe0b1010, 0xc90c2086, 0x5768b525, 0x206f85b3, 0xb966d409, 0xce61e49f,
    0x5edef90e, 0x29d9c998, 0xb0d09822, 0xc7d7a8b4, 0x59b33d17, 0x2eb40d81, 0xb7bd5c3b, 0xc0ba6cad,
    0xedb88320, 0x9abfb3b6, 0x03b6e20c, 0x74b1d29a, 0xead54739, 0x9dd277af, 0x04db2615, 0x73dc1683,
    0xe3630b12, 0x94643b84, 0x0d6d6a3e, 0x7a6a5aa8, 0xe40ecf0b, 0x9309ff9d, 0x0a00ae27, 0x7d079eb1,
    0xf00f9344, 0x8708a3d2, 0x1e01f268, 0x6906c2fe, 0xf762575d, 0x806567cb, 0x196c3671, 0x6e6b06e7,
    0xfed41b76, 0x89d32be0, 0x10da7a5a, 0x67dd4acc, 0xf9b9df6f, 0x8ebeeff9, 0x17b7be43, 0x60b08ed5,
    0xd6d6a3e8, 0xa1d1937e, 0x38d8c2c4, 0x4fdff252, 0xd1bb67f1, 0xa6bc5767, 0x3fb506dd, 0x48b2364b,
    0xd80d2bda, 0xaf0a1b4c, 0x36034af6, 0x41047a60, 0xdf60efc3, 0xa867df55, 0x316e8eef, 0x4669be79,
    0xcb61b38c, 0xbc66831a, 0x256fd2a0, 0x5268e236, 0xcc0c7795, 0xbb0b4703, 0x220216b9, 0x5505262f,
    0xc5ba3bbe, 0xb2bd0b28, 0x2bb45a92, 0x5cb36a04, 0xc2d7ffa7, 0xb5d0cf31, 0x2cd99e8b, 0x5bdeae1d,
    0x9b64c2b0, 0xec63f226, 0x756aa39c, 0x026d930a, 0x9c0906a9, 0xeb0e363f, 0x72076785, 0x05005713,
    0x95bf4a82, 0xe2b87a14, 0x7bb12bae, 0x0cb61b38, 0x92d28e9b, 0xe5d5be0d, 0x7cdcefb7, 0x0bdbdf21,
    0x86d3d2d4, 0xf1d4e242, 0x68ddb3f8, 0x1fda836e, 0x81be16cd, 0xf6b9265b, 0x6fb077e1, 0x18b74777,
    0x88085ae6, 0xff0f6a70, 0x66063bca, 0x11010b5c, 0x8f659eff, 0xf862ae69, 0x616bffd3, 0x166ccf45,
    0xa00ae278, 0xd70dd2ee, 0x4e048354, 0x3903b3c2, 0xa7672661, 0xd06016f7, 0x4969474d, 0x3e6e77db,
    0xaed16a4a, 0xd9d65adc, 0x40df0b66, 0x37d83bf0, 0xa9bcae53, 0xdebb9ec5, 0x47b2cf7f, 0x30b5ffe9,
    0xbdbdf21c, 0xcabac28a, 0x53b39330, 0x24b4a3a6, 0xbad03605, 0xcdd70693, 0x54de5729, 0x23d967bf,
    0xb3667a2e, 0xc4614ab8, 0x5d681b02, 0x2a6f2b94, 0xb40bbe37, 0xc30c8ea1, 0x5a05df1b, 0x2d02ef8d]

def crc32LongStep (crc : UInt32) (c : UInt8) : UInt32 :=
  crc32Table256.getD ((crc ^^^ c.toUInt32) &&& 0xff).toNat 0 ^^^ (crc >>> 8)

-- ngx_crc32_long
def crc32Long (p : Bytes) : UInt32 := p.foldl crc32LongStep 0xffffffff ^^^ 0xffffffff

-- ngx_crc32_init, ngx_crc32_update and ngx_crc32_final
def crc32Init : UInt32 := 0xffffffff

def crc32Update (crc : UInt32) (p : Bytes) : UInt32 := p.foldl crc32LongStep crc

def crc32Final (crc : UInt32) : UInt32 := crc ^^^ 0xffffffff

-- The reflected CRC-32, one bit of the message after the other
def crc32Poly : BitVec 32 := 0xedb88320

def crc32Bitwise (p : Bytes) : UInt32 :=
  ⟨(p.flatMap fun c => bits 8 c.toNat).foldl (absorb crc32Poly) 0xffffffff ^^^ 0xffffffff⟩

theorem table16_entries : crc32Table16.map UInt32.toBitVec = (List.range 16).map fun i => bitSteps crc32Poly 4 (BitVec.ofNat 32 i) := by
  decide

theorem table256_entries : crc32Table256.map UInt32.toBitVec = (List.range 256).map fun i => bitSteps crc32Poly 8 (BitVec.ofNat 32 i) := by
  decide +kernel

-- A table answers for its index.
theorem table_entry {table : List UInt32} {n : Nat}
    (h : table.map UInt32.toBitVec = (List.range (2 ^ n)).map fun i => bitSteps crc32Poly n (BitVec.ofNat 32 i)) :
    ∀ i < 2 ^ n, (table.map UInt32.toBitVec).getD i 0 = bitSteps crc32Poly n (BitVec.ofNat 32 i) := by
  intro i hi
  rw [h, List.getD_eq_getElem?_getD, List.getElem?_map, List.getElem?_range hi, Option.map_some, Option.getD_some]

-- One look at a table takes n bits up.
theorem lookup_absorb {table : List UInt32} {n : Nat}
    (h : table.map UInt32.toBitVec = (List.range (2 ^ n)).map fun i => bitSteps crc32Poly n (BitVec.ofNat 32 i)) (hn : n ≤ 32)
    (crc x : UInt32) (hx : x.toNat < 2 ^ n) :
    (table.getD ((crc ^^^ x).toNat % 2 ^ n) 0).toBitVec ^^^ crc.toBitVec >>> n =
      (bits n x.toNat).foldl (absorb crc32Poly) crc.toBitVec := by
  have hword : BitVec.ofNat 32 x.toNat = x.toBitVec := by
    rw [← UInt32.toNat_toBitVec, BitVec.ofNat_toNat, BitVec.setWidth_eq]
  have hzero : (0 : BitVec 32) = UInt32.toBitVec 0 := rfl
  rw [foldl_absorb_table (table_entry h) hn crc.toBitVec hx, hword, hzero, List.getD_map]
  rfl

theorem long_step (crc : UInt32) (c : UInt8) :
    (crc32LongStep crc c).toBitVec = (bits 8 c.toNat).foldl (absorb crc32Poly) crc.toBitVec := by
  have hmask : ((crc ^^^ c.toUInt32) &&& 0xff).toNat = (crc ^^^ c.toUInt32).toNat % 2 ^ 8 := by
    rw [UInt32.toNat_and]
    exact Nat.and_two_pow_sub_one_eq_mod _ 8
  have hlook := lookup_absorb table256_entries (by decide) crc c.toUInt32 (by rw [UInt8.toNat_toUInt32]; exact c.toNat_lt)
  rw [UInt8.toNat_toUInt32] at hlook
  rw [crc32LongStep, hmask, ← hlook]
  rfl

-- A byte is its lower half and then its upper one.
theorem bits_halves (x : Nat) : bits 8 x = bits 4 (x % 16) ++ bits 4 (x / 16) := by
  have hlow : ∀ k < 4, (x % 16).testBit k = x.testBit k := by
    intro k hk
    rw [show (16 : Nat) = 2 ^ 4 from rfl, Nat.testBit_mod_two_pow, decide_eq_true hk, Bool.true_and]
  have hhigh : ∀ k, (x / 16).testBit k = x.testBit (4 + k) := by
    intro k
    rw [show (16 : Nat) = 2 ^ 4 from rfl, Nat.testBit_div_two_pow, Nat.add_comm]
  have hsplit : List.range 8 = List.range 4 ++ (List.range 4).map (4 + ·) := rfl
  rw [bits, bits, bits, hsplit, List.map_append, List.map_map]
  congr 1
  · exact List.map_congr_left fun k hk => (hlow k (List.mem_range.mp hk)).symm
  · exact List.map_congr_left fun k _ => (hhigh k).symm

theorem short_step (crc : UInt32) (c : UInt8) :
    (crc32ShortStep crc c).toBitVec = (bits 8 c.toNat).foldl (absorb crc32Poly) crc.toBitVec := by
  have hmask : ∀ x : UInt32, (x &&& 0xf).toNat = x.toNat % 2 ^ 4 := by
    intro x
    rw [UInt32.toNat_and]
    exact Nat.and_two_pow_sub_one_eq_mod _ 4
  have hlow : ((c &&& 0xf).toUInt32).toNat = c.toNat % 16 := by
    rw [UInt8.toNat_toUInt32, UInt8.toNat_and]
    exact Nat.and_two_pow_sub_one_eq_mod _ 4
  have hhigh : ((c >>> 4).toUInt32).toNat = c.toNat / 16 := by
    rw [UInt8.toNat_toUInt32, UInt8.toNat_shiftRight, Nat.shiftRight_eq_div_pow]
    rfl
  have hlt := c.toNat_lt
  have hone := lookup_absorb table16_entries (by decide) crc (c &&& 0xf).toUInt32 (by rw [hlow]; omega)
  generalize hcrc : crc32Table16.getD ((crc ^^^ (c &&& 0xf).toUInt32).toNat % 2 ^ 4) 0 ^^^ (crc >>> 4) = crc'
  have hcrc' : crc'.toBitVec = (bits 4 (c.toNat % 16)).foldl (absorb crc32Poly) crc.toBitVec := by
    rw [← hlow, ← hone, ← hcrc]
    rfl
  have htwo := lookup_absorb table16_entries (by decide) crc' (c >>> 4).toUInt32 (by rw [hhigh]; omega)
  rw [bits_halves, List.foldl_append, ← hcrc', ← hhigh, ← htwo]
  simp only [crc32ShortStep, hmask, hcrc]
  rfl

theorem foldl_bits {step : UInt32 → UInt8 → UInt32}
    (hstep : ∀ crc c, (step crc c).toBitVec = (bits 8 c.toNat).foldl (absorb crc32Poly) crc.toBitVec) (p : Bytes) (crc : UInt32) :
    (p.foldl step crc).toBitVec = (p.flatMap fun c => bits 8 c.toNat).foldl (absorb crc32Poly) crc.toBitVec := by
  induction p generalizing crc with
  | nil => rfl
  | cons c p ih => rw [List.foldl_cons, ih, hstep, List.flatMap_cons, List.foldl_append]

theorem crc32Short_eq (p : Bytes) : crc32Short p = crc32Bitwise p := by
  apply UInt32.eq_of_toBitVec_eq
  rw [crc32Short, UInt32.toBitVec_xor, foldl_bits short_step]
  rfl

theorem crc32Long_eq (p : Bytes) : crc32Long p = crc32Bitwise p := by
  apply UInt32.eq_of_toBitVec_eq
  rw [crc32Long, UInt32.toBitVec_xor, foldl_bits long_step]
  rfl

-- The pieces of a string are taken up like the string.
theorem crc32Update_flatten (pieces : List Bytes) (crc : UInt32) :
    pieces.foldl crc32Update crc = crc32Update crc pieces.flatten := by
  induction pieces generalizing crc with
  | nil => rfl
  | cons p pieces ih => rw [List.foldl_cons, ih, List.flatten_cons, crc32Update, crc32Update, crc32Update, List.foldl_append]

theorem crc32_variants_agree :
    (∀ p : Bytes, crc32Short p = crc32Bitwise p ∧ crc32Long p = crc32Bitwise p) ∧
      ∀ pieces : List Bytes, crc32Final (pieces.foldl crc32Update crc32Init) = crc32Bitwise pieces.flatten := by
  refine ⟨fun p => ⟨crc32Short_eq p, crc32Long_eq p⟩, fun pieces => ?_⟩
  rw [crc32Update_flatten, ← crc32Long_eq]
  rfl

example : crc32Bitwise (ngxString "123456789") = 0xcbf43926 := by decide +kernel

end Nginx
