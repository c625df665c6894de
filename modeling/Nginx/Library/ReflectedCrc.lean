import Mathlib

-- The remainder of a message of bits. The lowest bit of the register stands for the highest power, and the width and the
-- polynomial are any.
namespace ReflectedCrc

variable {w : Nat}

-- The register is divided by the polynomial once.
def bitStep (poly crc : BitVec w) : BitVec w := if crc.getLsbD 0 then crc >>> 1 ^^^ poly else crc >>> 1

def bitSteps (poly : BitVec w) : Nat → BitVec w → BitVec w
  | 0, crc => crc
  | n + 1, crc => bitSteps poly n (bitStep poly crc)

-- The next bit of the message
def absorb (poly crc : BitVec w) (bit : Bool) : BitVec w := bitStep poly (crc ^^^ BitVec.ofNat w bit.toNat)

-- The n low bits of a number, the lowest one first
def bits (n x : Nat) : List Bool := (List.range n).map x.testBit

-- The bits of a message as a word, the first one the lowest
def word : List Bool → BitVec w
  | [] => 0
  | bit :: message => BitVec.ofNat w bit.toNat ^^^ word message <<< 1

-- The division is linear: what it makes of a sum is the sum of what it makes of the parts.
theorem bitStep_xor (poly a b : BitVec w) : bitStep poly (a ^^^ b) = bitStep poly a ^^^ bitStep poly b := by
  unfold bitStep
  rw [BitVec.getLsbD_xor, BitVec.ushiftRight_xor_distrib]
  cases a.getLsbD 0 <;> cases b.getLsbD 0
  · rfl
  · exact BitVec.xor_assoc _ _ _
  · simp only [Bool.bne_false, if_true, Bool.false_eq_true, if_false]
    ac_rfl
  · have hpoly : a >>> 1 ^^^ poly ^^^ (b >>> 1 ^^^ poly) = a >>> 1 ^^^ b >>> 1 ^^^ (poly ^^^ poly) := by ac_rfl
    simp [hpoly]

theorem bitSteps_xor (poly : BitVec w) (n : Nat) (a b : BitVec w) :
    bitSteps poly n (a ^^^ b) = bitSteps poly n a ^^^ bitSteps poly n b := by
  induction n generalizing a b with
  | zero => rfl
  | succ n ih => rw [bitSteps, bitStep_xor, ih, bitSteps, bitSteps]

-- Nothing is divided out of low bits that are clear.
theorem bitSteps_clear (poly : BitVec w) (n : Nat) (a : BitVec w) (h : ∀ k < n, a.getLsbD k = false) :
    bitSteps poly n a = a >>> n := by
  induction n generalizing a with
  | zero => simp [bitSteps]
  | succ n ih =>
      have hstep : bitStep poly a = a >>> 1 := by simp [bitStep, h 0 (Nat.succ_pos n)]
      have hnext : ∀ k < n, (a >>> 1).getLsbD k = false := by
        intro k hk
        rw [BitVec.getLsbD_ushiftRight]
        exact h (1 + k) (by omega)
      rw [bitSteps, hstep, ih _ hnext, ← BitVec.shiftRight_add, Nat.add_comm]

theorem getLsbD_word (message : List Bool) (k : Nat) :
    (word message : BitVec w).getLsbD k = (decide (k < w) && message.getD k false) := by
  induction message generalizing k with
  | nil => simp [word]
  | cons bit message ih =>
      rw [word, BitVec.getLsbD_xor, BitVec.getLsbD_ofNat, BitVec.getLsbD_shiftLeft]
      cases k with
      | zero => cases bit <;> simp
      | succ k =>
          have hhigh : bit.toNat.testBit (k + 1) = false :=
            Nat.testBit_lt_two_pow (Nat.lt_of_le_of_lt bit.toNat_le (Nat.one_lt_two_pow (by omega)))
          rw [hhigh, Nat.add_sub_cancel, ih]
          by_cases hk : k + 1 < w
          · have hk' : k < w := by omega
            simp [hk, hk']
          · simp [hk]

theorem word_bits (n x : Nat) (hx : x < 2 ^ n) : word (bits n x) = BitVec.ofNat w x := by
  apply BitVec.eq_of_getLsbD_eq
  intro k hk
  rw [getLsbD_word, BitVec.getLsbD_ofNat]
  by_cases hkn : k < n
  · simp [bits, hkn]
  · have hclear : x.testBit k = false :=
      Nat.testBit_lt_two_pow (Nat.lt_of_lt_of_le hx (Nat.pow_le_pow_right (by omega) (by omega)))
    simp [bits, hkn, hclear]

-- A message of no more bits than the register has can be added to it at once.
theorem foldl_absorb (poly crc : BitVec w) (message : List Bool) (hlen : message.length ≤ w) :
    message.foldl (absorb poly) crc = bitSteps poly message.length (crc ^^^ word message) := by
  induction message generalizing crc with
  | nil => simp [word, bitSteps]
  | cons bit message ih =>
      rw [List.length_cons] at hlen
      have hshift : bitStep poly ((word message : BitVec w) <<< 1) = word message := by
        have hlow : ((word message : BitVec w) <<< 1).getLsbD 0 = false := by simp
        rw [bitStep, hlow, if_neg Bool.false_ne_true]
        apply BitVec.eq_of_getLsbD_eq
        intro k hk
        rw [BitVec.getLsbD_ushiftRight, BitVec.getLsbD_shiftLeft, getLsbD_word, getLsbD_word]
        by_cases hk' : 1 + k < w
        · simp [hk, hk']
        · have hout : message.length ≤ k := by omega
          simp [hk', hout]
      rw [List.foldl_cons, ih (absorb poly crc bit) (by omega), List.length_cons, bitSteps, word, ← BitVec.xor_assoc,
        bitStep_xor, hshift]
      rfl

-- A table of what the division makes of the low n bits answers for n bits of a message.
theorem foldl_absorb_table {poly : BitVec w} {table : List (BitVec w)} {n : Nat}
    (htable : ∀ i < 2 ^ n, table.getD i 0 = bitSteps poly n (BitVec.ofNat w i)) (hn : n ≤ w) (crc : BitVec w) {x : Nat}
    (hx : x < 2 ^ n) :
    (bits n x).foldl (absorb poly) crc = table.getD ((crc ^^^ BitVec.ofNat w x).toNat % 2 ^ n) 0 ^^^ crc >>> n := by
  have hlen : (bits n x).length = n := by simp [bits]
  rw [foldl_absorb poly crc _ (by omega), hlen, word_bits n x hx, htable _ (Nat.mod_lt _ (Nat.two_pow_pos n))]
  generalize hsum : crc ^^^ BitVec.ofNat w x = a
  have hhigh : crc >>> n = a >>> n := by
    rw [← hsum, BitVec.ushiftRight_xor_distrib]
    have hzero : BitVec.ofNat w x >>> n = 0 := by
      apply BitVec.eq_of_toNat_eq
      rw [BitVec.toNat_ushiftRight, BitVec.toNat_ofNat, Nat.shiftRight_eq_div_pow]
      exact Nat.div_eq_of_lt (Nat.lt_of_le_of_lt (Nat.mod_le _ _) hx)
    rw [hzero]
    simp
  -- The low bits and the high ones, which the division only shifts
  have hsplit : a = BitVec.ofNat w (a.toNat % 2 ^ n) ^^^ (a >>> n) <<< n := by
    apply BitVec.eq_of_getLsbD_eq
    intro k hk
    rw [BitVec.getLsbD_xor, BitVec.getLsbD_ofNat, BitVec.getLsbD_shiftLeft, BitVec.getLsbD_ushiftRight,
      Nat.testBit_mod_two_pow]
    by_cases hkn : k < n
    · simp [hk, hkn, BitVec.testBit_toNat]
    · have hback : n + (k - n) = k := by omega
      simp [hk, hkn, hback]
  have hclear : bitSteps poly n ((a >>> n) <<< n) = a >>> n := by
    rw [bitSteps_clear poly n _ fun k hk => by simp [hk]]
    apply BitVec.eq_of_getLsbD_eq
    intro k hk
    rw [BitVec.getLsbD_ushiftRight, BitVec.getLsbD_shiftLeft, BitVec.getLsbD_ushiftRight]
    by_cases hnk : n + k < w
    · simp [hnk]
    · simp [hnk, BitVec.getLsbD_of_ge a (n + k) (by omega)]
  rw [hhigh]
  calc bitSteps poly n a
      = bitSteps poly n (BitVec.ofNat w (a.toNat % 2 ^ n) ^^^ (a >>> n) <<< n) := by rw [← hsplit]
    _ = bitSteps poly n (BitVec.ofNat w (a.toNat % 2 ^ n)) ^^^ a >>> n := by rw [bitSteps_xor, hclear]

end ReflectedCrc
