import Nginx.Http.Fastcgi

namespace Nginx.Fastcgi

-- A record of a stream, with what follows it
def decodeRecord : Bytes → Option ((UInt8 × Bytes) × Bytes)
  | version :: type :: idHi :: idLo :: lenHi :: lenLo :: padding :: _ :: rest =>
      let len := lenHi.toNat * 256 + lenLo.toNat
      if version = 1 ∧ idHi = 0 ∧ idLo = 1 ∧ len + padding.toNat ≤ rest.length then
        some ((type, rest.take len), rest.drop (len + padding.toNat))
      else none
  | _ => none

def decodeRecords : Nat → Bytes → Option (List (UInt8 × Bytes))
  | 0, bs => if bs = [] then some [] else none
  | n + 1, bs =>
      if bs = [] then some []
      else do
        let (r, rest) ← decodeRecord bs
        let rs ← decodeRecords n rest
        return r :: rs

def decodeStream (bs : Bytes) : Option (List (UInt8 × Bytes)) := decodeRecords bs.length bs

-- A length of one byte, or of four with the first bit set
def decodeLen : Bytes → Option (Nat × Bytes)
  | [] => none
  | b :: rest =>
      if b.toNat < 128 then some (b.toNat, rest)
      else
        match rest with
        | b₁ :: b₂ :: b₃ :: rest =>
            some ((((b.toNat - 128) * 256 + b₁.toNat) * 256 + b₂.toNat) * 256 + b₃.toNat, rest)
        | _ => none

def decodePair (bs : Bytes) : Option ((Bytes × Bytes) × Bytes) := do
  let (keyLen, bs) ← decodeLen bs
  let (valLen, bs) ← decodeLen bs
  if keyLen + valLen ≤ bs.length then
    return ((bs.take keyLen, (bs.drop keyLen).take valLen), bs.drop (keyLen + valLen))
  else none

def decodePairs : Nat → Bytes → Option (List (Bytes × Bytes))
  | 0, bs => if bs = [] then some [] else none
  | n + 1, bs =>
      if bs = [] then some []
      else do
        let (pair, rest) ← decodePair bs
        let pairs ← decodePairs n rest
        return pair :: pairs

def decodeParams (bs : Bytes) : Option (List (Bytes × Bytes)) := decodePairs bs.length bs

variable {bs rest : Bytes}

theorem toNat_and_ff (n : Nat) : (UInt8.ofNat (n &&& 0xff)).toNat = n % 256 := by
  have hand : n &&& 0xff = n % 256 := Nat.and_two_pow_sub_one_eq_mod n 8
  rw [hand, UInt8.toNat_ofNat']
  omega

theorem decodeRecord_header (type : UInt8) (content : Bytes) (hcontent : content.length < 2 ^ 16) (padding : Nat)
    (hpadding : padding < 256) (rest : Bytes) :
    decodeRecord (recordHeader type content.length padding ++ (content ++ (List.replicate padding 0 ++ rest))) =
      some ((type, content), rest) := by
  have hhi : (UInt8.ofNat ((content.length >>> 8) &&& 0xff)).toNat = content.length / 256 := by
    rw [toNat_and_ff, Nat.shiftRight_eq_div_pow]
    omega
  have hpad : (UInt8.ofNat padding).toNat = padding := by
    rw [UInt8.toNat_ofNat']
    omega
  have hlen : content.length / 256 * 256 + content.length % 256 = content.length := by omega
  simp only [recordHeader, List.cons_append, List.nil_append, decodeRecord, hhi, toNat_and_ff, hpad, hlen]
  rw [if_pos ⟨trivial, trivial, trivial, by simp⟩, List.take_left]
  have hdrop : List.drop (content.length + padding) (content ++ (List.replicate padding 0 ++ rest)) = rest := by
    rw [← List.drop_drop, List.drop_left, List.drop_left' List.length_replicate]
  rw [hdrop]

theorem decodeRecords_cons {n : Nat} {r : UInt8 × Bytes} {rs : List (UInt8 × Bytes)} (hbs : bs ≠ [])
    (h : decodeRecord bs = some (r, rest)) (hrest : decodeRecords n rest = some rs) :
    decodeRecords (n + 1) bs = some (r :: rs) := by
  rw [decodeRecords, if_neg hbs, h]
  simp [hrest]

theorem decodeRecord_length {r : UInt8 × Bytes} (h : decodeRecord bs = some (r, rest)) : rest.length + 8 ≤ bs.length := by
  unfold decodeRecord at h
  split at h
  · dsimp only at h
    split at h
    · simp only [Option.some.injEq, Prod.mk.injEq] at h
      rw [← h.2]
      simp only [List.length_drop, List.length_cons]
      omega
    · cases h
  · cases h

theorem decodeRecords_fuel {n m : Nat} (hn : bs.length ≤ n) (hm : bs.length ≤ m) :
    decodeRecords n bs = decodeRecords m bs := by
  induction n generalizing m bs with
  | zero =>
      have hbs : bs = [] := List.length_eq_zero_iff.mp (by omega)
      subst hbs
      cases m <;> rfl
  | succ n ih =>
      cases m with
      | zero =>
          have hbs : bs = [] := List.length_eq_zero_iff.mp (by omega)
          subst hbs
          rfl
      | succ m =>
          rw [decodeRecords, decodeRecords]
          split
          · rfl
          · rcases hrecord : decodeRecord bs with _ | ⟨r, rest⟩
            · rfl
            · have hlen := decodeRecord_length hrecord
              have hih := @ih rest m (by omega) (by omega)
              simp only [Option.bind_eq_bind, Option.bind_some, hih]

theorem decodeStream_record (type : UInt8) (content : Bytes) (hcontent : content.length < 2 ^ 16) (padding : Nat)
    (hpadding : padding < 256) {rs : List (UInt8 × Bytes)} (hrest : decodeStream rest = some rs) :
    decodeStream (recordHeader type content.length padding ++ (content ++ (List.replicate padding 0 ++ rest))) =
      some ((type, content) :: rs) := by
  have hlen : (recordHeader type content.length padding ++ (content ++ (List.replicate padding 0 ++ rest))).length =
      (7 + content.length + padding + rest.length) + 1 := by
    simp only [recordHeader, List.length_append, List.length_cons, List.length_nil, List.length_replicate]
    omega
  rw [decodeStream, hlen]
  refine decodeRecords_cons (by simp [recordHeader]) (decodeRecord_header type content hcontent padding hpadding rest) ?_
  rw [← hrest]
  exact decodeRecords_fuel (by omega) (Nat.le_refl _)

theorem decodeLen_writeLen (n : Nat) (hn : n < 2 ^ 31) (rest : Bytes) :
    decodeLen (writeLen n ++ rest) = some (n, rest) := by
  rw [writeLen]
  split
  · have hhi : (UInt8.ofNat ((n / 2 ^ 24 &&& 0x7f) ||| 0x80)).toNat = n / 2 ^ 24 + 128 := by
      have hand : n / 2 ^ 24 &&& 0x7f = n / 2 ^ 24 := by
        have hmod : n / 2 ^ 24 &&& 0x7f = n / 2 ^ 24 % 2 ^ 7 := Nat.and_two_pow_sub_one_eq_mod _ 7
        rw [hmod]
        omega
      have hor : n / 2 ^ 24 ||| 0x80 = n / 2 ^ 24 + 128 := by
        have hadd : 1 <<< 7 + n / 2 ^ 24 = 1 <<< 7 ||| n / 2 ^ 24 := Nat.shiftLeft_add_eq_or_of_lt (by omega) 1
        rw [Nat.or_comm, Nat.add_comm]
        exact hadd.symm
      rw [hand, hor, UInt8.toNat_ofNat']
      omega
    simp only [List.cons_append, List.nil_append, decodeLen, hhi, toNat_and_ff, Nat.shiftRight_eq_div_pow]
    rw [if_neg (by omega)]
    congr 2
    omega
  · have htoNat : (UInt8.ofNat n).toNat = n := by
      rw [UInt8.toNat_ofNat']
      omega
    simp only [List.cons_append, List.nil_append, decodeLen, htoNat]
    rw [if_pos (by omega)]

def lenSize (n : Nat) : Nat := if n > 127 then 4 else 1

theorem writeLen_length (n : Nat) : (writeLen n).length = lenSize n := by
  unfold writeLen lenSize
  split <;> rfl

-- What a name and a value take at least
def pairSize (pair : Bytes × Bytes) : Nat :=
  lenSize pair.1.length + lenSize pair.2.length + pair.1.length + pair.2.length

theorem decodePair_write (key value : Bytes) (hkey : key.length < 2 ^ 31) (hvalue : value.length < 2 ^ 31) (rest : Bytes) :
    decodePair (writeLen key.length ++ (writeLen value.length ++ (key ++ (value ++ rest)))) =
      some ((key, value), rest) := by
  have hdrop : List.drop (key.length + value.length) (key ++ (value ++ rest)) = rest := by
    rw [← List.drop_drop, List.drop_left, List.drop_left]
  rw [decodePair, decodeLen_writeLen _ hkey]
  simp only [Option.bind_eq_bind, Option.bind_some, decodeLen_writeLen _ hvalue]
  rw [if_pos (by simp), List.take_left, List.drop_left, List.take_left, hdrop]
  rfl

theorem decodeLen_length {n : Nat} (h : decodeLen bs = some (n, rest)) : rest.length + lenSize n ≤ bs.length := by
  unfold lenSize
  cases bs with
  | nil => cases h
  | cons b bs =>
      rw [decodeLen.eq_def] at h
      dsimp only at h
      split at h
      · rw [Option.some.injEq, Prod.mk.injEq] at h
        obtain ⟨rfl, rfl⟩ := h
        rw [if_neg (by omega)]
        simp
      · split at h
        · rw [Option.some.injEq, Prod.mk.injEq] at h
          obtain ⟨-, rfl⟩ := h
          simp only [List.length_cons]
          split <;> omega
        · cases h

theorem decodePair_length {pair : Bytes × Bytes} (h : decodePair bs = some (pair, rest)) :
    rest.length + pairSize pair ≤ bs.length ∧ 2 ≤ pairSize pair := by
  simp only [decodePair, Option.bind_eq_bind, Option.bind_eq_some_iff] at h
  obtain ⟨⟨keyLen, bs₁⟩, hkey, ⟨valLen, bs₂⟩, hval, h⟩ := h
  dsimp only at h hval
  split at h
  · cases h
    have hkeyLen := decodeLen_length hkey
    have hvalLen := decodeLen_length hval
    have hone : ∀ n, 1 ≤ lenSize n := by
      intro n
      unfold lenSize
      split <;> omega
    have honeKey := hone keyLen
    have honeVal := hone valLen
    simp only [pairSize, List.length_take, List.length_drop]
    rw [Nat.min_eq_left (by omega), Nat.min_eq_left (by omega)]
    omega
  · cases h

theorem decodePairs_length {n : Nat} {pairs : List (Bytes × Bytes)} (h : decodePairs n bs = some pairs) :
    (pairs.map pairSize).sum ≤ bs.length := by
  induction n generalizing bs pairs with
  | zero =>
      rw [decodePairs] at h
      split at h
      · cases h
        simp
      · cases h
  | succ n ih =>
      rw [decodePairs] at h
      split at h
      · cases h
        simp
      · simp only [Option.bind_eq_bind, Option.bind_eq_some_iff] at h
        obtain ⟨⟨pair, rest⟩, hpair, pairs', hpairs, h⟩ := h
        cases h
        have hfirst := (decodePair_length hpair).1
        have hrest := ih hpairs
        rw [List.map_cons, List.sum_cons]
        dsimp only at hrest ⊢
        omega

theorem decodePairs_fuel {n m : Nat} (hn : bs.length ≤ n) (hm : bs.length ≤ m) :
    decodePairs n bs = decodePairs m bs := by
  induction n generalizing m bs with
  | zero =>
      have hbs : bs = [] := List.length_eq_zero_iff.mp (by omega)
      subst hbs
      cases m <;> rfl
  | succ n ih =>
      cases m with
      | zero =>
          have hbs : bs = [] := List.length_eq_zero_iff.mp (by omega)
          subst hbs
          rfl
      | succ m =>
          rw [decodePairs, decodePairs]
          split
          · rfl
          · rcases hpair : decodePair bs with _ | ⟨pair, rest⟩
            · rfl
            · have hlen := decodePair_length hpair
              have hih := @ih rest m (by omega) (by omega)
              simp only [Option.bind_eq_bind, Option.bind_some, hih]

theorem decodeParams_pair (key value : Bytes) (hkey : key.length < 2 ^ 31) (hvalue : value.length < 2 ^ 31)
    {pairs : List (Bytes × Bytes)} (hrest : decodeParams rest = some pairs) :
    decodeParams (writeLen key.length ++ (writeLen value.length ++ (key ++ (value ++ rest)))) =
      some ((key, value) :: pairs) := by
  have hpair := decodePair_write key value hkey hvalue rest
  obtain ⟨hlen, htwo⟩ := decodePair_length hpair
  obtain ⟨n, hn⟩ := Nat.exists_eq_add_of_le hlen
  rw [decodeParams, hn, show rest.length + pairSize (key, value) + n = (rest.length + (pairSize (key, value) - 1) + n) + 1 by omega,
    decodePairs, if_neg (by
      intro hnil
      rw [hnil, List.length_nil] at hlen
      omega), hpair]
  have hfuel : decodePairs (rest.length + (pairSize (key, value) - 1) + n) rest = decodeParams rest :=
    decodePairs_fuel (by omega) (Nat.le_refl _)
  simp only [Option.bind_eq_bind, Option.bind_some, hfuel, hrest]
  rfl

end Nginx.Fastcgi
