import Nginx.Http.Geo

namespace Nginx.Geo

open IntervalList

variable {V : Type} {front before passed a : List (Range V)} {r : Range V} {s e n h : ℕ} {v : V}
  {line : Line V} {low low' : Low V}

theorem ushort_of_lt (hn : n < 65536) : ushort n = n := Nat.mod_eq_of_lt hn

-- An array of a block: sorted, apart, and within the block.
structure Block (a : List (Range V)) : Prop where
  sorted : Sorted a
  bounded : ∀ r ∈ a, r.stop < 65536

-- What adding a piece to a block means.
structure Placed (a a' : List (Range V)) (s e : ℕ) (v : V) : Prop where
  block : Block a'
  found : ∀ x, find a' x = if s ≤ x ∧ x ≤ e then some v else find a x

-- One element makes room for the piece.
theorem exchange (mid : List (Range V)) (hblock : Block (front ++ ([r] ++ passed))) (hpassed : ∀ p ∈ passed, e < p.start)
    (he : e < 65536) (hs : r.start ≤ s) (hmid : Sorted mid) (hlow : ∀ b ∈ mid, r.start ≤ b.start)
    (hhigh : ∀ b ∈ mid, b.stop ≤ r.stop ∨ b.stop ≤ e)
    (hfind : ∀ x, find mid x = if s ≤ x ∧ x ≤ e then some v else find [r] x) :
    Placed (front ++ ([r] ++ passed)) (front ++ (mid ++ passed)) s e v := by
  obtain ⟨hsorted, hbounded⟩ := hblock
  obtain ⟨hfront, hrest, hcross⟩ := sorted_append.mp hsorted
  obtain ⟨hr, hpass, hafter⟩ := sorted_append.mp hrest
  have hrpassed : ∀ p ∈ passed, r.stop < p.start := fun p hp => hafter r (by simp) p hp
  have hfrontr : ∀ p ∈ front, p.stop < r.start := fun p hp => hcross p hp r (by simp)
  refine ⟨⟨?_, fun b hb => ?_⟩, find_replace (fun p hp => ?_) hfind⟩
  · refine sorted_append.mpr ⟨hfront, sorted_append.mpr ⟨hmid, hpass, fun b hb p hp => ?_⟩, fun p hp b hb => ?_⟩
    · have := hrpassed p hp
      have := hpassed p hp
      rcases hhigh b hb with h | h <;> omega
    · rcases List.mem_append.mp hb with hb | hb
      · have := hlow b hb
        have := hfrontr p hp
        omega
      · exact hcross p hp b (by simp [hb])
  · rcases List.mem_append.mp hb with hb | hb
    · exact hbounded b (by simp [hb])
    · rcases List.mem_append.mp hb with hb | hb
      · have := hbounded r (by simp)
        rcases hhigh b hb with h | h <;> omega
      · exact hbounded b (by simp [hb])
  · have := hfrontr p hp
    omega

theorem place_spec (hblock : Block (before.reverse ++ passed)) (hpassed : ∀ p ∈ passed, e < p.start)
    (hse : s ≤ e) (he : e < 65536) (hfits : before ++ passed = [] ∨ ∃ r ∈ before, r.start ≤ e)
    (hrun : place v s e before passed = .ok a) : Placed (before.reverse ++ passed) a s e v := by
  have hus : ushort s = s := ushort_of_lt (by omega)
  have hue : ushort e = e := ushort_of_lt he
  induction before generalizing passed with
  | nil =>
      have hnil : passed = [] := by simpa using hfits
      subst hnil
      cases hrun
      rw [hus, hue]
      refine ⟨⟨sorted_cons.mpr ⟨hse, sorted_nil, by simp⟩, ?_⟩, fun x => rfl⟩
      simpa using he
  | cons r before ih =>
      have hlist : (r :: before).reverse ++ passed = before.reverse ++ ([r] ++ passed) := by simp
      rw [hlist] at hblock ⊢
      have hproper : r.start ≤ r.stop := hblock.sorted.proper r (by simp)
      have hrbound : r.stop < 65536 := hblock.bounded r (by simp)
      rw [place] at hrun
      split at hrun
      · rename_i hbefore
        refine ih hblock (fun p hp => ?_) ?_ hrun
        · rcases List.mem_cons.mp hp with rfl | hp
          · exact hbefore
          · exact hpassed p hp
        · have hearly : ∃ q ∈ r :: before, q.start ≤ e := hfits.resolve_left (by simp)
          obtain ⟨q, hq, hqe⟩ := hearly
          rcases List.mem_cons.mp hq with rfl | hq
          · omega
          · exact .inr ⟨q, hq, hqe⟩
      · rename_i hstart
        split at hrun
        · rename_i hafter
          cases hrun
          rw [hus, hue]
          refine exchange [r, ⟨v, s, e⟩] hblock hpassed he (by omega) ?_ ?_ ?_ fun x => ?_
          · exact sorted_cons.mpr ⟨hproper, sorted_cons.mpr ⟨hse, sorted_nil, by simp⟩, by simpa using hafter⟩
          · simp only [List.mem_cons, List.not_mem_nil, or_false, forall_eq_or_imp, forall_eq]
            omega
          · simp
          · simp only [find]
            split_ifs <;> first | rfl | (exfalso; omega)
        · rename_i hover
          split at hrun
          · rename_i hsame
            cases hrun
            refine exchange [{ r with value := v }] hblock hpassed he (by omega) ?_ ?_ ?_ fun x => ?_
            · exact sorted_cons.mpr ⟨hproper, sorted_nil, by simp⟩
            · simp
            · simp
            · simp only [find]
              split_ifs <;> first | rfl | (exfalso; omega)
          · split at hrun
            · rename_i hin
              have hus' : ushort (s - 1) = s - 1 := ushort_of_lt (by omega)
              have hue' : ushort (e + 1) = e + 1 := ushort_of_lt (by omega)
              cases hrun
              rw [hus, hue, hus', hue']
              refine exchange [{ r with stop := s - 1 }, ⟨v, s, e⟩, ⟨r.value, e + 1, r.stop⟩]
                hblock hpassed he (by omega) ?_ ?_ ?_ fun x => ?_
              · refine sorted_cons.mpr ⟨by dsimp only; omega, sorted_cons.mpr ⟨hse,
                  sorted_cons.mpr ⟨by dsimp only; omega, sorted_nil, by simp⟩, by simp⟩, ?_⟩
                simp only [List.mem_cons, List.not_mem_nil, or_false, forall_eq_or_imp, forall_eq]
                omega
              · simp only [List.mem_cons, List.not_mem_nil, or_false, forall_eq_or_imp, forall_eq]
                omega
              · simp only [List.mem_cons, List.not_mem_nil, or_false, forall_eq_or_imp, forall_eq]
                omega
              · simp only [find]
                split_ifs <;> first | rfl | (exfalso; omega)
            · split at hrun
              · rename_i hleft
                have hue' : ushort (e + 1) = e + 1 := ushort_of_lt (by omega)
                cases hrun
                rw [hus, hue, hue']
                refine exchange [⟨v, s, e⟩, { r with start := e + 1 }] hblock hpassed he (by omega)
                  ?_ ?_ ?_ fun x => ?_
                · exact sorted_cons.mpr ⟨hse, sorted_cons.mpr ⟨by dsimp only; omega, sorted_nil, by simp⟩, by simp⟩
                · simp only [List.mem_cons, List.not_mem_nil, or_false, forall_eq_or_imp, forall_eq]
                  omega
                · simp
                · simp only [find]
                  split_ifs <;> first | rfl | (exfalso; omega)
              · split at hrun
                · rename_i hright
                  have hus' : ushort (s - 1) = s - 1 := ushort_of_lt (by omega)
                  cases hrun
                  rw [hus, hue, hus']
                  refine exchange [{ r with stop := s - 1 }, ⟨v, s, e⟩] hblock hpassed he (by omega)
                    ?_ ?_ ?_ fun x => ?_
                  · refine sorted_cons.mpr ⟨by dsimp only; omega, sorted_cons.mpr ⟨hse, sorted_nil, by simp⟩, ?_⟩
                    simp only [List.mem_cons, List.not_mem_nil, or_false, forall_eq]
                    omega
                  · simp only [List.mem_cons, List.not_mem_nil, or_false, forall_eq_or_imp, forall_eq]
                    omega
                  · simp only [List.mem_cons, List.not_mem_nil, or_false, forall_eq_or_imp, forall_eq]
                    omega
                  · simp only [find]
                    split_ifs <;> first | rfl | (exfalso; omega)
                · cases hrun

section Masks

theorem and_low (n : ℕ) : n &&& 0xffff = n % 65536 := Nat.and_two_pow_sub_one_eq_mod n 16

theorem shift_high (n : ℕ) : n >>> 16 = n / 65536 := Nat.shiftRight_eq_div_pow n 16

theorem or_low (n : ℕ) : n ||| 0xffff = n / 65536 * 65536 + 65535 := by
  have hlow : n % 65536 ||| 0xffff = 0xffff := by
    apply Nat.eq_of_testBit_eq
    intro i
    rw [Nat.testBit_or]
    by_cases hi : i < 16
    · have hone : (0xffff : ℕ).testBit i = true := by
        have := Nat.testBit_two_pow_sub_one 16 i
        simpa [hi] using this
      rw [hone, Bool.or_true]
    · have hzero : (n % 65536).testBit i = false := by
        apply Nat.testBit_lt_two_pow
        have hpow : (2 : ℕ) ^ 16 ≤ 2 ^ i := Nat.pow_le_pow_right (by decide) (by omega)
        omega
      rw [hzero, Bool.false_or]
  have hsplit : n = 2 ^ 16 * (n / 65536) ||| n % 65536 := by
    rw [← Nat.two_pow_add_eq_or_of_lt (i := 16) (Nat.mod_lt n (by decide))]
    omega
  calc n ||| 0xffff = (2 ^ 16 * (n / 65536) ||| n % 65536) ||| 0xffff := by rw [← hsplit]
    _ = 2 ^ 16 * (n / 65536) ||| 0xffff := by rw [Nat.or_assoc, hlow]
    _ = n / 65536 * 65536 + 65535 := by
      rw [← Nat.two_pow_add_eq_or_of_lt (i := 16) (by decide)]
      omega

theorem and_high (n : ℕ) (hn : n < 2 ^ 32) : n &&& 0xffff0000 = n / 65536 * 65536 := by
  have hmask : (0xffff0000 : ℕ) = (2 ^ 16 - 1) <<< 16 := by decide
  have hmul : n / 65536 * 65536 = (n >>> 16) <<< 16 := by
    rw [Nat.shiftLeft_eq, shift_high]
  rw [hmask, hmul]
  apply Nat.eq_of_testBit_eq
  intro i
  rw [Nat.testBit_and, Nat.testBit_shiftLeft, Nat.testBit_shiftLeft, Nat.testBit_shiftRight,
    Nat.testBit_two_pow_sub_one]
  by_cases hlow : i < 16
  · have hnot : ¬ i ≥ 16 := by omega
    simp [hnot]
  · by_cases hhigh : i < 32
    · have h1 : i ≥ 16 := by omega
      have h2 : i - 16 < 16 := by omega
      have h3 : 16 + (i - 16) = i := by omega
      simp [h1, h2, h3]
    · have hzero : n.testBit i = false := by
        apply Nat.testBit_lt_two_pow
        have hpow : (2 : ℕ) ^ 32 ≤ 2 ^ i := Nat.pow_le_pow_right (by decide) (by omega)
        omega
      have h3 : 16 + (i - 16) = i := by omega
      simp [hzero, h3]
theorem next_block (n : ℕ) (hn : n < 0xffff0000) :
    (n + 0x10000) % 2 ^ 32 &&& 0xffff0000 = (n / 65536 + 1) * 65536 := by
  have hmod : (n + 0x10000) % 2 ^ 32 = n + 0x10000 := by omega
  rw [hmod, and_high _ (by omega)]
  omega

end Masks

-- Every array of the table is one of a block, and none is empty.
def Table (low : Low V) : Prop := ∀ h a, low h = some a → Block a ∧ a ≠ []

-- The value of an address.
def value (low : Low V) (addr : ℕ) : Option V := find ((low (addr / 65536)).getD []) (addr % 65536)

-- The block in which the line ends holds nothing, or a range that does not start behind the line.
def Fits (low : Low V) (line : Line V) : Prop :=
  ∀ a, low (line.stop / 65536) = some a → ∃ r ∈ a, r.start ≤ line.stop % 65536

theorem value_put (low : Low V) (h : ℕ) (a : List (Range V)) (addr : ℕ) :
    value (put low h a) addr = if addr / 65536 = h then find a (addr % 65536) else value low addr := by
  unfold value put
  by_cases hblock : addr / 65536 = h
  · rw [if_pos hblock, if_pos hblock]
    rfl
  · rw [if_neg hblock, if_neg hblock]

theorem Table.block (ht : Table low) (h : ℕ) : Block ((low h).getD []) := by
  cases hlow : low h with
  | none => exact ⟨sorted_nil, by simp⟩
  | some a => exact (ht h a hlow).1

theorem Table.put (ht : Table low) {a' : List (Range V)} (hse : s ≤ e)
    (hplaced : Placed ((low h).getD []) a' s e v) : Table (put low h a') := by
  intro k a hk
  unfold Geo.put at hk
  split at hk
  · cases hk
    refine ⟨hplaced.block, ?_⟩
    rintro rfl
    have hfound := hplaced.found s
    rw [if_pos ⟨Nat.le_refl s, hse⟩] at hfound
    cases hfound
  · exact ht k a hk

theorem exists_of_find {x : ℕ} (hfind : find a x = some v) : ∃ r ∈ a, r.start ≤ x ∧ x ≤ r.stop := by
  by_contra hno
  have hnone : find a x = none := find_eq_none fun r hr hin => hno ⟨r, hr, hin⟩
  rw [hfind] at hnone
  cases hnone

-- A line that reaches the last block comes round to the first one and is never done.
theorem addRange_wraps (fuel n : ℕ) (hstop : 0xffff0000 ≤ line.stop) (hn : n ≤ line.stop) :
    addRange line fuel low n ≠ some (.ok low') := by
  induction fuel generalizing low n with
  | zero => simp [addRange]
  | succ fuel ih =>
      rw [addRange, if_pos hn]
      dsimp only
      split
      · simp
      · apply ih
        rw [and_high _ (Nat.mod_lt _ (by decide))]
        have := line.bounded
        omega

-- One block: what the piece of a line in it is.
structure Piece (line : Line V) (n h s e : ℕ) : Prop where
  block : h = n / 65536
  first : h * 65536 + s = n
  small : e < 65536
  last : h * 65536 + e = line.stop ∨ e = 65535 ∧ h * 65536 + 65535 < line.stop

theorem piece_spec (hn : n = line.start ∨ n % 65536 = 0 ∧ line.start < n) (hle : n ≤ line.stop) :
    Piece line n (n >>> 16) (if n = line.start then n &&& 0xffff else 0)
      (if line.stop < n ||| 0xffff then line.stop &&& 0xffff else 0xffff) := by
  rw [and_low, and_low, shift_high, or_low]
  refine ⟨rfl, ?_, ?_, ?_⟩
  · split <;> omega
  · split <;> omega
  · split <;> omega

theorem addRange_spec (fuel n : ℕ) (htable : Table low)
    (hn : n = line.start ∨ n % 65536 = 0 ∧ line.start < n) (hfits : Fits low line)
    (hrun : addRange line fuel low n = some (.ok low')) :
    Table low' ∧
      ∀ addr, value low' addr = if n ≤ addr ∧ addr ≤ line.stop then some line.value else value low addr := by
  have hstop : line.stop < 0xffff0000 ∨ line.stop < n := by
    by_contra hno
    exact addRange_wraps fuel n (by omega) (by omega) hrun
  induction fuel generalizing low n with
  | zero => cases hrun
  | succ fuel ih =>
      rw [addRange] at hrun
      split at hrun
      · rename_i hle
        have hpiece := piece_spec hn hle
        dsimp only at hrun
        generalize n >>> 16 = h at hpiece hrun
        generalize (if n = line.start then n &&& 0xffff else 0) = s at hpiece hrun
        generalize (if line.stop < n ||| 0xffff then line.stop &&& 0xffff else 0xffff) = e at hpiece hrun
        obtain ⟨rfl, hfirst, hsmall, hlast⟩ := hpiece
        split at hrun
        · cases hrun
        · rename_i a hplace
          rw [next_block n (by omega)] at hrun
          have hblock := htable.block (n / 65536)
          have hearly : ((low (n / 65536)).getD []).reverse ++ [] = [] ∨
              ∃ r ∈ ((low (n / 65536)).getD []).reverse, r.start ≤ e := by
            cases hlow : low (n / 65536) with
            | none => exact .inl rfl
            | some b =>
                right
                obtain ⟨hb, hne⟩ := htable _ _ hlow
                obtain ⟨r, b', rfl⟩ := List.exists_cons_of_ne_nil hne
                rcases hlast with hend | ⟨hfull, -⟩
                · have hsame : n / 65536 = line.stop / 65536 := by omega
                  obtain ⟨q, hq, hqe⟩ := hfits _ (hsame ▸ hlow)
                  exact ⟨q, List.mem_reverse.mpr hq, by omega⟩
                · have hr1 := hb.sorted.proper r (by simp)
                  have hr2 := hb.bounded r (by simp)
                  exact ⟨r, by simp, by omega⟩
          have hplaced := place_spec (by simpa using hblock) (by simp) (by omega) hsmall hearly hplace
          rw [List.reverse_reverse, List.append_nil] at hplaced
          have hse : s ≤ e := by omega
          have hfits' : Fits (put low (n / 65536) a) line := by
            intro b hb
            unfold put at hb
            split at hb
            · rename_i hsame
              cases hb
              have hfound := hplaced.found e
              rw [if_pos ⟨hse, Nat.le_refl e⟩] at hfound
              obtain ⟨r, hr, hre, -⟩ := exists_of_find hfound
              exact ⟨r, hr, by omega⟩
            · exact hfits b hb
          obtain ⟨htable', hvalue⟩ := ih _ (htable.put hse hplaced) (.inr ⟨by omega, by omega⟩) hfits' hrun (by omega)
          refine ⟨htable', fun addr => ?_⟩
          rw [hvalue, value_put, hplaced.found]
          by_cases hsame : addr / 65536 = n / 65536
          · rw [if_pos hsame, if_neg (by omega)]
            have hold : find ((low (n / 65536)).getD []) (addr % 65536) = value low addr := by
              rw [value, hsame]
            rw [hold]
            by_cases hin : n ≤ addr ∧ addr ≤ line.stop
            · rw [if_pos hin, if_pos (by omega)]
            · rw [if_neg hin, if_neg (by omega)]
          · rw [if_neg hsame]
            by_cases hin : n ≤ addr ∧ addr ≤ line.stop
            · rw [if_pos hin, if_pos (by omega)]
            · rw [if_neg hin, if_neg (by omega)]
      · rename_i hgt
        cases hrun
        refine ⟨htable, fun addr => ?_⟩
        rw [if_neg (by omega)]

end Nginx.Geo
