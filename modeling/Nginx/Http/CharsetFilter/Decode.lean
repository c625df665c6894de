import Nginx.Http.CharsetFilter

namespace Nginx.CharsetFilter

open Printf

-- The continuation bytes are read up to the first that is below 0x80.
theorem utf8Continue_spec (valid len u k : Nat) (rest : Bytes) (h : rest.length = len) :
    ∃ m j, (∀ more, utf8Continue valid len u k (rest ++ more) = some (m, k + j)) ∧ j ≤ len ∧
      (m = invalid ∨ m < (u + 1) * 64 ^ len) ∧
      ∀ i, i ≤ len → (i ≤ j ↔ ∀ b ∈ rest.take (i - 1), 0x80 ≤ b) := by
  induction len generalizing u k rest with
  | zero =>
      refine ⟨if valid < u then u else invalid, 0, fun _ => rfl, Nat.le_refl 0, ?_, ?_⟩
      · split
        · exact Or.inr (by omega)
        · exact Or.inl rfl
      · intro i hi
        rw [Nat.le_zero.mp hi]
        simp
  | succ len ih =>
      cases rest with
      | nil => cases h
      | cons b p =>
          by_cases hb : b < 0x80
          · refine ⟨invalid, 1, ?_, by omega, Or.inl rfl, ?_⟩
            · intro more
              rw [List.cons_append, utf8Continue, if_pos hb]
            · intro i hi
              by_cases hone : i ≤ 1
              · have hzero : i - 1 = 0 := by omega
                rw [hzero]
                simp [hone]
              · obtain ⟨i', rfl⟩ : ∃ i', i = i' + 2 := ⟨i - 2, by omega⟩
                have hlow : ¬0x80 ≤ b := UInt8.not_le.mpr hb
                constructor
                · intro hle
                  omega
                · intro hall
                  exact absurd (hall b (by simp)) hlow
          · have hhigh : 0x80 ≤ b := UInt8.not_lt.mp hb
            obtain ⟨m, j, hcontinue, hj, hm, hlow⟩ :=
              ih (u * 64 + b.toNat % 64) (k + 1) p (by rw [List.length_cons] at h; omega)
            refine ⟨m, j + 1, ?_, by omega, ?_, ?_⟩
            · intro more
              rw [List.cons_append, utf8Continue, if_neg hb, hcontinue more, Nat.add_assoc, Nat.add_comm 1]
            · rcases hm with hm | hm
              · exact Or.inl hm
              · have hstep : u * 64 + b.toNat % 64 + 1 ≤ (u + 1) * 64 := by omega
                have hmul := Nat.mul_le_mul_right (64 ^ len) hstep
                refine Or.inr (Nat.lt_of_lt_of_le hm ?_)
                rw [Nat.pow_succ, Nat.mul_comm (64 ^ len) 64, ← Nat.mul_assoc]
                exact hmul
            · intro i hi
              by_cases hone : i ≤ 1
              · have hzero : i - 1 = 0 := by omega
                rw [hzero]
                simp
                omega
              · obtain ⟨i', rfl⟩ : ∃ i', i = i' + 2 := ⟨i - 2, by omega⟩
                have hrest := hlow (i' + 1) (by omega)
                rw [Nat.add_sub_cancel] at hrest
                have htake : (b :: p).take (i' + 2 - 1) = b :: p.take i' := rfl
                rw [htake, List.forall_mem_cons]
                constructor
                · intro hle
                  exact ⟨hhigh, hrest.mp (by omega)⟩
                · intro hall
                  have hle := hrest.mpr hall.2
                  omega

theorem need_le (c : UInt8) : need c ≤ 3 := by
  unfold need
  split
  · decide
  · split
    · decide
    · split <;> decide

-- Too few bytes behind the first
theorem utf8Decode_short (c : UInt8) (rest : Bytes) (n : Nat) (h0 : n ≠ 0) (h : n - 1 < need c) :
    utf8Decode (c :: rest) n = some (incomplete, 0) := by
  unfold need at h
  unfold utf8Decode
  dsimp only
  split at h
  · rename_i hc
    rw [if_pos hc, if_pos ⟨h0, h⟩]
  · rename_i hc
    rw [if_neg hc]
    split at h
    · rename_i hc'
      rw [if_pos hc', if_pos ⟨h0, h⟩]
    · rename_i hc'
      rw [if_neg hc']
      split at h
      · rename_i hc''
        rw [if_pos hc'', if_pos ⟨h0, h⟩]
      · omega

-- All of the bytes that the first asks for
theorem utf8Decode_window (c : UInt8) (t : Bytes) (h : t.length = need c) :
    ∃ m k, (∀ more n, need c ≤ n - 1 → utf8Decode (c :: t ++ more) n = some (m, k)) ∧ m ≠ incomplete ∧ 1 ≤ k ∧
      k ≤ need c + 1 ∧ ∀ i, 1 ≤ i → i ≤ need c + 1 → (i ≤ k ↔ ∀ b ∈ t.take (i - 2), 0x80 ≤ b) := by
  have hlong : ∀ (u valid : Nat), u < 32 → ∃ m k, (∀ more n, need c ≤ n - 1 →
      (if n ≠ 0 ∧ n - 1 < need c then some (incomplete, 0) else utf8Continue valid (need c) u 1 (t ++ more)) =
        some (m, k)) ∧ m ≠ incomplete ∧ 1 ≤ k ∧ k ≤ need c + 1 ∧
          ∀ i, 1 ≤ i → i ≤ need c + 1 → (i ≤ k ↔ ∀ b ∈ t.take (i - 2), 0x80 ≤ b) := by
    intro u valid hu
    obtain ⟨m, j, hcontinue, hj, hm, hlow⟩ := utf8Continue_spec valid (need c) u 1 t h
    refine ⟨m, 1 + j, ?_, ?_, by omega, by omega, ?_⟩
    · intro more n hn
      rw [if_neg (by omega)]
      exact hcontinue more
    · rcases hm with rfl | hm
      · decide
      · have hpow : 64 ^ need c ≤ 64 ^ 3 := Nat.pow_le_pow_right (by decide) (need_le c)
        have hmul : (u + 1) * 64 ^ need c ≤ 32 * 64 ^ 3 := Nat.mul_le_mul hu hpow
        have hlt : m < 32 * 64 ^ 3 := Nat.lt_of_lt_of_le hm hmul
        unfold incomplete
        omega
    · intro i hone hi
      have hspec := hlow (i - 1) (by omega)
      rw [Nat.sub_sub] at hspec
      rw [← hspec]
      omega
  unfold utf8Decode
  dsimp only [List.cons_append]
  by_cases h3 : c ≥ 0xf0
  · have hneed : need c = 3 := by rw [need, if_pos h3]
    rw [hneed] at hlong ⊢
    simp only [if_pos h3]
    exact hlong _ _ (by omega)
  · by_cases h2 : c ≥ 0xe0
    · have hneed : need c = 2 := by rw [need, if_neg h3, if_pos h2]
      rw [hneed] at hlong ⊢
      simp only [if_neg h3, if_pos h2]
      exact hlong _ _ (by omega)
    · by_cases h1 : c ≥ 0xc2
      · have hneed : need c = 1 := by rw [need, if_neg h3, if_neg h2, if_pos h1]
        rw [hneed] at hlong ⊢
        simp only [if_neg h3, if_neg h2, if_pos h1]
        exact hlong _ _ (by omega)
      · have hneed : need c = 0 := by rw [need, if_neg h3, if_neg h2, if_neg h1]
        simp only [if_neg h3, if_neg h2, if_neg h1]
        refine ⟨invalid, 1, fun _ _ _ => rfl, by decide, by omega, by omega, ?_⟩
        intro i hone hi
        have hi' : i = 1 := by omega
        subst hi'
        simp

-- What is written takes up to NGX_HTML_ENTITY_LEN bytes.
theorem entity_length (n : Nat) (h : n ≤ 0x10ffff) : (entity n).length ≤ entityLen ∧ entity n ≠ [] := by
  have hword : ((BitVec.ofNat 64 n).setWidth 32).toNat = n := by
    rw [BitVec.toNat_setWidth, BitVec.toNat_ofNat]
    omega
  have hlt : n < 10 ^ 20 := by omega
  have hitem : next (ngxString "%uD;") [.word (BitVec.ofNat 64 n)] =
      some (.num false ((BitVec.ofNat 64 n).setWidth 32).toNat 32 0 0, [59], []) := rfl
  have hemit : emit (.num false ((BitVec.ofNat 64 n).setWidth 32).toNat 32 0 0) = some (temp 10 0 int64Len n []) := by
    rw [hword]
    simp [emit]
  have hnumber : Renders (ngxString "%uD;") [.word (BitVec.ofNat 64 n)] (temp 10 0 int64Len n [] ++ [59]) := by
    refine Renders.item hitem hemit ?_
    have htext := (Renders.done []).text [59] (by decide)
    simpa using htext
  have hrender := hnumber.text (ngxString "&#") (by decide)
  have hfmt : ngxString "&#" ++ ngxString "%uD;" = ngxString "&#%uD;" := by decide
  rw [hfmt] at hrender
  have hdigits : (temp 10 0 int64Len n []).length = Nat.log 10 n + 1 + 0 := temp_length 10 0 (by omega) 19 n [] hlt
  have hlog : Nat.log 10 n < 7 := Nat.log_lt_of_lt_pow' (by omega) (by omega)
  have hlen : (ngxString "&#" ++ (temp 10 0 int64Len n [] ++ [59])).length ≤ 10 := by
    have htwo : (ngxString "&#").length = 2 := ngxString_length _
    rw [List.length_append, List.length_append, htwo, hdigits, List.length_singleton]
    omega
  have hall : entity n = ngxString "&#" ++ (temp 10 0 int64Len n [] ++ [59]) := by
    rw [entity, sprintf, vslprintf_eq_take hrender, Option.getD_some, List.take_of_length_le (by omega)]
  rw [hall]
  exact ⟨hlen, by simp [ngxString]⟩

theorem symbol_length (table : Table) (n : Nat) : (symbol table n).length ≤ entityLen ∧ symbol table n ≠ [] := by
  unfold symbol
  split
  · split
    · exact ⟨by simp [entityLen], by simp⟩
    · exact entity_length n (by omega)
  · split
    · exact ⟨by decide, by simp⟩
    · exact entity_length n (by omega)

end Nginx.CharsetFilter
