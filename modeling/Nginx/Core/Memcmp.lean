import Nginx.Core.Bytes

namespace Nginx

-- memcmp; only the sign of its result is specified.
def memcmp : Bytes → Bytes → Nat → Int
  | c1 :: s1, c2 :: s2, n + 1 => if c1 = c2 then memcmp s1 s2 n else (c1.toNat : Int) - c2.toNat
  | _, _, _ => 0

-- ngx_memn2cmp
def memn2cmp (s1 s2 : Bytes) (n1 n2 : Nat) : Int :=
  let (n, z) := if n1 ≤ n2 then (n1, -1) else (n2, 1)
  let m := memcmp s1 s2 n
  if m ≠ 0 ∨ n1 = n2 then m else z

-- strcmp on the strings up to their NUL; only the sign of its result is specified.
def strcmp : Bytes → Bytes → Int
  | [], s2 => -((s2.headD 0).toNat : Int)
  | c1 :: _, [] => c1.toNat
  | c1 :: s1, c2 :: s2 => if c1 = c2 ∧ c1 ≠ 0 then strcmp s1 s2 else (c1.toNat : Int) - c2.toNat

-- The order of the bytes as unsigned numbers.
def rank (s : Bytes) : List Nat := s.map UInt8.toNat

theorem rank_injective (s t : Bytes) : rank s = rank t ↔ s = t := by
  constructor
  · intro h
    exact List.map_injective_iff.mpr (fun a b hab => UInt8.toNat_inj.mp hab) h
  · rintro rfl
    rfl

theorem memn2cmp_cons (c1 c2 : UInt8) (s1 s2 : Bytes) (n1 n2 : Nat) :
    memn2cmp (c1 :: s1) (c2 :: s2) (n1 + 1) (n2 + 1) =
      if c1 = c2 then memn2cmp s1 s2 n1 n2 else (c1.toNat : Int) - c2.toNat := by
  by_cases hc : c1 = c2
  · by_cases hn : n1 ≤ n2 <;> simp [memn2cmp, memcmp, hc, hn]
  · have hne : (c1.toNat : Int) - c2.toNat ≠ 0 := by
      intro h
      exact hc (UInt8.toNat_inj.mp (by omega))
    by_cases hn : n1 ≤ n2 <;> simp [memn2cmp, memcmp, hc, hn, hne]

-- On whole strings ngx_memn2cmp is the lexicographic comparison.
theorem memn2cmp_neg_iff (s t : Bytes) : memn2cmp s t s.length t.length < 0 ↔ rank s < rank t := by
  induction s generalizing t with
  | nil => cases t <;> simp [memn2cmp, memcmp, rank]
  | cons a s ih =>
      cases t with
      | nil => simp [memn2cmp, memcmp, rank]
      | cons b t =>
          rw [List.length_cons, List.length_cons, memn2cmp_cons, rank, rank, List.map_cons, List.map_cons,
            List.cons_lt_cons_iff]
          by_cases hab : a = b
          · simpa [hab, rank] using ih t
          · have hne : a.toNat ≠ b.toNat := fun h => hab (UInt8.toNat_inj.mp h)
            rw [if_neg hab]
            simp only [hne, false_and, or_false]
            omega

theorem memn2cmp_eq_zero_iff (s t : Bytes) : memn2cmp s t s.length t.length = 0 ↔ s = t := by
  induction s generalizing t with
  | nil => cases t <;> simp [memn2cmp, memcmp]
  | cons a s ih =>
      cases t with
      | nil => simp [memn2cmp, memcmp]
      | cons b t =>
          rw [List.length_cons, List.length_cons, memn2cmp_cons]
          by_cases hab : a = b
          · simpa [hab] using ih t
          · have hne : a.toNat ≠ b.toNat := fun h => hab (UInt8.toNat_inj.mp h)
            rw [if_neg hab]
            simp only [List.cons.injEq, hab, false_and, iff_false]
            omega

end Nginx
