import Mathlib

-- A rate limiter that keeps one bucket for a source of arrivals.
namespace LeakyBucket

structure Bucket where
  level : Nat
  last : Nat

-- In a time dt the bucket loses rate * dt / unit. An arrival adds cost, and it is admitted when the
-- level stays within the burst. A bucket unused for the horizon may be forgotten.
structure Law where
  rate : Nat
  unit : Nat
  cost : Nat
  burst : Nat
  horizon : Nat

def Law.drained (law : Law) (dt : Nat) : Nat := law.rate * dt / law.unit

inductive Kept (law : Law) (now : Nat) : Option Bucket → Option Bucket → Prop
  | same (b : Option Bucket) : Kept law now b b
  | forgotten (x : Bucket) : x.last + law.horizon ≤ now → Kept law now (some x) none

inductive Filled (law : Law) (now : Nat) : Option Bucket → Bucket → Prop
  | fresh : Filled law now none ⟨0, now⟩
  | more (x : Bucket) (level : Nat) : x.level + law.cost ≤ level + law.drained (now - x.last) →
      level ≤ law.burst → Filled law now (some x) ⟨level, now⟩

-- One moment: the flag tells whether an arrival was admitted.
inductive Step (law : Law) (now : Nat) : Bool → Option Bucket → Option Bucket → Prop
  | idle {b b' : Option Bucket} : Kept law now b b' → Step law now false b b'
  | admitted {b b' : Option Bucket} {x : Bucket} : Kept law now b b' → Filled law now b' x →
      Step law now true b (some x)

inductive Run (law : Law) : Nat → Option Bucket → List (Nat × Bool) → Prop
  | nil (t : Nat) (b : Option Bucket) : Run law t b []
  | cons {t now : Nat} {b b' : Option Bucket} (adm : Bool) (l : List (Nat × Bool)) : t ≤ now → Step law now adm b b' → Run law now b' l →
      Run law t b ((now, adm) :: l)

def InWindow (t₀ T t : Nat) : Prop := t₀ ≤ t ∧ t ≤ t₀ + T

instance (t₀ T t : Nat) : Decidable (InWindow t₀ T t) := inferInstanceAs (Decidable (_ ∧ _))

def admitted (t₀ T : Nat) (l : List (Nat × Bool)) : Nat := l.countP fun e => e.2 && InWindow t₀ T e.1

variable {law : Law} {now t t₀ T k c : Nat} {b b' : Option Bucket} {x : Bucket} {adm : Bool}
  {l : List (Nat × Bool)}

theorem drained_add_le (law : Law) (m n : Nat) :
    law.drained m + law.drained n ≤ law.drained (m + n) := by
  unfold Law.drained
  rw [Nat.mul_add]
  exact Nat.div_add_div_le_add_div

theorem drained_mono (law : Law) {m n : Nat} (h : m ≤ n) : law.drained m ≤ law.drained n :=
  Nat.div_le_div_right (Nat.mul_le_mul_left _ h)

-- After k + 1 arrivals admitted since t₀ the bucket still accounts for k of them.
def Credit (law : Law) (t₀ T k : Nat) (b : Option Bucket) : Prop :=
  ∃ x, b = some x ∧ InWindow t₀ T x.last ∧ x.level ≤ law.burst ∧
    law.cost * k ≤ x.level + law.drained (x.last - t₀)

theorem Credit.bound (hcost : 0 < law.cost) (h : Credit law t₀ T k b) :
    k ≤ (law.burst + law.drained T) / law.cost := by
  obtain ⟨x, -, ⟨-, hlast⟩, hlevel, hk⟩ := h
  rw [Nat.le_div_iff_mul_le hcost, Nat.mul_comm]
  have hmono := drained_mono law (m := x.last - t₀) (n := T) (by omega)
  omega

-- Inside the window the bucket is not forgotten.
theorem Credit.kept (hT : T < law.horizon) (hnow : now ≤ t₀ + T) (h : Credit law t₀ T k b)
    (hk : Kept law now b b') : b' = b := by
  obtain ⟨x, rfl, ⟨hlast, -⟩, -, -⟩ := h
  cases hk with
  | same => rfl
  | forgotten _ hold => omega

theorem Credit.filled (hnow : InWindow t₀ T now) (hlast : ∀ y, b = some y → y.last ≤ now)
    (h : Credit law t₀ T k b) (hf : Filled law now b x) : Credit law t₀ T (k + 1) (some x) := by
  obtain ⟨y, rfl, ⟨hy, -⟩, -, hk⟩ := h
  have hle := hlast y rfl
  cases hf with
  | more _ level hlevel hburst =>
      refine ⟨⟨level, now⟩, rfl, hnow, hburst, ?_⟩
      have hsum := drained_add_le law (now - y.last) (y.last - t₀)
      have heq : now - y.last + (y.last - t₀) = now - t₀ := by omega
      rw [heq] at hsum
      rw [Nat.mul_succ]
      show law.cost * k + law.cost ≤ level + law.drained (now - t₀)
      omega

theorem credit_zero (hnow : InWindow t₀ T now) (hf : Filled law now b x) :
    Credit law t₀ T 0 (some x) := by
  cases hf with
  | fresh => exact ⟨_, rfl, hnow, Nat.zero_le _, Nat.zero_le _⟩
  | more y level _ hburst => exact ⟨_, rfl, hnow, hburst, Nat.zero_le _⟩

theorem admitted_late (h : Run law t b l) (ht : t₀ + T < t) : admitted t₀ T l = 0 := by
  induction h with
  | nil => rfl
  | cons adm l hle _ _ ih =>
      have hnot : ¬ InWindow t₀ T _ := fun hin => absurd hin.2 (Nat.not_le.mpr (Nat.lt_of_lt_of_le ht hle))
      rw [admitted, List.countP_cons, ← admitted, ih (by omega)]
      simp [hnot]

theorem Step.last_le (hlast : ∀ y, b = some y → y.last ≤ now) (h : Step law now adm b b') :
    ∀ y, b' = some y → y.last ≤ now := by
  rintro y rfl
  cases h with
  | idle hk =>
      cases hk with
      | same => exact hlast y rfl
  | admitted _ hf =>
      cases hf with
      | fresh => exact Nat.le_refl _
      | more => exact Nat.le_refl _

-- c counts the arrivals admitted so far.
def Counted (law : Law) (t₀ T c : Nat) (b : Option Bucket) : Prop :=
  c = 0 ∨ ∃ k, c = k + 1 ∧ Credit law t₀ T k b

theorem Counted.bound (hcost : 0 < law.cost) (h : Counted law t₀ T c b) :
    c ≤ 1 + (law.burst + law.drained T) / law.cost := by
  rcases h with rfl | ⟨k, rfl, hk⟩
  · exact Nat.zero_le _
  · have hle := hk.bound hcost
    omega

theorem Counted.step (hT : T < law.horizon) (hnow : now ≤ t₀ + T)
    (hlast : ∀ y, b = some y → y.last ≤ now) (h : Counted law t₀ T c b) (hs : Step law now adm b b') :
    Counted law t₀ T (c + if adm && InWindow t₀ T now then 1 else 0) b' := by
  cases hs with
  | idle hk =>
      rcases h with rfl | ⟨k, rfl, hcredit⟩
      · exact .inl rfl
      · exact .inr ⟨k, rfl, hcredit.kept hT hnow hk ▸ hcredit⟩
  | admitted hk hf =>
      by_cases hin : InWindow t₀ T now
      · rw [if_pos (by simpa using hin)]
        rcases h with rfl | ⟨k, rfl, hcredit⟩
        · exact .inr ⟨0, rfl, credit_zero hin hf⟩
        · obtain rfl := hcredit.kept hT hnow hk
          exact .inr ⟨k + 1, rfl, hcredit.filled hin hlast hf⟩
      · -- before the window nothing has been counted
        rw [if_neg (by simpa using hin)]
        rcases h with rfl | ⟨k, rfl, y, rfl, hy, -⟩
        · exact .inl rfl
        · have hle := hlast y rfl
          exact absurd ⟨Nat.le_trans hy.1 hle, hnow⟩ hin

theorem Run.counted (hcost : 0 < law.cost) (hT : T < law.horizon) (h : Run law t b l)
    (hlast : ∀ y, b = some y → y.last ≤ t) (hc : Counted law t₀ T c b) :
    c + admitted t₀ T l ≤ 1 + (law.burst + law.drained T) / law.cost := by
  induction h generalizing c with
  | nil t b => exact hc.bound hcost
  | @cons t now b b' adm l hle hs hrest ih =>
      have hlast' : ∀ y, b = some y → y.last ≤ now := fun y hy => Nat.le_trans (hlast y hy) hle
      by_cases hnow : now ≤ t₀ + T
      · have hnext := ih (hs.last_le hlast') (hc.step hT hnow hlast' hs)
        rw [admitted, List.countP_cons, ← admitted]
        rwa [Nat.add_assoc, Nat.add_comm _ (admitted t₀ T l)] at hnext
      · have hlate : admitted t₀ T ((now, adm) :: l) = 0 :=
          admitted_late (.cons adm l (Nat.le_refl now) hs hrest) (by omega)
        rw [hlate]
        exact hc.bound hcost

-- No window shorter than the horizon admits more than the burst and what drains in it.
theorem admitted_le (hcost : 0 < law.cost) (hT : T < law.horizon) (h : Run law t none l) (t₀ : Nat) :
    admitted t₀ T l ≤ 1 + (law.burst + law.drained T) / law.cost := by
  have hnone : Counted law t₀ T 0 none := .inl rfl
  have hbound := h.counted hcost hT (by simp) hnone
  simpa using hbound

end LeakyBucket
