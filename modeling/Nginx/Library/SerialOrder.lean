import Mathlib

-- Numbers on a circle of 2 * h places, compared by their signed difference.
namespace SerialOrder

def diff (h : Nat) (x y : Int) : Int := (x - y).bmod (2 * h)

-- The distance from b forward to x.
def offset (h : Nat) (b x : Int) : Int := (x - b) % (2 * h : Nat)

-- x lies in the half of the circle that begins at b.
def Within (h : Nat) (b x : Int) : Prop := offset h b x < h

variable {h : Nat} {b x y z : Int}

theorem offset_nonneg (hh : 0 < h) (b x : Int) : 0 ≤ offset h b x := Int.emod_nonneg _ (by omega)

-- Inside a half of the circle the signed difference is the one of the distances.
theorem diff_eq (hh : 0 < h) (hx : Within h b x) (hy : Within h b y) :
    diff h x y = offset h b x - offset h b y := by
  have hsplit : ∀ v, v - b = offset h b v + (2 * h : Nat) * ((v - b) / (2 * h : Nat)) := by
    intro v
    rw [offset, Int.emod_add_mul_ediv]
  have hdiff : x - y = offset h b x - offset h b y +
      (2 * h : Nat) * ((x - b) / (2 * h : Nat) - (y - b) / (2 * h : Nat)) := by
    have h₁ := hsplit x
    have h₂ := hsplit y
    rw [Int.mul_sub]
    omega
  have hx₀ := offset_nonneg hh b x
  have hy₀ := offset_nonneg hh b y
  unfold Within at hx hy
  rw [diff, hdiff, Int.add_mul_bmod_self_left]
  apply Int.bmod_eq_of_le_mul_two <;> push_cast <;> omega

theorem diff_self (x : Int) : diff h x x = 0 := by simp [diff]

theorem diff_trans (hh : 0 < h) (hx : Within h b x) (hy : Within h b y) (hz : Within h b z) :
    diff h x z = diff h x y + diff h y z := by
  rw [diff_eq hh hx hz, diff_eq hh hx hy, diff_eq hh hy hz]
  omega

theorem diff_comm (hh : 0 < h) (hx : Within h b x) (hy : Within h b y) : diff h x y = -diff h y x := by
  rw [diff_eq hh hx hy, diff_eq hh hy hx]
  omega

end SerialOrder
