import Mathlib.Data.Int.Log
import Mathlib.Data.Rat.Floor
import Mathlib.Tactic.Linarith

-- Doubles as rationals with 53 significant bits. The exponents are not bounded.
namespace Double

-- The nearest integer, or the even one of two.
def nearest (x : ℚ) : Int :=
  let n := ⌊x⌋
  if x - n < 1 / 2 ∨ (x - n = 1 / 2 ∧ n % 2 = 0) then n else n + 1

def ulp (x : ℚ) : ℚ :=
  2 ^ (Int.log 2 |x| - 52)

def rnd (x : ℚ) : ℚ :=
  nearest (x / ulp x) * ulp x

theorem nearest_mono (h : x ≤ y) : nearest x ≤ nearest y := by
  have hn := Int.floor_le_floor h
  simp only [nearest]
  obtain hn | hn := hn.lt_or_eq
  · split <;> split <;> omega
  · rw [hn]
    split
    · split <;> omega
    case isFalse hx =>
      rw [if_neg]
      rintro (hy | hy)
      · exact hx (.inl (by linarith))
      · obtain he | hl := h.eq_or_lt
        · exact hx (.inr (he ▸ hy))
        · exact hx (.inl (by linarith))

theorem nearest_intCast (n : Int) : nearest n = n := by
  simp [nearest]

theorem nearest_two_pow (k : Nat) : (nearest (2 ^ k) : ℚ) = 2 ^ k := by
  exact_mod_cast congrArg (Int.cast (R := ℚ)) (nearest_intCast (2 ^ k))

theorem ulp_pos : 0 < ulp x :=
  zpow_pos (by norm_num) _

theorem ulp_mul (h : 0 < x) : 2 ^ 52 * ulp x = 2 ^ Int.log 2 x := by
  rw [ulp, abs_of_pos h, ← zpow_natCast, ← zpow_add₀ (by norm_num)]
  simp

theorem two_pow_mul (h : 0 < x) : 2 ^ 53 * ulp x = 2 ^ (Int.log 2 x + 1) := by
  rw [pow_succ', mul_assoc, ulp_mul h, mul_comm, zpow_add_one₀ two_ne_zero]

theorem rnd_le (h : x / ulp x ≤ y) : rnd x ≤ nearest y * ulp x :=
  mul_le_mul_of_nonneg_right (Int.cast_le.mpr (nearest_mono h)) ulp_pos.le

theorem le_rnd (h : y ≤ x / ulp x) : nearest y * ulp x ≤ rnd x :=
  mul_le_mul_of_nonneg_right (Int.cast_le.mpr (nearest_mono h)) ulp_pos.le

theorem rnd_nonneg (h : 0 ≤ x) : 0 ≤ rnd x := by
  simpa [nearest] using le_rnd (div_nonneg h ulp_pos.le)

-- Numbers with different exponents are kept apart by a power of two.
theorem rnd_mono (h₀ : 0 ≤ x) (h : x ≤ y) : rnd x ≤ rnd y := by
  obtain rfl | hx := h₀.eq_or_lt
  · simpa [rnd, nearest] using rnd_nonneg h
  have hy := hx.trans_le h
  obtain he | he := (Int.log_mono_right (b := 2) hx h).eq_or_lt
  · have hu : ulp x = ulp y := by rw [ulp, ulp, abs_of_pos hx, abs_of_pos hy, he]
    rw [rnd, rnd, hu]
    exact le_rnd (div_le_div_of_nonneg_right h ulp_pos.le)
  · have hl : x / ulp x ≤ 2 ^ 53 := by
      rw [div_le_iff₀ ulp_pos, two_pow_mul hx]
      exact (Int.lt_zpow_succ_log_self (b := 2) (by norm_num) x).le
    have hg : 2 ^ 52 ≤ y / ulp y := by
      rw [le_div_iff₀ ulp_pos, ulp_mul hy]
      exact Int.zpow_log_le_self (b := 2) (by norm_num) hy
    calc rnd x ≤ 2 ^ 53 * ulp x := nearest_two_pow 53 ▸ rnd_le hl
      _ = 2 ^ (Int.log 2 x + 1) := two_pow_mul hx
      _ ≤ 2 ^ Int.log 2 y := zpow_le_zpow_right₀ (by norm_num) (by omega)
      _ = 2 ^ 52 * ulp y := (ulp_mul hy).symm
      _ ≤ rnd y := nearest_two_pow 52 ▸ le_rnd hg

end Double
