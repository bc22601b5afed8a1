import Mathlib.Data.Nat.Cast.Field
import Mathlib.Tactic.IntervalCases
import PcpModel.Units.Extract
import PcpModel.Pmapi.Header

-- pmConvScale in units.c for integers.
namespace Units

open Pcp
open Interp (IntType)

structure PmUnits where
  dimSpace : Int
  dimTime : Int
  dimCount : Int
  scaleSpace : Nat
  scaleTime : Nat
  scaleCount : Int

structure Ratio where
  mult : Nat
  div : Nat

namespace Ratio

def val (r : Ratio) : ℚ :=
  r.mult / r.div

-- The loops over a dimension.
def raise (r f : Ratio) (dim : Int) : Ratio :=
  if dim > 0 then
    ⟨r.mult * f.mult ^ dim.toNat, r.div * f.div ^ dim.toNat⟩
  else
    ⟨r.mult * f.div ^ (-dim).toNat, r.div * f.mult ^ (-dim).toNat⟩

def reduce (r : Ratio) : Ratio :=
  if r.mult % r.div = 0 then ⟨r.mult / r.div, 1⟩ else r

end Ratio

-- The factors `m` and `d` for the canonical unit, by scale.
def spaceTab : List Ratio :=
  [⟨1, 1048576⟩, ⟨1, 1024⟩, ⟨1, 1⟩, ⟨1024, 1⟩, ⟨1048576, 1⟩, ⟨1073741824, 1⟩, ⟨1099511627776, 1⟩]

def timeTab : List Ratio :=
  [⟨1, 1000000000⟩, ⟨1, 1000000⟩, ⟨1, 1000⟩, ⟨1, 1⟩, ⟨60, 1⟩, ⟨3600, 1⟩]

-- The scales are not looked at without a dimension.
def factors (dim : Int) (tab : List Ratio) (iscale oscale : Nat) : Except Int Ratio :=
  if dim = 0 then
    .ok ⟨1, 1⟩
  else
    match tab[iscale]?, tab[oscale]? with
    | some i, some o => .ok ⟨i.mult * o.div, i.div * o.mult⟩
    | _, _ => .error pmErrUnit

def countFactors (iscale oscale : Int) : Ratio where
  mult := 10 ^ iscale.toNat * 10 ^ (-oscale).toNat
  div := 10 ^ (-iscale).toNat * 10 ^ oscale.toNat

-- `mult` and `div` before they are reduced.
def multDiv (iunit ounit : PmUnits) : Except Int Ratio :=
  if iunit.dimSpace ≠ ounit.dimSpace ∨ iunit.dimTime ≠ ounit.dimTime ∨
      iunit.dimCount ≠ ounit.dimCount then
    .error pmErrConv
  else do
    let f ← factors iunit.dimSpace spaceTab iunit.scaleSpace ounit.scaleSpace
    let g ← factors iunit.dimTime timeTab iunit.scaleTime ounit.scaleTime
    let r := (Ratio.raise ⟨1, 1⟩ f iunit.dimSpace).raise g iunit.dimTime
    let c := countFactors iunit.scaleCount ounit.scaleCount
    return if iunit.dimCount = 0 ∧ iunit.dimSpace = 0 ∧ iunit.dimTime = 0 then c
      else r.raise c iunit.dimCount

-- The value before the division.
def Ratio.scaled (r : Ratio) (n : Int) : Int :=
  n * r.mult + r.div / 2

-- All factors are positive, so that the first products do not overflow if the last ones do not.
def Ratio.Fits (ty : IntType) (n : Int) (r : Ratio) : Prop :=
  let wide := if ty = .u64 then .u64 else IntType.i64
  IntType.i64.Has r.mult ∧ IntType.i64.Has r.div ∧ wide.Has (n * r.reduce.mult) ∧
    wide.Has (r.reduce.scaled n)

instance {r : Ratio} : Decidable (r.Fits ty n) :=
  inferInstanceAs (Decidable (_ ∧ _))

-- The value is undefined if there is an overflow.
def pmConvScale (ty : IntType) (n : Int) (iunit ounit : PmUnits) : Except Int (Option Int) := do
  let r ← multDiv iunit ounit
  return if r.Fits ty n then some (ty.wrap ((r.reduce.scaled n).tdiv r.reduce.div)) else none

structure PmUnits.Compatible (iunit ounit : PmUnits) : Prop where
  dimSpace : iunit.dimSpace = ounit.dimSpace
  dimTime : iunit.dimTime = ounit.dimTime
  dimCount : iunit.dimCount = ounit.dimCount
  scaleSpace : iunit.scaleSpace < 7 ∧ ounit.scaleSpace < 7
  scaleTime : iunit.scaleTime < 6 ∧ ounit.scaleTime < 6

-- In megabytes and in seconds.
def spaceUnit (scale : Nat) : ℚ :=
  1024 ^ (scale - 2 : Int)

def timeUnit (scale : Nat) : ℚ :=
  [1 / 10 ^ 9, 1 / 10 ^ 6, 1 / 10 ^ 3, 1, 60, 3600].getD scale 1

-- A unit without dimensions has the dimension one of the count.
def exactRatio (iunit ounit : PmUnits) : ℚ :=
  (spaceUnit iunit.scaleSpace / spaceUnit ounit.scaleSpace) ^ iunit.dimSpace *
    (timeUnit iunit.scaleTime / timeUnit ounit.scaleTime) ^ iunit.dimTime *
    (10 ^ iunit.scaleCount / 10 ^ ounit.scaleCount) ^
      if iunit.dimCount = 0 ∧ iunit.dimSpace = 0 ∧ iunit.dimTime = 0 then 1 else iunit.dimCount

def nearest (x : ℚ) : Int :=
  ⌊x + 1 / 2⌋

-- Every factor of the units is one or even.
def Fine (n : Nat) : Prop :=
  0 < n ∧ (n = 1 ∨ 2 ∣ n)

theorem Fine.one : Fine 1 :=
  ⟨Nat.one_pos, .inl rfl⟩

theorem Fine.mul (hm : Fine m) (hn : Fine n) : Fine (m * n) := by
  refine ⟨Nat.mul_pos hm.left hn.left, ?_⟩
  obtain rfl | hd := hm.right
  · simpa using hn.right
  · exact .inr (hd.mul_right n)

theorem Fine.pow (hn : Fine n) : ∀ k, Fine (n ^ k)
  | 0 => .one
  | k + 1 => (hn.pow k).mul hn

namespace Ratio

variable {r f : Ratio}

def Pos (r : Ratio) : Prop :=
  0 < r.mult ∧ 0 < r.div

def Fine (r : Ratio) : Prop :=
  Units.Fine r.mult ∧ Units.Fine r.div

theorem Fine.pos (hr : r.Fine) : r.Pos :=
  ⟨hr.left.left, hr.right.left⟩

theorem val_raise (hr : r.Fine) (hf : f.Fine) (dim : Int) :
    (r.raise f dim).Fine ∧ (r.raise f dim).val = r.val * f.val ^ dim := by
  simp only [raise, val] at *
  split
  case isTrue h =>
    obtain ⟨k, rfl⟩ := Int.eq_ofNat_of_zero_le h.le
    refine ⟨⟨hr.left.mul (hf.left.pow _), hr.right.mul (hf.right.pow _)⟩, ?_⟩
    · push_cast
      rw [Int.toNat_natCast, zpow_natCast, div_pow, div_mul_div_comm]
  case isFalse h =>
    obtain ⟨k, hk⟩ := Int.eq_ofNat_of_zero_le (Int.neg_nonneg.mpr (not_lt.mp h))
    obtain rfl : dim = -k := by omega
    refine ⟨⟨hr.left.mul (hf.right.pow _), hr.right.mul (hf.left.pow _)⟩, ?_⟩
    · push_cast
      rw [Int.neg_neg, zpow_neg, zpow_natCast, div_pow, inv_div]
      exact (div_mul_div_comm ..).symm

theorem val_reduce (hr : r.Pos) : r.reduce.Pos ∧ r.reduce.val = r.val := by
  simp only [reduce]
  split
  case isTrue h =>
    have hd := Nat.dvd_of_mod_eq_zero h
    refine ⟨⟨Nat.div_pos (Nat.le_of_dvd hr.left hd) hr.right, Nat.one_pos⟩, ?_⟩
    simp [val, Nat.cast_div hd (Nat.cast_ne_zero.mpr hr.right.ne')]
  case isFalse => exact ⟨hr, rfl⟩

theorem scaled_div (hr : r.Pos) : r.scaled n / r.div = nearest (n * r.val) := by
  have hd : (0 : ℚ) < r.div := Nat.cast_pos.mpr hr.right
  have hl := Int.ediv_mul_le (r.scaled n) (Nat.cast_ne_zero.mpr hr.right.ne')
  have hu := Int.lt_ediv_add_one_mul_self (r.scaled n) (Nat.cast_pos.mpr hr.right)
  generalize r.scaled n / r.div = q at *
  rw [Ratio.scaled] at *
  have hl' : (2 * q * r.div : ℚ) ≤ 2 * (n * r.mult) + r.div := by
    norm_cast
    linarith [Int.mul_ediv_self_le (x := r.div) (k := 2) (by decide)]
  have hu' : (2 * (n * r.mult) + r.div : ℚ) < 2 * (q + 1) * r.div := by
    norm_cast
    have : (r.div : Int) ≤ 2 * (r.div / 2) + 1 := by omega
    linarith
  refine (Int.floor_eq_iff.mpr ⟨?_, ?_⟩).symm
  · rw [val, ← mul_div_assoc, div_add_div _ _ hd.ne' two_ne_zero, le_div_iff₀ (by positivity)]
    linarith
  · rw [val, ← mul_div_assoc, div_add_div _ _ hd.ne' two_ne_zero, div_lt_iff₀ (by positivity)]
    linarith

end Ratio

theorem factors_val {unit : Nat → ℚ} (dim : Int)
    (h : ∀ k r, tab[k]? = some r → r.Fine ∧ r.val = unit k) (hi : tab[i]? = some r)
    (ho : tab[o]? = some r') :
    ∃ f, factors dim tab i o = .ok f ∧ f.Fine ∧ f.val ^ dim = (unit i / unit o) ^ dim := by
  rw [factors, hi, ho]
  split
  case isTrue h => exact ⟨_, rfl, ⟨.one, .one⟩, by simp [h]⟩
  case isFalse =>
    obtain ⟨⟨hm, hd⟩, hv⟩ := h i r hi
    obtain ⟨⟨hm', hd'⟩, hv'⟩ := h o r' ho
    refine ⟨_, rfl, ⟨hm.mul hd', hd.mul hm'⟩, ?_⟩
    rw [← hv, ← hv']
    simp [Ratio.val, div_div_div_eq]

theorem spaceTab_val : ∀ k r, spaceTab[k]? = some r → r.Fine ∧ r.val = spaceUnit k := by
  intro k r h
  have hk : k < 7 := (List.getElem?_eq_some_iff.mp h).1
  interval_cases k <;> cases h <;> norm_num [Ratio.Fine, Fine, Ratio.val, spaceUnit]

theorem timeTab_val : ∀ k r, timeTab[k]? = some r → r.Fine ∧ r.val = timeUnit k := by
  intro k r h
  have hk : k < 6 := (List.getElem?_eq_some_iff.mp h).1
  interval_cases k <;> cases h <;> norm_num [Ratio.Fine, Fine, Ratio.val, timeUnit]

theorem countFactors_val : (countFactors i o).Fine ∧ (countFactors i o).val = 10 ^ i / 10 ^ o := by
  have hz (k : Int) : (10 : ℚ) ^ k = 10 ^ k.toNat / 10 ^ (-k).toNat := by
    rw [← zpow_natCast, ← zpow_natCast, ← zpow_sub₀ (by norm_num)]
    congr 1
    omega
  have h₁₀ : Fine 10 := ⟨by decide, .inr (by decide)⟩
  refine ⟨⟨(h₁₀.pow _).mul (h₁₀.pow _), (h₁₀.pow _).mul (h₁₀.pow _)⟩, ?_⟩
  rw [hz i, hz o, div_div_div_eq]
  simp [countFactors, Ratio.val]

theorem multDiv_val (h : iunit.Compatible ounit) :
    ∃ r, multDiv iunit ounit = .ok r ∧ r.Fine ∧ r.val = exactRatio iunit ounit := by
  obtain ⟨f, hf, hpf, hvf⟩ := factors_val iunit.dimSpace spaceTab_val
    (List.getElem?_eq_getElem h.scaleSpace.left) (List.getElem?_eq_getElem h.scaleSpace.right)
  obtain ⟨g, hg, hpg, hvg⟩ := factors_val iunit.dimTime timeTab_val
    (List.getElem?_eq_getElem h.scaleTime.left) (List.getElem?_eq_getElem h.scaleTime.right)
  have hc := countFactors_val (i := iunit.scaleCount) (o := ounit.scaleCount)
  obtain ⟨hp₁, hv₁⟩ := Ratio.val_raise (r := ⟨1, 1⟩) ⟨.one, .one⟩ hpf iunit.dimSpace
  obtain ⟨hp₂, hv₂⟩ := Ratio.val_raise hp₁ hpg iunit.dimTime
  have hv : (Ratio.mk 1 1).val = 1 := by simp [Ratio.val]
  rw [hv₁, hvf, hvg, hv, one_mul] at hv₂
  have hd : ¬(iunit.dimSpace ≠ ounit.dimSpace ∨ iunit.dimTime ≠ ounit.dimTime ∨
      iunit.dimCount ≠ ounit.dimCount) := by
    simp [h.dimSpace, h.dimTime, h.dimCount]
  rw [multDiv, if_neg hd, hf, hg]
  refine ⟨_, rfl, ?_⟩
  simp only [exactRatio]
  split
  case isTrue hz =>
    refine ⟨hc.left, ?_⟩
    simp [hz, hc.right]
  case isFalse =>
    have ⟨hp₃, hv₃⟩ := Ratio.val_raise hp₂ hc.left iunit.dimCount
    exact ⟨hp₃, by rw [hv₃, hv₂, hc.right]⟩

-- Half of the divisor is exact unless the divisor is one.
theorem Ratio.nearest_iff {r : Ratio} (hr : r.Fine) :
    0 ≤ r.reduce.scaled n ∨ (r.reduce.div : Int) ∣ r.reduce.scaled n ↔
      (∃ k : Int, r.val = k) ∨ -1 / 2 ≤ n * r.val ∨ ∃ k : Int, n * r.val + 1 / 2 = k := by
  have hd : (0 : ℚ) < r.div := Nat.cast_pos.mpr hr.right.left
  simp only [reduce]
  split
  case isTrue h =>
    have hk : r.val = (r.mult / r.div : Nat) :=
      (Nat.cast_div (Nat.dvd_of_mod_eq_zero h) hd.ne').symm
    exact iff_of_true (.inr (by simp)) (.inl ⟨_, mod_cast hk⟩)
  case isFalse h =>
    obtain ⟨d, hd'⟩ := hr.right.right.resolve_left fun h₁ => h (by rw [h₁, Nat.mod_one])
    have hx : n * r.val + 1 / 2 = r.scaled n / r.div := by
      have hh : (r.div : Int) / 2 = d := by omega
      have hc : (r.div : ℚ) = 2 * d := mod_cast hd'
      rw [val, scaled, hh, eq_div_iff hd.ne', add_mul, mul_assoc, div_mul_cancel₀ _ hd.ne', hc]
      push_cast
      ring
    have hn : ¬∃ k : Int, r.val = k := by
      rintro ⟨k, hk⟩
      rw [val, div_eq_iff hd.ne'] at hk
      have hk : (r.mult : Int) = k * r.div := mod_cast hk
      exact h (Nat.mod_eq_zero_of_dvd (Int.natCast_dvd_natCast.mp ⟨k, by rw [hk, mul_comm]⟩))
    have hk (k : Int) : (r.scaled n / r.div : ℚ) = k ↔ r.scaled n = r.div * k := by
      rw [div_eq_iff hd.ne', mul_comm]
      norm_cast
    rw [or_iff_right hn, hx]
    simp only [hk]
    refine or_congr_left ?_
    rw [← Int.cast_nonneg_iff (R := ℚ), ← zero_mul (r.div : ℚ), ← le_div_iff₀ hd, ← hx]
    constructor <;> intro <;> linarith

theorem pmConvScale_nearest (h : iunit.Compatible ounit) (hr : multDiv iunit ounit = .ok r)
    (hf : r.Fits ty n) (hn : ty.Has (nearest (n * exactRatio iunit ounit))) :
    pmConvScale ty n iunit ounit = .ok (some (nearest (n * exactRatio iunit ounit))) ↔
      (∃ k : Int, exactRatio iunit ounit = k) ∨ -1 / 2 ≤ n * exactRatio iunit ounit ∨
        ∃ k : Int, n * exactRatio iunit ounit + 1 / 2 = k := by
  obtain ⟨_, hr', hp, hv⟩ := multDiv_val h
  cases hr.symm.trans hr'
  obtain ⟨hp', hv'⟩ := Ratio.val_reduce hp.pos
  have hi := Ratio.nearest_iff (n := n) hp
  rw [hv] at hi
  have he := Ratio.scaled_div (n := n) hp'
  rw [hv', hv] at he
  rw [← hi]
  have hd : (0 : Int) < r.reduce.div := Nat.cast_pos.mpr hp'.right
  have ht := Int.tdiv_eq_ediv (a := r.reduce.scaled n) (b := r.reduce.div)
  rw [he, Int.sign_eq_one_of_pos hd] at ht
  simp only [pmConvScale, hr, bind, Except.bind, pure, Except.pure, hf, if_true, ht,
    Except.ok.injEq]
  split
  case isTrue hc => simp [hc, IntType.wrap_eq hn]
  case isFalse hc =>
    have hneg : nearest (n * exactRatio iunit ounit) < 0 := by
      rw [← he]
      exact Int.ediv_neg_of_neg_of_pos (not_le.mp (not_or.mp hc).left) hd
    have hw : ty.Has (nearest (n * exactRatio iunit ounit) + 1) := by
      cases ty <;> simp only [IntType.Has, IntType.lo, IntType.width] at * <;> omega
    simp [hc, IntType.wrap_eq hw]

def space (scale : Nat) : PmUnits :=
  ⟨1, 0, 0, scale, 0, 0⟩

theorem pmConvScale_nearest_kbyte :
    pmConvScale .i64 1000000 (space 0) (space 1) =
      .ok (some (nearest ((1000000 : Int) * exactRatio (space 0) (space 1)))) := by
  have h : (space 0).Compatible (space 1) := ⟨rfl, rfl, rfl, by decide, by decide⟩
  exact (pmConvScale_nearest h rfl (by decide) (by decide +kernel)).mpr
    (.inr (.inl (by decide +kernel)))

theorem pmConvScale_not_nearest :
    pmConvScale .i64 (-1000000) (space 0) (space 1) = .ok (some (-976)) ∧
      nearest ((-1000000 : Int) * exactRatio (space 0) (space 1)) = -977 := by
  decide +kernel

end Units
