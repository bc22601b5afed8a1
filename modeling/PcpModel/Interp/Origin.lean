import Mathlib.Tactic.Ring
import PcpModel.Pmapi.Header

-- How the origin of a context moves with every interpolated fetch (interp.c).
namespace Interp

open Pcp

-- The bits of c_mode above the mode.
def pmXtbGet (mode : Nat) : Int :=
  if mode / 0x1000000 % 2 = 1 then mode / 0x10000 % 0x100 else -1

def pmXTBdeltaToTimeval (d : Int) (mode : Nat) : Timeval :=
  match pmXtbGet mode with
  | 0 => ⟨0, d.tdiv 1000⟩
  | 1 => ⟨0, d⟩
  | 2 => ⟨d.tdiv 1000, 1000 * d.tmod 1000⟩
  | 3 => ⟨d, 0⟩
  | 4 => ⟨d * 60, 0⟩
  | 5 => ⟨d * 360, 0⟩
  | _ => ⟨d.tdiv 1000, 1000 * d.tmod 1000⟩

def carry (t : Timeval) : Timeval :=
  if t.usec > 1000000 then carry ⟨t.sec + 1, t.usec - 1000000⟩ else t
termination_by t.usec.toNat

def borrow (t : Timeval) : Timeval :=
  if t.usec < 0 then borrow ⟨t.sec - 1, t.usec + 1000000⟩ else t
termination_by (-t.usec).toNat

-- The end of __pmLogFetchInterp, which is reached with or without a result.
def advance (d : Int) (mode : Nat) (origin : Timeval) : Timeval :=
  let delta := pmXTBdeltaToTimeval d mode
  borrow <| carry ⟨origin.sec + delta.sec, origin.usec + delta.usec⟩

-- What delta stands for, in microseconds.
def units (d : Int) (mode : Nat) : Int :=
  match pmXtbGet mode with
  | 0 => d.tdiv 1000
  | 1 => d
  | 2 => d * 1000
  | 3 => d * 1000000
  | 4 => d * 60000000
  | 5 => d * 3600000000
  | _ => d * 1000

section Loops

variable {t : Timeval}

theorem carry_total (t : Timeval) : (carry t).total = t.total := by
  fun_induction carry t
  case case1 t _ ih =>
    rw [ih]
    simp only [Timeval.total]
    omega
  case case2 => rfl

theorem borrow_total (t : Timeval) : (borrow t).total = t.total := by
  fun_induction borrow t
  case case1 t _ ih =>
    rw [ih]
    simp only [Timeval.total]
    omega
  case case2 => rfl

-- The loop stops at the latest with a whole second, and goes on as long as there is more.
theorem carry_usec (h : 0 < t.usec) : 0 < (carry t).usec ∧ (carry t).usec ≤ 1000000 := by
  fun_induction carry t
  case case1 t _ ih => exact ih (by simp only; omega)
  case case2 t hu => exact ⟨h, not_lt.mp hu⟩

theorem borrow_usec (h : t.usec < 1000000) : (borrow t).Normal := by
  fun_induction borrow t
  case case1 t _ ih => exact ih (by simp only; omega)
  case case2 t hu => exact ⟨not_lt.mp hu, h⟩

theorem carry_emod (t : Timeval) : (carry t).usec % 1000000 = t.usec % 1000000 := by
  fun_induction carry t
  case case1 t _ ih =>
    rw [ih]
    simp only
    omega
  case case2 => rfl

-- A whole second is left exactly if the sum is a positive number of them.
theorem normal_borrow_carry :
    (borrow (carry t)).Normal ↔ ¬(0 < t.usec ∧ t.usec % 1000000 = 0) := by
  by_cases h : 0 < t.usec
  case pos =>
    obtain ⟨hl, hu⟩ := carry_usec h
    have hm := carry_emod t
    rw [borrow, if_neg (by omega), Timeval.Normal]
    omega
  case neg =>
    have hn := borrow_usec (show t.usec < 1000000 by omega)
    rw [carry, if_neg (by omega)]
    exact iff_of_true hn fun hc => h hc.left

end Loops

theorem advance_total (d : Int) (mode : Nat) (t : Timeval) :
    (advance d mode t).total = t.total + (pmXTBdeltaToTimeval d mode).total := by
  rw [advance, borrow_total, carry_total]
  simp only [Timeval.total]
  ring

-- An hour is taken for ten times less than it is.
theorem total_delta_iff : (pmXTBdeltaToTimeval d mode).total = units d mode ↔
    (pmXtbGet mode = 5 → d = 0) := by
  have hd := Int.mul_tdiv_add_tmod d 1000
  rw [pmXTBdeltaToTimeval, units]
  split <;> simp_all [Timeval.total] <;> omega

def Exact (d : Int) (mode : Nat) (t : Timeval) : Prop :=
  (pmXtbGet mode = 5 → d = 0) ∧
  ¬(0 < t.usec + (pmXTBdeltaToTimeval d mode).usec ∧
    (t.usec + (pmXTBdeltaToTimeval d mode).usec) % 1000000 = 0)

instance : Decidable (Exact d mode t) :=
  inferInstanceAs (Decidable (_ ∧ _))

theorem advance_iff : (advance d mode t).total = t.total + units d mode ∧
    (advance d mode t).Normal ↔ Exact d mode t := by
  rw [advance_total, add_right_inj, total_delta_iff, Exact, advance, normal_borrow_carry]

-- After any number of fetches, the origin has moved by as many times of delta.
theorem advance_iterate (ht : t.Normal) (n : Nat) :
    (∀ k ≤ n, ((advance d mode)^[k] t).total = t.total + k * units d mode ∧
      ((advance d mode)^[k] t).Normal) ↔
    ∀ k < n, Exact d mode ((advance d mode)^[k] t) := by
  induction n
  case zero => simpa using ht
  case succ n hi =>
    -- With the origin where it should be after `n` fetches, only the next one is to be looked at.
    have hs (hn : ((advance d mode)^[n] t).total = t.total + n * units d mode) :
        ((advance d mode)^[n + 1] t).total = t.total + (n + 1 : Nat) * units d mode ∧
          ((advance d mode)^[n + 1] t).Normal ↔ Exact d mode ((advance d mode)^[n] t) := by
      rw [← advance_iff, Function.iterate_succ_apply', hn, Nat.cast_succ]
      ring_nf
    constructor
    · intro h k hk
      have hlt := hi.mp fun k hk => h k (by omega)
      obtain hk | rfl := Nat.lt_succ_iff_lt_or_eq.mp hk
      · exact hlt k hk
      · exact (hs (h k (by omega)).left).mp (h (k + 1) le_rfl)
    · intro h k hk
      have hle := hi.mpr fun k hk => h k (by omega)
      obtain hk | rfl := Nat.le_succ_iff.mp hk
      · exact hle k hk
      · exact (hs (hle n le_rfl).left).mpr (h n (by omega))

theorem advance_iterate_back :
    Timeval.Normal ⟨5, 999999⟩ ∧ (∀ k < 3, Exact (-700) 0 ((advance (-700) 0)^[k] ⟨5, 999999⟩)) ∧
    ∀ k ≤ 3, ((advance (-700) 0)^[k] ⟨5, 999999⟩).total =
        Timeval.total ⟨5, 999999⟩ + k * units (-700) 0 ∧
      ((advance (-700) 0)^[k] ⟨5, 999999⟩).Normal := by
  have he : ∀ k < 3, Exact (-700) 0 ((advance (-700) 0)^[k] ⟨5, 999999⟩) := by decide +kernel
  exact ⟨by decide, he, (advance_iterate (by decide) 3).mpr he⟩

-- An hour, and half a second that completes a second.
theorem advance_inexact :
    (advance 1 0x1050000 ⟨0, 0⟩).total ≠ Timeval.total ⟨0, 0⟩ + units 1 0x1050000 ∧
    advance 500 0 ⟨0, 500000⟩ = ⟨0, 1000000⟩ := by
  decide +kernel

end Interp
