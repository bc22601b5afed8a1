import Mathlib.Data.Rat.Floor

-- The values of counters between two bounds (interp.c), where doubles are exact.
namespace Interp

-- A double loses its fraction when it is converted to an integer.
def trunc (x : ℚ) : Int :=
  if 0 ≤ x then ⌊x⌋ else ⌈x⌉

inductive IntType
  | i32
  | u32
  | i64
  | u64
  deriving DecidableEq

namespace IntType

def width : IntType → Nat
  | i32 | u32 => 32
  | i64 | u64 => 64

def lo : IntType → Int
  | i32 => -2 ^ 31
  | i64 => -2 ^ 63
  | _ => 0

def Has (ty : IntType) (n : Int) : Prop :=
  ty.lo ≤ n ∧ n < ty.lo + 2 ^ ty.width

instance {ty : IntType} : Decidable (ty.Has n) :=
  inferInstanceAs (Decidable (_ ∧ _))

def wrap (ty : IntType) (n : Int) : Int :=
  ty.lo + (n - ty.lo) % 2 ^ ty.width

-- The result is undefined if the type does not have the value.
def conv (ty : IntType) (x : ℚ) : Option Int :=
  if ty.Has (trunc x) then some (trunc x) else none

-- A difference of signed integers is undefined if the type does not have it.
def sub (ty : IntType) (a b : Int) : Option Int :=
  if ty.Has (a - b) then some (a - b) else none

end IntType

structure Span where
  prior : ℚ
  req : ℚ
  next : ℚ

def Span.part (t : Span) (d : ℚ) : ℚ :=
  (t.req - t.prior) * d / (t.next - t.prior)

section Values

open IntType

variable (dowrap : Bool) (t : Span) (prior next : Int)

-- With wrap, the lower bound is added to what is in the slot behind.
def counter32 : Option Int :=
  if next ≥ prior ∨ !dowrap then do
    i32.conv (1 / 2 + prior + t.part (← i32.sub next prior))
  else
    i32.conv (1 / 2 + t.part (i32.wrap (2 ^ 32 - 1 - prior + 1 + next)))

def counterU32 : Option Int :=
  if next ≥ prior then
    u32.conv (1 / 2 + prior + t.part (next - prior))
  else if dowrap then
    (u32.conv (1 / 2 + t.part (u32.wrap (2 ^ 32 - 1 - prior + 1 + next)))).map
      fun v => u32.wrap (v + prior)
  else
    u32.conv (1 / 2 + prior - t.part (prior - next))

def counter64 : Option Int := do
  let d ←
    if next ≥ prior ∨ !dowrap then i64.sub next prior
    else some (i64.wrap (2 ^ 64 - 1 - prior + 1 + next))
  i64.conv (1 / 2 + prior + t.part d)

-- The bounds are kept in variables that are signed. HAVE_CAST_U64_DOUBLE is assumed.
def counterU64 : Option Int :=
  let prior := i64.wrap prior
  let next := i64.wrap next
  if next ≥ prior then do
    u64.conv (1 / 2 + prior + t.part (u64.wrap (← i64.sub next prior)))
  else if dowrap then
    u64.conv (1 / 2 + prior + t.part (u64.wrap (2 ^ 64 - 1 - prior + 1 + next)))
  else do
    u64.conv (1 / 2 + prior - t.part (← i64.sub prior next))

def counter : IntType → Option Int
  | i32 => counter32 dowrap t prior next
  | u32 => counterU32 dowrap t prior next
  | i64 => counter64 dowrap t prior next
  | u64 => counterU64 dowrap t prior next

end Values

section Trunc

variable {x y : ℚ}

theorem trunc_of_nonneg (h : 0 ≤ x) : trunc x = ⌊x⌋ :=
  if_pos h

theorem trunc_of_neg (h : x < 0) : trunc x = ⌈x⌉ :=
  if_neg (not_le.mpr h)

theorem floor_le_trunc (x : ℚ) : ⌊x⌋ ≤ trunc x := by
  rw [trunc]
  split
  · exact le_rfl
  · exact Int.floor_le_ceil x

theorem trunc_le_trunc (h : x ≤ y) : trunc x ≤ trunc y := by
  by_cases hx : 0 ≤ x
  case pos =>
    rw [trunc_of_nonneg hx, trunc_of_nonneg (hx.trans h)]
    exact Int.floor_mono h
  case neg =>
    rw [trunc_of_neg (not_le.mp hx), trunc]
    split
    case isTrue hy => exact (Int.ceil_nonpos.mpr (not_le.mp hx).le).trans (Int.floor_nonneg.mpr hy)
    case isFalse hy => exact Int.ceil_mono h

theorem le_trunc_half {n : Int} (h : n ≤ x) : n ≤ trunc (1 / 2 + x) := by
  refine le_trans (Int.le_floor.mpr ?_) (floor_le_trunc _)
  linarith

-- Below zero, the conversion may go up to the integer above.
theorem trunc_half_le {n : Int} (h : x ≤ n) (hn : 0 ≤ n ∨ 1 / 2 + x ≤ n) :
    trunc (1 / 2 + x) ≤ n := by
  by_cases hx : 0 ≤ 1 / 2 + x
  case pos =>
    rw [trunc_of_nonneg hx, ← Int.lt_add_one_iff, Int.floor_lt]
    push_cast
    linarith
  case neg =>
    rw [trunc_of_neg (not_le.mp hx), Int.ceil_le]
    obtain hn | hn := hn
    · exact (not_le.mp hx).le.trans (by exact_mod_cast hn)
    · exact hn

-- An integer may be added before or after the conversion, as long as the sum is not negative.
theorem trunc_int_add (hx : 0 ≤ x) (h : 0 ≤ n + trunc x) :
    trunc (n + x) = n + trunc x := by
  rw [trunc_of_nonneg hx, ← Int.floor_intCast_add] at *
  exact trunc_of_nonneg (Int.floor_nonneg.mp h)

end Trunc

namespace Span

structure Inside (t : Span) : Prop where
  left : t.prior < t.req
  right : t.req < t.next

variable {t : Span}

theorem part_nonneg (ht : t.Inside) (hd : 0 ≤ d) : 0 ≤ t.part d :=
  div_nonneg (mul_nonneg (sub_nonneg.mpr ht.left.le) hd)
    (sub_nonneg.mpr (ht.left.trans ht.right).le)

theorem part_le (ht : t.Inside) (hd : 0 ≤ d) : t.part d ≤ d := by
  have hn : 0 < t.next - t.prior := sub_pos.mpr (ht.left.trans ht.right)
  rw [part, div_le_iff₀ hn, mul_comm]
  exact mul_le_mul_of_nonneg_left (sub_le_sub_right ht.right.le _) hd

theorem part_mono (ht : t.Inside) (hd : 0 ≤ d) (hr : t.req ≤ r) :
    t.part d ≤ { t with req := r }.part d := by
  have hn : 0 ≤ t.next - t.prior := sub_nonneg.mpr (ht.left.trans ht.right).le
  exact div_le_div_of_nonneg_right (mul_le_mul_of_nonneg_right (sub_le_sub_right hr _) hd) hn

end Span

namespace IntType

variable {ty : IntType}

theorem conv_eq (h : ty.Has (trunc x)) : ty.conv x = some (trunc x) :=
  if_pos h

theorem sub_eq (h : ty.Has (a - b)) : ty.sub a b = some (a - b) :=
  if_pos h

theorem wrap_eq (h : ty.Has n) : ty.wrap n = n := by
  have ⟨hl, hu⟩ := h
  rw [wrap, Int.emod_eq_of_lt (by omega) (by omega)]
  omega

theorem wrap_of_lt (hn : u64.Has n) (h : n < 2 ^ 63) : i64.wrap n = n := by
  simp only [Has, wrap, lo, width] at *
  omega

theorem wrap_of_ge (hn : u64.Has n) (h : 2 ^ 63 ≤ n) : i64.wrap n = n - 2 ^ 64 := by
  simp only [Has, wrap, lo, width] at *
  omega

theorem Has.between (hl : ty.Has a) (hu : ty.Has b) (ha : a ≤ n) (hb : n ≤ b) : ty.Has n :=
  ⟨hl.left.trans ha, hb.trans_lt hu.right⟩

end IntType

def line (t : Span) (prior next : Int) : ℚ :=
  prior + t.part (next - prior)

-- What is needed for bounds that do not decrease.
def Sound (dowrap : Bool) (t : Span) (prior next : Int) : IntType → Prop
  | .u32 => True
  | .i32 => next - prior < 2 ^ 31 ∧ (0 ≤ next ∨ 1 / 2 + line t prior next ≤ next)
  | .i64 => next - prior < 2 ^ 63 ∧ (0 ≤ next ∨ 1 / 2 + line t prior next ≤ next)
  | .u64 => next < 2 ^ 63 ∨ prior < 2 ^ 63 ∧ dowrap

instance : DecidablePred (Sound dowrap t prior next)
  | .u32 => .isTrue trivial
  | .i32 | .i64 => inferInstanceAs (Decidable (_ ∧ _))
  | .u64 => inferInstanceAs (Decidable (_ ∨ _))

section Increasing

open IntType

variable {t : Span} {ty : IntType}

theorem line_bounds (ht : t.Inside) (h : prior ≤ next) :
    prior ≤ line t prior next ∧ line t prior next ≤ next := by
  have hd : (0 : ℚ) ≤ next - prior := sub_nonneg.mpr (Int.cast_le.mpr h)
  have h₀ := Span.part_nonneg ht hd
  have h₁ := Span.part_le ht hd
  constructor <;> rw [line] <;> linarith

theorem conv_line (ht : t.Inside) (hp : ty.Has prior) (hn : ty.Has next) (h : prior ≤ next)
    (hs : 0 ≤ next ∨ 1 / 2 + line t prior next ≤ next) :
    ty.conv (1 / 2 + prior + t.part (next - prior)) = some (trunc (1 / 2 + line t prior next)) := by
  obtain ⟨hl, hu⟩ := line_bounds ht h
  have hl := le_trunc_half hl
  have hu := trunc_half_le hu hs
  rw [add_assoc]
  exact conv_eq (hp.between hn hl hu)

theorem counter_eq (ht : t.Inside) (hp : ty.Has prior) (hn : ty.Has next) (h : prior ≤ next)
    (hs : Sound dowrap t prior next ty) :
    counter dowrap t prior next ty = some (trunc (1 / 2 + line t prior next)) := by
  cases ty
  case i32 =>
    obtain ⟨hd, hs⟩ := hs
    have hd : i32.Has (next - prior) := by simp only [Has, lo, width] at *; omega
    have hc := conv_line ht hp hn h hs
    simpa [counter, counter32, h, sub_eq hd] using hc
  case u32 =>
    have hc := conv_line ht hp hn h (.inl (hp.left.trans h))
    simpa [counter, counterU32, h] using hc
  case i64 =>
    obtain ⟨hd, hs⟩ := hs
    have hd : i64.Has (next - prior) := by simp only [Has, lo, width] at *; omega
    have hc := conv_line ht hp hn h hs
    simpa [counter, counter64, h, sub_eq hd] using hc
  case u64 =>
    have hc := conv_line ht hp hn h (.inl (hp.left.trans h))
    have hd : u64.Has (next - prior) := by simp only [Has, lo] at *; omega
    by_cases hu : next < 2 ^ 63
    case pos =>
      have hi : i64.Has (next - prior) := by simp only [Has, lo, width] at *; omega
      rw [counter, counterU64, wrap_of_lt hp (by omega), wrap_of_lt hn hu]
      simpa [h, sub_eq hi, wrap_eq hd] using hc
    case neg =>
      -- The upper bound is taken for a negative number, and the difference for a wrapped one.
      obtain ⟨hl, hw⟩ : prior < 2 ^ 63 ∧ dowrap := hs.resolve_left hu
      have hb : ¬next - 2 ^ 64 ≥ prior := by simp only [Has, width] at *; omega
      have he : (2 : Int) ^ 64 - 1 - prior + 1 + (next - 2 ^ 64) = next - prior := by omega
      rw [counter, counterU64, wrap_of_lt hp hl, wrap_of_ge hn (by omega)]
      simpa only [hb, hw, he, if_true, if_false, wrap_eq hd, Int.cast_sub] using hc

end Increasing

def IntType.diff (ty : IntType) (prior next : Int) : Int :=
  (next - prior) % 2 ^ ty.width

-- What is needed for bounds that decrease and are to be taken for wrapped ones.
def SoundWrap (t : Span) (prior next : Int) (ty : IntType) : Prop :=
  let d := ty.diff prior next
  let v := trunc (1 / 2 + t.part d)
  match ty with
  | .i32 => False
  | .u32 => True
  | .i64 => d < 2 ^ 63 ∧ prior + v < 2 ^ 63
  | .u64 =>
    (next < 2 ^ 63 → 2 ^ 63 ≤ prior → d < 2 ^ 63) ∧
    0 ≤ IntType.wrap .i64 prior + v ∧ IntType.wrap .i64 prior + v < 2 ^ 64

instance : DecidablePred (SoundWrap t prior next)
  | .i32 => .isFalse id
  | .u32 => .isTrue trivial
  | .i64 | .u64 => inferInstanceAs (Decidable (_ ∧ _))

section Wrapped

open IntType

variable {t : Span} {ty : IntType}

theorem diff_nonneg (ty : IntType) (prior next : Int) : 0 ≤ ty.diff prior next :=
  Int.emod_nonneg _ (pow_ne_zero _ two_ne_zero)

theorem trunc_part_bounds (ht : t.Inside) {d : Int} (hd : 0 ≤ d) :
    0 ≤ 1 / 2 + t.part d ∧ 0 ≤ trunc (1 / 2 + t.part d) ∧ trunc (1 / 2 + t.part d) ≤ d := by
  have hd' : (0 : ℚ) ≤ d := by exact_mod_cast hd
  have hl := Span.part_nonneg ht hd'
  refine ⟨by linarith, le_trunc_half (by exact_mod_cast hl), ?_⟩
  exact trunc_half_le (Span.part_le ht hd') (.inl hd)

theorem conv_add (ht : t.Inside) {d : Int} (hd : 0 ≤ d)
    (h₀ : 0 ≤ prior + trunc (1 / 2 + t.part d)) (h : ty.Has (prior + trunc (1 / 2 + t.part d))) :
    ty.conv (1 / 2 + prior + t.part d) = some (prior + trunc (1 / 2 + t.part d)) := by
  have hv := trunc_int_add (trunc_part_bounds ht hd).left h₀
  have he : 1 / 2 + (prior : ℚ) + t.part d = prior + (1 / 2 + t.part d) := by ring
  rw [he, conv_eq (hv ▸ h), hv]

theorem counterU32_wrap (ht : t.Inside) (h : next < prior) : counterU32 true t prior next =
    some (u32.wrap (prior + trunc (1 / 2 + t.part (u32.diff prior next)))) := by
  have hd : u32.wrap (2 ^ 32 - 1 - prior + 1 + next) = u32.diff prior next := by
    simp only [diff, wrap, lo, width]
    omega
  have hb := trunc_part_bounds ht (diff_nonneg u32 prior next)
  have hc : u32.Has (trunc (1 / 2 + t.part (u32.diff prior next))) := by
    simp only [Has, diff, lo] at *
    omega
  rw [counterU32, if_neg (not_le.mpr h), if_pos rfl, hd, conv_eq hc, Option.map_some, add_comm]

theorem counter64_wrap (ht : t.Inside) (hp : i64.Has prior) (hn : i64.Has next)
    (h : next < prior) (hs : SoundWrap t prior next i64) : counter64 true t prior next =
      some (i64.wrap (prior + trunc (1 / 2 + t.part (i64.diff prior next)))) := by
  obtain ⟨hd, hv⟩ := hs
  have hb := trunc_part_bounds ht (diff_nonneg i64 prior next)
  have hw : i64.wrap (2 ^ 64 - 1 - prior + 1 + next) = i64.diff prior next := by
    simp only [diff, wrap, lo, width] at *
    omega
  -- The lower bound is positive, as the difference has to be more than half of the range.
  have h₀ : 0 ≤ prior := by
    simp only [Has, diff, lo, width] at *
    omega
  have hi : i64.Has (prior + trunc (1 / 2 + t.part (i64.diff prior next))) := by
    simp only [Has, lo, width] at *
    omega
  rw [counter64, if_neg (by simp [h]), hw, wrap_eq hi]
  exact conv_add ht (diff_nonneg i64 prior next) (by omega) hi

theorem counterU64_wrap (ht : t.Inside) (hp : u64.Has prior) (hn : u64.Has next)
    (h : next < prior) (hs : SoundWrap t prior next u64) : counterU64 true t prior next =
      some (u64.wrap (prior + trunc (1 / 2 + t.part (u64.diff prior next)))) := by
  obtain ⟨hd, h₀, hv⟩ := hs
  have hi : u64.Has (i64.wrap prior + trunc (1 / 2 + t.part (u64.diff prior next))) := by
    exact ⟨h₀, hv.trans_eq (zero_add _).symm⟩
  have hc := conv_add ht (diff_nonneg u64 prior next) h₀ hi
  have hw : u64.wrap (prior + trunc (1 / 2 + t.part (u64.diff prior next))) =
      i64.wrap prior + trunc (1 / 2 + t.part (u64.diff prior next)) := by
    simp only [wrap, lo, width] at *
    omega
  -- In both cases it is the wrapped difference that is divided.
  have hu : u64.wrap (u64.diff prior next) = u64.diff prior next := by
    simp only [diff, wrap, lo, width]
    omega
  rw [hw, ← hc, counterU64]
  by_cases hb : i64.wrap next ≥ i64.wrap prior
  case pos =>
    have hl : next < 2 ^ 63 ∧ 2 ^ 63 ≤ prior := by
      simp only [Has, wrap, lo, width] at *
      omega
    have hd := hd hl.left hl.right
    have he : i64.wrap next - i64.wrap prior = u64.diff prior next := by
      simp only [diff, wrap, lo, width] at *
      omega
    have hi : i64.Has (i64.wrap next - i64.wrap prior) := by
      simp only [Has, lo, width] at *
      omega
    simp only [hb, if_true, sub_eq hi, he, hu, Option.bind_eq_bind, Option.bind_some]
  case neg =>
    have he : u64.wrap (2 ^ 64 - 1 - i64.wrap prior + 1 + i64.wrap next) = u64.diff prior next := by
      simp only [diff, wrap, lo, width]
      omega
    simp only [hb, if_true, if_false, he]

theorem counter_wrap (ht : t.Inside) (hp : ty.Has prior) (hn : ty.Has next) (h : next < prior)
    (hs : SoundWrap t prior next ty) : counter true t prior next ty =
      some (ty.wrap (prior + trunc (1 / 2 + t.part (ty.diff prior next)))) := by
  cases ty
  case i32 => exact hs.elim
  case u32 => exact counterU32_wrap ht h
  case i64 => exact counter64_wrap ht hp hn h hs
  case u64 => exact counterU64_wrap ht hp hn h hs

end Wrapped

section Sound

variable {t : Span} {ty : IntType}

theorem Sound.upper (hs : Sound dowrap t prior next ty) (hn : ty.Has next) :
    0 ≤ next ∨ 1 / 2 + line t prior next ≤ next := by
  cases ty
  case i32 => exact hs.right
  case i64 => exact hs.right
  case u32 => exact .inl hn.left
  case u64 => exact .inl hn.left

theorem counter_between (ht : t.Inside) (hp : ty.Has prior) (hn : ty.Has next) (h : prior ≤ next)
    (hs : Sound dowrap t prior next ty) :
    ∃ v, counter dowrap t prior next ty = some v ∧ prior ≤ v ∧ v ≤ next := by
  obtain ⟨hl, hu⟩ := line_bounds ht h
  exact ⟨_, counter_eq ht hp hn h hs, le_trunc_half hl, trunc_half_le hu (hs.upper hn)⟩

theorem line_mono (ht : t.Inside) (h : prior ≤ next) (hr : t.req ≤ r) :
    line t prior next ≤ line { t with req := r } prior next := by
  have hd : (0 : ℚ) ≤ next - prior := sub_nonneg.mpr (Int.cast_le.mpr h)
  exact add_le_add_right (Span.part_mono ht hd hr) _

theorem counter_sound (dowrap : Bool) (ht : t.Inside) (hp : ty.Has prior) (hn : ty.Has next) :
    (prior ≤ next → Sound dowrap t prior next ty →
      ∃ v, counter dowrap t prior next ty = some v ∧ (prior ≤ v ∧ v ≤ next) ∧
        ∀ r, t.req ≤ r → r < t.next → Sound dowrap { t with req := r } prior next ty →
          ∃ v', counter dowrap { t with req := r } prior next ty = some v' ∧ v ≤ v') ∧
    (next < prior → SoundWrap t prior next ty →
      counter true t prior next ty =
        some (ty.wrap (prior + trunc (1 / 2 + t.part (ty.diff prior next))))) := by
  refine ⟨fun h hs => ?_, fun h hs => counter_wrap ht hp hn h hs⟩
  obtain ⟨v, hv, hb⟩ := counter_between ht hp hn h hs
  refine ⟨v, hv, hb, fun r hr hu hs' => ?_⟩
  have ht' : Span.Inside { t with req := r } := ⟨ht.left.trans_le hr, hu⟩
  have hv' := counter_eq ht' hp hn h hs'
  refine ⟨_, hv', ?_⟩
  rw [counter_eq ht hp hn h hs, Option.some_inj] at hv
  rw [← hv]
  exact trunc_le_trunc (add_le_add_right (line_mono ht h hr) _)

theorem counter_sound_two :
    (∃ v, counter false ⟨0, 1, 2⟩ (-10) (-2) .i64 = some v ∧ (-10 ≤ v ∧ v ≤ -2) ∧
      ∀ r, 1 ≤ r → r < 2 → Sound false ⟨0, r, 2⟩ (-10) (-2) .i64 →
        ∃ v', counter false ⟨0, r, 2⟩ (-10) (-2) .i64 = some v' ∧ v ≤ v') ∧
    counter true ⟨0, 3, 4⟩ (2 ^ 64 - 10) 5 .u64 = some (IntType.wrap .u64 (2 ^ 64 - 10 +
      trunc (1 / 2 + Span.part ⟨0, 3, 4⟩ (IntType.diff .u64 (2 ^ 64 - 10) 5)))) := by
  have ht : Span.Inside ⟨0, 1, 2⟩ := ⟨by decide, by decide⟩
  have ht' : Span.Inside ⟨0, 3, 4⟩ := ⟨by decide, by decide⟩
  have hp : IntType.Has .i64 (-10) := by decide
  have hp' : IntType.Has .u64 (2 ^ 64 - 10) := by decide
  have h := counter_sound false ht hp (show IntType.Has .i64 (-2) by decide)
  have h' := counter_sound true ht' hp' (show IntType.Has .u64 5 by decide)
  exact ⟨h.left (by decide) (by decide +kernel), h'.right (by decide) (by decide +kernel)⟩

-- Equal bounds below zero, a difference that is not added, and bounds taken for negative numbers.
theorem counter_unsound :
    counter false ⟨0, 1, 2⟩ (-5) (-5) .i32 = some (-4) ∧
    counter true ⟨0, 3, 4⟩ (2 ^ 31 - 1) (-2 ^ 31) .i32 = some 1 ∧
    counter false ⟨0, 1, 2⟩ (2 ^ 63) (2 ^ 63) .u64 = none := by
  decide +kernel

end Sound

end Interp
