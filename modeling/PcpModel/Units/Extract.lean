import PcpModel.Interp.Counter
import PcpModel.Pmapi.Header

-- pmExtractValue in units.c for integers.
namespace Units

open Interp Pcp

inductive ValFmt
  | insitu
  | dptr
  | sptr
  deriving DecidableEq

def typeCode : IntType → Nat
  | .i32 => 0
  | .u32 => 1
  | .i64 => 2
  | .u64 => 3

-- Either the bits of `lval` are the value, or the first eight bytes of a block are.
structure Value where
  valfmt : ValFmt
  lval : UInt32
  vtype : Nat
  vlen : Nat
  vbuf : UInt64

structure Out where
  sts : Int
  oval : Int
  deriving DecidableEq

section Convert

open IntType

def done (oval : Int) : Out :=
  ⟨0, oval⟩

-- The result has been cleared before.
def fails (sts : Int) : Out :=
  ⟨sts, 0⟩

def from32 (l : Int) : IntType → Out
  | i32 => done l
  | u32 => if l < 0 then fails pmErrSign else done (u32.wrap l)
  | i64 => done (i64.wrap l)
  | u64 => if l < 0 then fails pmErrSign else done (u64.wrap l)

def fromU32 (ul : Int) : IntType → Out
  | i32 => if ul > 0x7fffffff then fails pmErrTrunc else done (i32.wrap ul)
  | u32 => done (u32.wrap ul)
  | i64 => done (i64.wrap ul)
  | u64 => done (u64.wrap ul)

def from64 (src : Int) : IntType → Out
  | i32 => if src > 0x7fffffff then fails pmErrTrunc else done (i32.wrap src)
  | u32 =>
    if src > 0xffffffff then fails pmErrTrunc
    else if src < 0 then fails pmErrSign
    else done (u32.wrap src)
  | i64 => done src
  | u64 => if src < 0 then fails pmErrSign else done (u64.wrap src)

def fromU64 (usrc : Int) : IntType → Out
  | i32 => if usrc > 0x7fffffff then fails pmErrTrunc else done (i32.wrap usrc)
  | u32 => if usrc > 0xffffffff then fails pmErrTrunc else done (u32.wrap usrc)
  | i64 => if usrc > 0x7fffffffffffffff then fails pmErrTrunc else done (i64.wrap usrc)
  | u64 => done usrc

end Convert

-- A block has to be of the right size, and of the right type unless it has none.
def Value.Block (v : Value) (itype : IntType) : Prop :=
  v.vlen = 4 + 8 ∧ (v.vtype = typeCode itype ∨ v.vtype = 0)

instance {v : Value} : Decidable (v.Block itype) :=
  inferInstanceAs (Decidable (_ ∧ _))

def extractValue (v : Value) (itype otype : IntType) : Out :=
  match v.valfmt, itype with
  | .insitu, .i32 => from32 (IntType.i32.wrap v.lval.toNat) otype
  | .insitu, .u32 => fromU32 v.lval.toNat otype
  | .insitu, _ => fails pmErrConv
  | _, .i64 =>
    if v.Block .i64 then from64 (IntType.i64.wrap v.vbuf.toNat) otype else fails pmErrConv
  | _, .u64 => if v.Block .u64 then fromU64 v.vbuf.toNat otype else fails pmErrConv
  | _, _ => fails pmErrConv

-- Values of 32 bits are in place, and those of 64 bits are in a block.
def Value.WellFormed (v : Value) : IntType → Prop
  | .i32 | .u32 => v.valfmt = .insitu
  | itype => v.valfmt ≠ .insitu ∧ v.Block itype

def Value.val (v : Value) : IntType → Int
  | .i32 => IntType.i32.wrap v.lval.toNat
  | .u32 => v.lval.toNat
  | .i64 => IntType.i64.wrap v.vbuf.toNat
  | .u64 => v.vbuf.toNat

-- The value is returned exactly if the type has it.
structure Exact (otype : IntType) (n : Int) (r : Out) : Prop where
  ok : r.sts = 0 ↔ otype.Has n
  value : r.sts = 0 → r.oval = n
  error : r.sts ≠ 0 → r.sts = pmErrSign ∨ r.sts = pmErrTrunc

section Exact

open IntType

variable {otype : IntType} {n : Int}

theorem exact_done (h : otype.Has n) : Exact otype n (done n) where
  ok := iff_of_true rfl h
  value := fun _ => rfl
  error := fun h => absurd rfl h

theorem exact_wrap (h : otype.Has n) : Exact otype n (done (otype.wrap n)) := by
  rw [wrap_eq h]
  exact exact_done h

theorem exact_sign (h : ¬otype.Has n) : Exact otype n (fails pmErrSign) where
  ok := iff_of_false (by decide) h
  value := fun h => absurd h (by decide)
  error := fun _ => .inl rfl

theorem exact_trunc (h : ¬otype.Has n) : Exact otype n (fails pmErrTrunc) where
  ok := iff_of_false (by decide) h
  value := fun h => absurd h (by decide)
  error := fun _ => .inr rfl

theorem from32_exact (h : i32.Has n) : Exact otype n (from32 n otype) := by
  simp only [Has, lo, width] at h
  cases otype <;> simp only [from32]
  case i32 => exact exact_done (by simp only [Has, lo, width]; omega)
  case i64 => exact exact_wrap (by simp only [Has, lo, width]; omega)
  all_goals
    split
    · exact exact_sign (by simp only [Has, lo]; omega)
    · exact exact_wrap (by simp only [Has, lo, width]; omega)

theorem fromU32_exact (h : u32.Has n) : Exact otype n (fromU32 n otype) := by
  simp only [Has, lo, width] at h
  cases otype <;> simp only [fromU32]
  case i32 =>
    split
    · exact exact_trunc (by simp only [Has, lo, width]; omega)
    · exact exact_wrap (by simp only [Has, lo, width]; omega)
  all_goals exact exact_wrap (by simp only [Has, lo, width]; omega)

theorem fromU64_exact (h : u64.Has n) : Exact otype n (fromU64 n otype) := by
  simp only [Has, lo, width] at h
  cases otype <;> simp only [fromU64]
  case u64 => exact exact_done (by simp only [Has, lo, width]; omega)
  all_goals
    split
    · exact exact_trunc (by simp only [Has, lo, width]; omega)
    · exact exact_wrap (by simp only [Has, lo, width]; omega)

-- A 64-bit value is only tested for being too large for 32 bits.
theorem from64_exact (h : i64.Has n) :
    Exact otype n (from64 n otype) ↔ ¬(otype = i32 ∧ n < -2 ^ 31) := by
  simp only [Has, lo, width] at h
  cases otype
  case i32 =>
    by_cases hn : n < -2 ^ 31
    case pos =>
      have hr : from64 n i32 = done (i32.wrap n) := if_neg (by omega)
      refine iff_of_false (fun he => ?_) fun h => h ⟨rfl, hn⟩
      have := he.ok.mp (by rw [hr]; rfl)
      simp only [Has, lo] at this
      omega
    case neg =>
      refine iff_of_true ?_ fun h => hn h.right
      simp only [from64]
      split
      · exact exact_trunc (by simp only [Has, lo, width]; omega)
      · exact exact_wrap (by simp only [Has, lo, width]; omega)
  case u32 =>
    refine iff_of_true ?_ (by simp)
    simp only [from64]
    split
    · exact exact_trunc (by simp only [Has, lo, width]; omega)
    split
    · exact exact_sign (by simp only [Has, lo]; omega)
    · exact exact_wrap (by simp only [Has, lo, width]; omega)
  case i64 => exact iff_of_true (exact_done h) (by simp)
  case u64 =>
    refine iff_of_true ?_ (by simp)
    simp only [from64]
    split
    · exact exact_sign (by simp only [Has, lo]; omega)
    · exact exact_wrap (by simp only [Has, lo, width]; omega)

theorem wrap_has (ty : IntType) (n : Int) : ty.Has (ty.wrap n) := by
  have h₀ : (0 : Int) < 2 ^ ty.width := by positivity
  unfold Has wrap
  omega

theorem Value.val_has (v : Value) (itype : IntType) : itype.Has (v.val itype) := by
  cases itype
  case i32 => exact wrap_has ..
  case i64 => exact wrap_has ..
  case u32 =>
    have := v.lval.toNat_lt
    simp only [Has, val, lo, width]
    omega
  case u64 =>
    have := v.vbuf.toNat_lt
    simp only [Has, val, lo, width]
    omega

-- Every conversion is exact, except for those to 32 bits of 64-bit values that are too small.
theorem extractValue_exact (v : Value) (itype otype : IntType) (hv : v.WellFormed itype) :
    Exact otype (v.val itype) (extractValue v itype otype) ↔
      ¬(itype = i64 ∧ otype = i32 ∧ v.val itype < -2 ^ 31) := by
  have hh := v.val_has itype
  cases itype
  case i32 =>
    have hf : v.valfmt = .insitu := hv
    refine iff_of_true ?_ (by simp)
    simp only [extractValue, hf]
    exact from32_exact hh
  case u32 =>
    have hf : v.valfmt = .insitu := hv
    refine iff_of_true ?_ (by simp)
    simp only [extractValue, hf]
    exact fromU32_exact hh
  case i64 =>
    obtain ⟨hf, hb⟩ := hv
    rw [and_iff_right rfl, ← from64_exact hh]
    cases hv : v.valfmt
    case insitu => exact absurd hv hf
    all_goals simp only [extractValue, if_pos hb, Value.val]
  case u64 =>
    obtain ⟨hf, hb⟩ := hv
    refine iff_of_true ?_ (by simp)
    cases hv : v.valfmt
    case insitu => exact absurd hv hf
    all_goals
      simp only [extractValue, if_pos hb]
      exact fromU64_exact hh

def block (vbuf : UInt64) : Value where
  valfmt := .dptr
  lval := 0
  vtype := 2
  vlen := 12
  vbuf := vbuf

theorem extractValue_exact_minus_one : (block 0xffffffffffffffff).val i64 = -1 ∧
    Exact i32 ((block 0xffffffffffffffff).val i64)
      (extractValue (block 0xffffffffffffffff) i64 i32) :=
  ⟨by decide, (extractValue_exact _ i64 i32 ⟨by decide, by decide⟩).mpr (by decide)⟩

-- The value that is one less than what fits is returned as the largest one.
theorem extractValue_inexact : (block 0xffffffff7fffffff).WellFormed i64 ∧
    (block 0xffffffff7fffffff).val i64 = -2 ^ 31 - 1 ∧
    extractValue (block 0xffffffff7fffffff) i64 i32 = ⟨0, 2 ^ 31 - 1⟩ :=
  ⟨⟨by decide, by decide⟩, by decide, by decide⟩

end Exact

end Units
