import PcpModel.Pmie.Expr

-- The evaluators of conjunctions and disjunctions (andor.c, eval.c).
namespace Pmie

open Truth

-- A connective of two truth values, and the one that is left of it if an operand is unknown.
structure Connective where
  two : Truth → Truth → Truth
  one : Truth → Truth
  left : ∀ t, two t DUNNO = one t
  right : ∀ t, two DUNNO t = one t

namespace Connective

def OR (x y : Truth) : Truth :=
  if x = TRUE ∨ y = TRUE then TRUE else if x = FALSE ∧ y = FALSE then FALSE else DUNNO

def OR1 (x : Truth) : Truth :=
  if x = TRUE then TRUE else DUNNO

def AND (x y : Truth) : Truth :=
  if x = TRUE ∧ y = TRUE then TRUE else if x = FALSE ∨ y = FALSE then FALSE else DUNNO

def AND1 (x : Truth) : Truth :=
  if x = FALSE then FALSE else DUNNO

theorem OR_left (t : Truth) : OR t DUNNO = OR1 t := by
  cases t <;> rfl

theorem OR_right (t : Truth) : OR DUNNO t = OR1 t := by
  cases t <;> rfl

theorem AND_left (t : Truth) : AND t DUNNO = AND1 t := by
  cases t <;> rfl

theorem AND_right (t : Truth) : AND DUNNO t = AND1 t := by
  cases t <;> rfl

def or : Connective where
  two := OR
  one := OR1
  left := OR_left
  right := OR_right

def and : Connective where
  two := AND
  one := AND1
  left := AND_left
  right := AND_right

end Connective

namespace Expr

def val (arg : Expr Truth) : Truth :=
  arg.now.headD DUNNO

section Evaluators

variable (c : Connective) (x arg1 arg2 : Expr Truth)

-- Most evaluators ask for a sample with values.
def cnd (span : Bool) (both left right : List Truth) : Expr Truth :=
  if arg1.valid ≠ 0 ∧ arg2.valid ≠ 0 ∧ span then
    x.rotate.put both (if arg1.stamp > arg2.stamp then arg1.stamp else arg2.stamp)
  else if arg1.valid ≠ 0 ∧ span then
    x.rotate.put left arg1.stamp
  else if arg2.valid ≠ 0 ∧ span then
    x.rotate.put right arg2.stamp
  else
    x.rotate.invalid

def cnd_n_n (span : Bool) : Expr Truth :=
  x.cnd arg1 arg2 span (.zipWith c.two (arg1.now.take x.tspan) (arg2.now.take x.tspan))
    ((arg1.now.take x.tspan).map c.one) ((arg2.now.take x.tspan).map c.one)

-- The second operand alone is only written once.
def cnd_n_1 : Expr Truth :=
  x.cnd arg1 arg2 (x.tspan > 0) ((arg1.now.take x.tspan).map (c.two · arg2.val))
    ((arg1.now.take x.tspan).map c.one) [c.one arg2.val]

-- And the first one here.
def cnd_1_n : Expr Truth :=
  x.cnd arg1 arg2 (x.tspan > 0) ((arg2.now.take x.tspan).map (c.two arg1.val ·))
    [c.one arg1.val] ((arg2.now.take x.tspan).map c.one)

def cnd_1_1 : Expr Truth :=
  x.cnd arg1 arg2 true [c.two arg1.val arg2.val] [c.one arg1.val] [c.one arg2.val]

def cndOr_n_n : Expr Truth :=
  x.cnd_n_n .or arg1 arg2 (x.tspan > 0)

def cndOr_n_1 : Expr Truth :=
  x.cnd_n_1 .or arg1 arg2

def cndOr_1_n : Expr Truth :=
  x.cnd_1_n .or arg1 arg2

def cndOr_1_1 : Expr Truth :=
  x.cnd_1_1 .or arg1 arg2

-- This one does not ask for a sample with values.
def cndAnd_n_n : Expr Truth :=
  x.cnd_n_n .and arg1 arg2 true

def cndAnd_n_1 : Expr Truth :=
  x.cnd_n_1 .and arg1 arg2

def cndAnd_1_n : Expr Truth :=
  x.cnd_1_n .and arg1 arg2

def cndAnd_1_1 : Expr Truth :=
  x.cnd_1_1 .and arg1 arg2

end Evaluators

-- The instance domain of a metric and the instances of it that an expression names.
structure Domain where
  null : Bool
  specinst : Nat

-- Whether an argument must always have one value.
def arity (tspan : Nat) (metrics : List Domain) : Bool :=
  tspan = 1 ∧ ∀ m ∈ metrics, m.null ∨ m.specinst ≠ 0

inductive Op
  | CND_AND
  | CND_OR
  deriving DecidableEq

namespace Op

def connective : Op → Connective
  | CND_AND => .and
  | CND_OR => .or

def evaluator : Op → Bool → Bool → Expr Truth → Expr Truth → Expr Truth → Expr Truth
  | CND_AND, true, true => cndAnd_1_1
  | CND_AND, true, false => cndAnd_1_n
  | CND_AND, false, true => cndAnd_n_1
  | CND_AND, false, false => cndAnd_n_n
  | CND_OR, true, true => cndOr_1_1
  | CND_OR, true, false => cndOr_1_n
  | CND_OR, false, true => cndOr_n_1
  | CND_OR, false, false => cndOr_n_n

-- The arities are those of the time when the expression is made.
def findEval (op : Op) (tspan₁ tspan₂ : Nat) (metrics₁ metrics₂ : List Domain) :
    Expr Truth → Expr Truth → Expr Truth → Expr Truth :=
  op.evaluator (arity tspan₁ metrics₁) (arity tspan₂ metrics₂)

end Op

-- An operand with one value, or with a value for each one of the result.
def Shaped (x arg : Expr Truth) (one : Bool) : Prop :=
  arg.tspan = if one then 1 else x.tspan

def operand (arg : Expr Truth) (one : Bool) (i : Nat) : Option Truth :=
  if arg.valid = 0 then some DUNNO else arg.now[if one then 0 else i]?

def result (c : Connective) (arg1 arg2 : Expr Truth) (one₁ one₂ : Bool) (i : Nat) : Option Truth :=
  (arg1.operand one₁ i).bind fun t => (arg2.operand one₂ i).map (c.two t)

-- What an evaluator has to leave.
structure Right (c : Connective) (arg1 arg2 : Expr Truth) (one₁ one₂ : Bool) (x : Expr Truth) :
    Prop where
  invalid : x.valid = 0 ↔ arg1.valid = 0 ∧ arg2.valid = 0
  elems : x.valid ≠ 0 → ∀ i < x.tspan, x.now[i]? = result c arg1 arg2 one₁ one₂ i

section Cases

variable {c : Connective} {x arg1 arg2 : Expr Truth} {one₁ one₂ : Bool}

theorem cnd_both (h₁ : arg1.valid ≠ 0) (h₂ : arg2.valid ≠ 0) :
    x.cnd arg1 arg2 true both left right =
      x.rotate.put both (if arg1.stamp > arg2.stamp then arg1.stamp else arg2.stamp) :=
  if_pos ⟨h₁, h₂, rfl⟩

theorem cnd_left (h₁ : arg1.valid ≠ 0) (h₂ : arg2.valid = 0) :
    x.cnd arg1 arg2 true both left right = x.rotate.put left arg1.stamp := by
  simp [cnd, h₁, h₂]

theorem cnd_right (h₁ : arg1.valid = 0) (h₂ : arg2.valid ≠ 0) :
    x.cnd arg1 arg2 true both left right = x.rotate.put right arg2.stamp := by
  simp [cnd, h₁, h₂]

theorem cnd_invalid (h : span = true → arg1.valid = 0 ∧ arg2.valid = 0) :
    x.cnd arg1 arg2 span both left right = x.rotate.invalid := by
  cases span with
  | false => simp [cnd]
  | true => simp [cnd, h rfl]

theorem right_invalid :
    Right c arg1 arg2 one₁ one₂ x.invalid ↔ arg1.valid = 0 ∧ arg2.valid = 0 where
  mp h := h.invalid.mp rfl
  mpr h := ⟨iff_of_true rfl h, fun hv => absurd rfl hv⟩

theorem right_put (hv : arg1.valid ≠ 0 ∨ arg2.valid ≠ 0) :
    Right c arg1 arg2 one₁ one₂ (x.rotate.put vs t) ↔
      ∀ i < x.tspan, (x.rotate.put vs t).now[i]? = result c arg1 arg2 one₁ one₂ i where
  mp h i hi := h.elems (Nat.succ_ne_zero _) i (rotate_tspan.symm ▸ hi)
  mpr h := ⟨iff_of_false (Nat.succ_ne_zero _) (not_and_or.mpr hv), fun _ i hi =>
    h i (rotate_tspan ▸ hi)⟩

theorem put_right (hv : arg1.valid ≠ 0 ∨ arg2.valid ≠ 0)
    (hl : vs.length = x.tspan) (h : ∀ i, vs[i]? = result c arg1 arg2 one₁ one₂ i) :
    Right c arg1 arg2 one₁ one₂ (x.rotate.put vs t) := by
  refine (right_put hv).mpr fun i _ => ?_
  rw [put_now (hl.trans rotate_tspan.symm), h i]

-- Only the first one is, and the others are as old as the place of the sample.
theorem put_one_right (hv : arg1.valid ≠ 0 ∨ arg2.valid ≠ 0)
    (h : ∀ i, result c arg1 arg2 one₁ one₂ i = some v) :
    Right c arg1 arg2 one₁ one₂ (x.rotate.put [v] t) ↔
      ∀ i < x.tspan, 0 < i → x.rotate.now[i]? = some v := by
  rw [right_put hv]
  refine forall₂_congr fun i hi => ?_
  rw [h i]
  cases i with
  | zero =>
    have hw : (x.rotate.put [v] t).now[0]? = _ := put_now_of_lt Nat.one_pos (rotate_tspan.symm ▸ hi)
    simp [hw]
  | succ i =>
    have hk : (x.rotate.put [v] t).now[i + 1]? = _ := put_now_of_le (Nat.le_add_left 1 i)
    simp [hk]

theorem operand_invalid (h : arg1.valid = 0) : arg1.operand one₁ i = some DUNNO :=
  if_pos h

theorem operand_n (h : arg1.valid ≠ 0) : arg1.operand false i = arg1.now[i]? :=
  if_neg h

theorem operand_1 (h : arg1.valid ≠ 0) (ht : arg1.tspan = 1) :
    arg1.operand true i = some arg1.val := by
  obtain ⟨t, he⟩ := List.length_eq_one_iff.mp (now_length.trans ht)
  simp [operand, h, val, he]

theorem result_left (h : arg2.valid = 0) :
    result c arg1 arg2 one₁ one₂ i = (arg1.operand one₁ i).map c.one := by
  simp only [result, operand_invalid h, Option.map_some, c.left]
  cases arg1.operand one₁ i <;> rfl

theorem result_right (h : arg1.valid = 0) :
    result c arg1 arg2 one₁ one₂ i = (arg2.operand one₂ i).map c.one := by
  simp only [result, operand_invalid h]
  exact congrArg (Option.map · _) (funext c.right)

theorem take_now (h : arg1.tspan = x.tspan) : arg1.now.take x.tspan = arg1.now :=
  List.take_of_length_le (Nat.le_of_eq (now_length.trans h))

theorem cnd_n_n_right (h₁ : arg1.tspan = x.tspan) (h₂ : arg2.tspan = x.tspan) :
    Right c arg1 arg2 false false (x.cnd_n_n c arg1 arg2 span) ↔
      (span = false → arg1.valid = 0 ∧ arg2.valid = 0) := by
  rw [cnd_n_n, take_now h₁, take_now h₂]
  cases span with
  | false => simp [cnd_invalid, right_invalid]
  | true =>
    refine iff_of_true ?_ nofun
    by_cases hv₁ : arg1.valid = 0 <;> by_cases hv₂ : arg2.valid = 0
    · rw [cnd_invalid fun _ => ⟨hv₁, hv₂⟩]
      exact right_invalid.mpr ⟨hv₁, hv₂⟩
    · rw [cnd_right hv₁ hv₂]
      refine put_right (.inr hv₂) (by simp [h₂]) fun i => ?_
      rw [result_right hv₁, operand_n hv₂, List.getElem?_map]
    · rw [cnd_left hv₁ hv₂]
      refine put_right (.inl hv₁) (by simp [h₁]) fun i => ?_
      rw [result_left hv₂, operand_n hv₁, List.getElem?_map]
    · rw [cnd_both hv₁ hv₂]
      refine put_right (.inl hv₁) (by simp [h₁, h₂]) fun i => ?_
      rw [result, operand_n hv₁, operand_n hv₂, List.getElem?_zipWith]
      cases arg1.now[i]? <;> cases arg2.now[i]? <;> rfl

-- The values that are not written are right by chance.
def Stale (c : Connective) (x arg : Expr Truth) : Prop :=
  ∀ i < x.tspan, 0 < i → x.rotate.now[i]? = some (c.one arg.val)

theorem cnd_n_1_right (h₁ : arg1.tspan = x.tspan) (h₂ : arg2.tspan = 1) :
    Right c arg1 arg2 false true (x.cnd_n_1 c arg1 arg2) ↔
      (x.tspan = 0 → arg1.valid = 0 ∧ arg2.valid = 0) ∧
      (arg1.valid = 0 → arg2.valid ≠ 0 → Stale c x arg2) := by
  rw [cnd_n_1, take_now h₁]
  by_cases ht : x.tspan = 0
  · rw [cnd_invalid (by simp [ht]), right_invalid]
    exact ⟨fun hv => ⟨fun _ => hv, fun _ h => absurd hv.right h⟩, fun h => h.left ht⟩
  · rw [decide_eq_true (Nat.pos_of_ne_zero ht)]
    simp only [ht, false_implies, true_and]
    by_cases hv₁ : arg1.valid = 0 <;> by_cases hv₂ : arg2.valid = 0
    · rw [cnd_invalid fun _ => ⟨hv₁, hv₂⟩]
      exact iff_of_true (right_invalid.mpr ⟨hv₁, hv₂⟩) fun _ h => absurd hv₂ h
    · rw [cnd_right hv₁ hv₂, put_one_right (.inr hv₂)]
      · exact ⟨fun h _ _ => h, fun h => h hv₁ hv₂⟩
      · intro i
        rw [result_right hv₁, operand_1 hv₂ h₂, Option.map_some]
    · rw [cnd_left hv₁ hv₂]
      refine iff_of_true (put_right (.inl hv₁) (by simp [h₁]) fun i => ?_) fun h => absurd h hv₁
      rw [result_left hv₂, operand_n hv₁, List.getElem?_map]
    · rw [cnd_both hv₁ hv₂]
      refine iff_of_true (put_right (.inl hv₁) (by simp [h₁]) fun i => ?_) fun h => absurd h hv₁
      rw [result, operand_n hv₁, operand_1 hv₂ h₂, List.getElem?_map]
      cases arg1.now[i]? <;> rfl

def swap (c : Connective) : Connective where
  two s t := c.two t s
  one := c.one
  left := c.right
  right := c.left

theorem cnd_swap : x.cnd arg1 arg2 span both left right = x.cnd arg2 arg1 span both right left := by
  have hs : (if arg1.stamp > arg2.stamp then arg1.stamp else arg2.stamp) =
      if arg2.stamp > arg1.stamp then arg2.stamp else arg1.stamp := by
    split <;> split <;> omega
  cases span
  case false => simp [cnd]
  case true =>
    by_cases hv₁ : arg1.valid = 0 <;> by_cases hv₂ : arg2.valid = 0 <;> simp [cnd, hv₁, hv₂, hs]

theorem result_swap : result (swap c) arg2 arg1 one₂ one₁ i = result c arg1 arg2 one₁ one₂ i := by
  simp only [result]
  cases arg1.operand one₁ i <;> cases arg2.operand one₂ i <;> rfl

theorem right_swap : Right (swap c) arg2 arg1 one₂ one₁ x ↔ Right c arg1 arg2 one₁ one₂ x where
  mp h := ⟨h.invalid.trans and_comm, fun hv i hi => (h.elems hv i hi).trans result_swap⟩
  mpr h := ⟨h.invalid.trans and_comm, fun hv i hi => (h.elems hv i hi).trans result_swap.symm⟩

theorem cnd_1_n_right (h₁ : arg1.tspan = 1) (h₂ : arg2.tspan = x.tspan) :
    Right c arg1 arg2 true false (x.cnd_1_n c arg1 arg2) ↔
      (x.tspan = 0 → arg1.valid = 0 ∧ arg2.valid = 0) ∧
      (arg2.valid = 0 → arg1.valid ≠ 0 → Stale c x arg1) := by
  rw [cnd_1_n, cnd_swap, ← right_swap, and_comm (a := arg1.valid = 0)]
  exact cnd_n_1_right h₂ h₁

theorem cnd_1_1_right (h₁ : arg1.tspan = 1) (h₂ : arg2.tspan = 1) (h : x.tspan = 1) :
    Right c arg1 arg2 true true (x.cnd_1_1 c arg1 arg2) := by
  have hs : ∀ {i v}, i < x.tspan → 0 < i → x.rotate.now[i]? = some v := by
    omega
  rw [cnd_1_1]
  by_cases hv₁ : arg1.valid = 0 <;> by_cases hv₂ : arg2.valid = 0
  · rw [cnd_invalid fun _ => ⟨hv₁, hv₂⟩]
    exact right_invalid.mpr ⟨hv₁, hv₂⟩
  · rw [cnd_right hv₁ hv₂]
    refine (put_one_right (.inr hv₂) fun i => ?_).mpr fun _ => hs
    rw [result_right hv₁, operand_1 hv₂ h₂, Option.map_some]
  · rw [cnd_left hv₁ hv₂]
    refine (put_one_right (.inl hv₁) fun i => ?_).mpr fun _ => hs
    rw [result_left hv₂, operand_1 hv₁ h₁, Option.map_some]
  · rw [cnd_both hv₁ hv₂]
    refine (put_one_right (.inl hv₁) fun i => ?_).mpr fun _ => hs
    rw [result, operand_1 hv₁ h₁, operand_1 hv₂ h₂]
    rfl

end Cases

structure Settled (op : Op) (one₁ one₂ : Bool) (x arg1 arg2 : Expr Truth) : Prop where
  span : x.tspan = 0 → (op = .CND_AND ∧ one₁ = false ∧ one₂ = false) ∨
    (arg1.valid = 0 ∧ arg2.valid = 0)
  first : one₁ = true → one₂ = false → arg2.valid = 0 → arg1.valid ≠ 0 →
    Stale op.connective x arg1
  second : one₁ = false → one₂ = true → arg1.valid = 0 → arg2.valid ≠ 0 →
    Stale op.connective x arg2

section FindEval

variable {op : Op} {one₁ one₂ : Bool} {x arg1 arg2 : Expr Truth}

theorem evaluator_n_1 :
    op.evaluator false true x arg1 arg2 = x.cnd_n_1 op.connective arg1 arg2 := by
  cases op <;> rfl

theorem evaluator_1_n :
    op.evaluator true false x arg1 arg2 = x.cnd_1_n op.connective arg1 arg2 := by
  cases op <;> rfl

theorem evaluator_1_1 :
    op.evaluator true true x arg1 arg2 = x.cnd_1_1 op.connective arg1 arg2 := by
  cases op <;> rfl

theorem evaluator_right (h₁ : x.Shaped arg1 one₁) (h₂ : x.Shaped arg2 one₂)
    (h : one₁ = true → one₂ = true → x.tspan = 1) :
    Right op.connective arg1 arg2 one₁ one₂ (op.evaluator one₁ one₂ x arg1 arg2) ↔
      Settled op one₁ one₂ x arg1 arg2 := by
  cases one₁ <;> cases one₂
  case false.false =>
    cases op
    case CND_AND =>
      refine iff_of_true ((cnd_n_n_right h₁ h₂).mpr nofun) ⟨fun _ => ?_, nofun, nofun⟩
      exact .inl ⟨rfl, rfl, rfl⟩
    case CND_OR =>
      refine (cnd_n_n_right h₁ h₂).trans ⟨fun hv => ⟨fun ht => ?_, nofun, nofun⟩, fun hs ht => ?_⟩
      · exact .inr (hv (by simp [ht]))
      · exact (hs.span (by simpa using ht)).resolve_left (by simp)
  case false.true =>
    rw [evaluator_n_1, cnd_n_1_right h₁ h₂]
    constructor
    · exact fun hv => ⟨fun ht => .inr (hv.left ht), nofun, fun _ _ => hv.right⟩
    · exact fun hs => ⟨fun ht => (hs.span ht).resolve_left (by simp), hs.second rfl rfl⟩
  case true.false =>
    rw [evaluator_1_n, cnd_1_n_right h₁ h₂]
    constructor
    · exact fun hv => ⟨fun ht => .inr (hv.left ht), fun _ _ => hv.right, nofun⟩
    · exact fun hs => ⟨fun ht => (hs.span ht).resolve_left (by simp), hs.first rfl rfl⟩
  case true.true =>
    have ht := h rfl rfl
    rw [evaluator_1_1]
    refine iff_of_true (cnd_1_1_right h₁ h₂ ht) ⟨fun h₀ => ?_, nofun, nofun⟩
    exact absurd (ht.symm.trans h₀) Nat.one_ne_zero

end FindEval

end Expr

end Pmie
