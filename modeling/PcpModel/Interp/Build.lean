import PcpModel.Interp.Basic
import PcpModel.Interp.Counter
import PcpModel.Pmapi.Header

-- How the result of an interpolated fetch is filled, for one metric (interp.c).
namespace Interp

open List Pcp

-- All types that the loop does not know are `other`.
inductive PmType
  | i32
  | u32
  | i64
  | u64
  | float
  | double
  | string
  | aggregate
  | event
  | other
  deriving DecidableEq

def PmType.Arithmetic (type : PmType) : Prop :=
  type ∈ [i32, u32, i64, u64, float, double]

instance {type : PmType} : Decidable type.Arithmetic :=
  inferInstanceAs (Decidable (_ ∈ _))

inductive Val
  | lval (n : Int)
  | ll (n : Int)
  | real (x : ℚ)
  | bytes (l : List UInt8)
  deriving DecidableEq

def Val.int : Val → Int
  | lval n | ll n => n
  | _ => 0

def Val.rat : Val → ℚ
  | real x => x
  | _ => 0

-- What is read of a pmidcntl_t. There is no `sem` if it is none of the three that exist.
structure Request where
  type : PmType
  sem : Option Sem
  insitu : Bool
  numval : Int
  insts : List (InstCntl Val)

-- What is written to an element of `vlist`. A value may be undefined, and `add` adds to a value.
inductive Field
  | inst (n : Int)
  | value (v : Option Val)
  | add (n : Int)
  deriving DecidableEq

structure Write where
  slot : Int
  field : Field
  deriving DecidableEq

namespace Request

variable (r : Request) (dowrap : Bool) (tReq : Int) (icp : InstCntl Val)

def Qualifies : Prop :=
  ¬icp.mPrior ∧ icp.tPrior ≠ noTime ∧ icp.tPrior ≤ tReq ∧
  (r.sem ≠ some .discrete → ¬icp.mNext ∧ icp.tNext ≠ noTime ∧ icp.tNext ≥ tReq)

instance : Decidable (r.Qualifies tReq icp) :=
  inferInstanceAs (Decidable (_ ∧ _))

def count (numval : Int) (icp : InstCntl Val) : Int :=
  if ¬icp.inresult then numval
  else if ¬r.Qualifies tReq icp then numval - 1
  else if r.sem = some .counter ∧ ¬r.type.Arithmetic then pmErrType
  else numval

-- From the instances that are wanted, the ones without a value are taken out.
def qualify : Request where
  type := r.type
  sem := r.sem
  insitu := r.insitu
  numval := r.insts.foldl (r.count tReq) (r.insts.countP (·.inresult))
  insts := r.insts.map fun icp =>
    { icp with inresult := icp.inresult && decide (r.Qualifies tReq icp) }

inductive Choice
  | prior
  | next
  | interpolate
  | nothing
  deriving DecidableEq

def choose : Choice :=
  if icp.tPrior = tReq then .prior
  else if icp.tNext = tReq then .next
  else
    match r.sem with
    | some .discrete => if icp.tPrior ≥ 0 then .prior else .nothing
    | some .instant => if icp.tPrior ≥ 0 ∧ icp.tNext ≥ 0 then .prior else .nothing
    | _ => if icp.tPrior ≥ 0 ∧ icp.tNext ≥ 0 then .interpolate else .nothing

def interpolate : Option Val := do
  let t : Span := ⟨icp.tPrior, tReq, icp.tNext⟩
  let prior ← icp.vPrior
  let next ← icp.vNext
  match r.type with
  | .i32 => (counter32 dowrap t prior.int next.int).map .lval
  | .u32 => (counterU32 dowrap t prior.int next.int).map .lval
  | .i64 => (counter64 dowrap t prior.int next.int).map .ll
  | .u64 => (counterU64 dowrap t prior.int next.int).map .ll
  | _ => some (.real (prior.rat + t.part (next.rat - prior.rat)))

def chosen : Option Val :=
  match r.choose tReq icp with
  | .prior => icp.vPrior
  | .next => icp.vNext
  | .interpolate => r.interpolate dowrap tReq icp
  | .nothing => none

def lval (v : Option Val) : Int :=
  (v.map Val.int).getD 0

-- For the type 32, the lower bound is added separately.
def Wraps : Prop :=
  r.type = .i32 ∧ r.choose tReq icp = .interpolate ∧ dowrap ∧ lval icp.vNext < lval icp.vPrior

instance : Decidable (r.Wraps dowrap tReq icp) :=
  inferInstanceAs (Decidable (_ ∧ _))

-- A word is written if there is one.
def putInsitu (i : Int) : Int × List Write :=
  if r.choose tReq icp = .nothing then
    (i, [])
  else if r.Wraps dowrap tReq icp then
    (i + 1, [⟨i, .value (r.chosen dowrap tReq icp)⟩, ⟨i + 1, .add (lval icp.vPrior)⟩])
  else
    (i + 1, [⟨i, .value (r.chosen dowrap tReq icp)⟩])

-- A block is written first, and it is freed if there is nothing to be put into it.
def putBlock (i : Int) : Int × List Write :=
  let w := [⟨i, .value (r.chosen dowrap tReq icp)⟩]
  if r.choose tReq icp = .nothing then (i, w) else (i + 1, w)

def putBytes (i : Int) : Int × List Write :=
  if icp.tPrior ≥ 0 then (i + 1, [⟨i, .value icp.vPrior⟩]) else (i - 1, [])

def putValue (i : Int) : Int × List Write :=
  match r.type with
  | .i32 | .u32 => r.putInsitu dowrap tReq icp i
  | .float =>
    if r.insitu then r.putInsitu dowrap tReq icp i else r.putBlock dowrap tReq icp i
  | .i64 | .u64 | .double => r.putBlock dowrap tReq icp i
  | .string | .aggregate | .event => putBytes icp i
  | .other => (i - 1, [])

def put (i : Int) : Int × List Write :=
  let p := r.putValue dowrap tReq icp i
  (p.1, ⟨i, .inst icp.inst⟩ :: p.2)

-- The slot behind the last one that was filled, and everything that has been written.
def putAll : Int → List (InstCntl Val) → Int × List Write
  | i, [] => (i, [])
  | i, icp :: l =>
    let p := r.put dowrap tReq icp i
    let q := putAll p.1 l
    (q.1, p.2 ++ q.2)

def wanted : List (InstCntl Val) :=
  r.insts.filter (·.inresult)

def build : Int × List Write :=
  if r.numval > 0 then r.putAll dowrap tReq 0 r.wanted else (0, [])

def stored : Option Val :=
  match r.type with
  | .string | .aggregate | .event => icp.vPrior
  | _ => r.chosen dowrap tReq icp

def slots : Int → List (InstCntl Val) → List Write
  | _, [] => []
  | i, icp :: l =>
    ⟨i, .inst icp.inst⟩ :: ⟨i, .value (r.stored dowrap tReq icp)⟩ :: slots (i + 1) l

structure Filled : Prop where
  slot : ∀ w ∈ (r.build dowrap tReq).2, 0 ≤ w.slot ∧ w.slot < r.numval
  exact : (r.build dowrap tReq).2 = if r.numval > 0 then r.slots dowrap tReq 0 r.wanted else []
  ended : r.numval > 0 → (r.build dowrap tReq).1 = r.numval

def Fills : Prop :=
  match r.type with
  | .other => False
  | .string | .aggregate | .event => 0 ≤ icp.tPrior
  | _ =>
    (icp.tPrior = tReq ∨ icp.tNext = tReq ∨ 0 ≤ icp.tPrior) ∧ ¬r.Wraps dowrap tReq icp

section Put

variable {r : Request} {dowrap : Bool} {tReq : Int} {icp : InstCntl Val}

theorem choose_eq_nothing (h : r.Qualifies tReq icp) : r.choose tReq icp = .nothing ↔
    ¬(icp.tPrior = tReq ∨ icp.tNext = tReq ∨ 0 ≤ icp.tPrior) := by
  obtain ⟨-, -, hp, hn⟩ := h
  unfold choose
  grind

theorem putInsitu_eq (hc : r.choose tReq icp ≠ .nothing) (hw : ¬r.Wraps dowrap tReq icp) :
    r.putInsitu dowrap tReq icp i = (i + 1, [⟨i, .value (r.chosen dowrap tReq icp)⟩]) := by
  rw [putInsitu, if_neg hc, if_neg hw]

theorem putBlock_eq (hc : r.choose tReq icp ≠ .nothing) :
    r.putBlock dowrap tReq icp i = (i + 1, [⟨i, .value (r.chosen dowrap tReq icp)⟩]) :=
  if_neg hc

theorem fills_iff (ha : r.type.Arithmetic) (h : r.Qualifies tReq icp) :
    r.Fills dowrap tReq icp ↔ r.choose tReq icp ≠ .nothing ∧ ¬r.Wraps dowrap tReq icp := by
  rw [Ne, choose_eq_nothing h, not_not, Fills]
  split
  case h_1 ht => simp [ht, PmType.Arithmetic] at ha
  case h_2 ht => simp [ht, PmType.Arithmetic] at ha
  case h_3 ht => simp [ht, PmType.Arithmetic] at ha
  case h_4 ht => simp [ht, PmType.Arithmetic] at ha
  case h_5 => rfl

-- A slot is filled as it should be, or else the index does not move on or the next slot is changed.
theorem putValue_eq (h : r.Qualifies tReq icp) (hf : r.Fills dowrap tReq icp) (i : Int) :
    r.putValue dowrap tReq icp i = (i + 1, [⟨i, .value (r.stored dowrap tReq icp)⟩]) := by
  by_cases ha : r.type.Arithmetic
  case pos =>
    obtain ⟨hc, hw⟩ := (fills_iff ha h).mp hf
    have hs : r.stored dowrap tReq icp = r.chosen dowrap tReq icp := by
      rw [stored]
      split <;> simp_all [PmType.Arithmetic]
    rw [putValue]
    split
    all_goals simp_all [PmType.Arithmetic, putInsitu_eq hc hw, putBlock_eq hc]
  case neg =>
    rw [putValue, stored]
    rw [Fills] at hf
    split <;> simp_all [PmType.Arithmetic, putBytes]

theorem putValue_ne (h : r.Qualifies tReq icp) (hf : ¬r.Fills dowrap tReq icp) (i : Int) :
    (r.putValue dowrap tReq icp i).1 ≤ i ∨ r.putValue dowrap tReq icp i =
      (i + 1, [⟨i, .value (r.stored dowrap tReq icp)⟩, ⟨i + 1, .add (lval icp.vPrior)⟩]) := by
  by_cases ha : r.type.Arithmetic
  case pos =>
    have hc : r.choose tReq icp = .nothing ∨ r.Wraps dowrap tReq icp := by
      rwa [fills_iff ha h, not_and_or, not_not, not_not] at hf
    obtain hc | hw := hc
    case inl =>
      rw [putValue, putInsitu, putBlock]
      cases r.insitu <;> split <;> simp_all [PmType.Arithmetic]
    case inr =>
      have hn : r.choose tReq icp ≠ .nothing := by simp [hw.right.left]
      simp [putValue, putInsitu, stored, hn, hw, hw.left]
  case neg =>
    rw [putValue]
    rw [Fills] at hf
    split <;> simp_all [PmType.Arithmetic, putBytes, not_le.mpr]

end Put

section Loop

variable {r : Request} {dowrap : Bool} {tReq : Int} {icp : InstCntl Val}
  {l : List (InstCntl Val)}

theorem put_le (h : r.Qualifies tReq icp) (i : Int) : (r.put dowrap tReq icp i).1 ≤ i + 1 := by
  by_cases hf : r.Fills dowrap tReq icp
  case pos => simp [put, putValue_eq h hf]
  case neg =>
    obtain hl | he := putValue_ne h hf i
    · exact hl.trans (by simp)
    · simp [put, he]

theorem putAll_le (h : ∀ icp ∈ l, r.Qualifies tReq icp) (i : Int) :
    (r.putAll dowrap tReq i l).1 ≤ i + l.length := by
  induction l generalizing i
  case nil => simp [putAll]
  case cons icp l hi =>
    have hp : (r.put dowrap tReq icp i).1 ≤ i + 1 := put_le (h icp (by simp)) i
    have hl := hi (fun icp hm => h icp (by simp [hm])) (r.put dowrap tReq icp i).1
    simp only [putAll, length_cons]
    omega

-- The index has moved on for every instance, and nothing else has been written.
theorem putAll_iff (h : ∀ icp ∈ l, r.Qualifies tReq icp) (i : Int) :
    r.putAll dowrap tReq i l = (i + l.length, r.slots dowrap tReq i l) ↔
      ∀ icp ∈ l, r.Fills dowrap tReq icp := by
  induction l generalizing i
  case nil => simp [putAll, slots]
  case cons icp l hi =>
    have hq := h icp (by simp)
    have hl : ∀ icp ∈ l, r.Qualifies tReq icp := fun icp hm => h icp (by simp [hm])
    rw [forall_mem_cons, ← hi hl (i + 1)]
    by_cases hf : r.Fills dowrap tReq icp
    case pos =>
      simp only [putAll, put, putValue_eq hq hf, slots, hf, true_and, Prod.ext_iff,
        cons_append, nil_append, cons.injEq, length_cons]
      rw [Nat.cast_succ, add_right_comm, add_assoc]
    case neg =>
      refine iff_of_false (fun he => ?_) (fun hc => hf hc.left)
      have hi := congrArg Prod.fst he
      have hw := congrArg Prod.snd he
      obtain hle | hp := putValue_ne hq hf i
      case inl =>
        -- The index cannot catch up.
        have hl : (r.putAll dowrap tReq (r.put dowrap tReq icp i).1 l).1 ≤ _ := putAll_le hl _
        simp only [putAll, put, length_cons] at hi hl
        omega
      case inr =>
        -- What has been added to the next slot is in the way of the next instance.
        simp only [putAll, put, hp, slots, cons_append, cons.injEq] at hw
        cases l <;> simp [slots] at hw

end Loop

section Qualify

variable {r : Request} {dowrap : Bool} {tReq : Int} {icp : InstCntl Val}
  {l : List (InstCntl Val)}

theorem foldl_count_neg (h : n < 0) : l.foldl (r.count tReq) n < 0 := by
  induction l generalizing n
  case nil => exact h
  case cons icp l hi =>
    refine hi ?_
    rw [count]
    split_ifs <;> grind [pmErrType]

theorem foldl_count (r : Request) (tReq : Int) (l : List (InstCntl Val)) (n : Int) :
    l.foldl (r.count tReq) (n + l.countP (·.inresult)) =
      n + l.countP (fun icp => icp.inresult && decide (r.Qualifies tReq icp)) ∨
    l.foldl (r.count tReq) (n + l.countP (·.inresult)) < 0 := by
  induction l generalizing n
  case nil => simp
  case cons icp l hi =>
    rw [foldl_cons, count, countP_cons, countP_cons]
    by_cases hr : icp.inresult
    case neg => simpa [hr] using hi n
    case pos =>
      by_cases hq : r.Qualifies tReq icp
      case neg => simpa [hr, hq, ← add_assoc] using hi n
      case pos =>
        by_cases he : r.sem = some .counter ∧ ¬r.type.Arithmetic
        case pos =>
          simp only [hr, hq, he, not_true, not_false_iff, and_self, if_true, if_false]
          exact .inr (foldl_count_neg (by decide))
        case neg =>
          have hs := hi (n + 1)
          simp only [hr, hq, he, not_true, decide_true, Bool.and_self, if_true]
          push_cast
          rwa [← add_assoc, add_right_comm, ← add_assoc, add_right_comm n _ 1]

theorem qualify_numval (h : (r.qualify tReq).numval > 0) :
    (r.qualify tReq).numval = (r.qualify tReq).wanted.length := by
  have hw : (r.qualify tReq).wanted.length =
      r.insts.countP (fun icp => icp.inresult && decide (r.Qualifies tReq icp)) := by
    rw [wanted, ← countP_eq_length_filter, qualify, countP_map]
    rfl
  have hc := foldl_count r tReq r.insts 0
  rw [zero_add] at hc
  have hn : (r.qualify tReq).numval = _ := hc.resolve_right (not_lt.mpr h.le)
  rw [hn, hw, zero_add]

theorem qualify_wanted (h : icp ∈ (r.qualify tReq).wanted) :
    (r.qualify tReq).Qualifies tReq icp := by
  obtain ⟨hm, hr⟩ := mem_filter.mp h
  obtain ⟨icp, -, rfl⟩ := mem_map.mp hm
  exact of_decide_eq_true (Bool.and_eq_true_iff.mp hr).right

theorem slots_bounds (r : Request) (dowrap : Bool) (tReq i : Int) (l : List (InstCntl Val)) :
    ∀ w ∈ r.slots dowrap tReq i l, i ≤ w.slot ∧ w.slot < i + l.length := by
  induction l generalizing i
  case nil => simp [slots]
  case cons icp l hi =>
    have hl := hi (i + 1)
    simp only [slots, mem_cons, length_cons]
    rintro w (rfl | rfl | hw)
    · simp only; omega
    · simp only; omega
    · have := hl w hw
      omega

end Qualify

-- For every metric, with any instances that are wanted, and any type and semantics.
theorem build_filled (r : Request) (dowrap : Bool) (tReq : Int) :
    (r.qualify tReq).Filled dowrap tReq ↔
      ((r.qualify tReq).numval > 0 →
        ∀ icp ∈ (r.qualify tReq).wanted, (r.qualify tReq).Fills dowrap tReq icp) := by
  by_cases hn : (r.qualify tReq).numval > 0
  case neg =>
    have hb : (r.qualify tReq).build dowrap tReq = (0, []) := if_neg hn
    refine iff_of_true ⟨?_, ?_, fun h => absurd h hn⟩ fun h => absurd h hn
    · simp [hb]
    · rw [hb, if_neg hn]
  case pos =>
    have hb : (r.qualify tReq).build dowrap tReq = _ := if_pos hn
    have hl := qualify_numval hn
    rw [imp_iff_right hn, ← putAll_iff (fun _ => qualify_wanted) 0, zero_add, ← hl, ← hb]
    constructor
    · intro h
      exact Prod.ext (h.ended hn) (h.exact.trans (if_pos hn))
    · intro h
      have hs := slots_bounds (r.qualify tReq) dowrap tReq 0 (r.qualify tReq).wanted
      rw [zero_add, ← hl] at hs
      exact ⟨by rwa [h], by rw [h, if_pos hn], fun _ => by rw [h]⟩

def between (inst : Int) (prior next : Val) : InstCntl Val where
  inst := inst
  want := true
  unbound := false
  search := false
  inresult := true
  tPrior := 0
  mPrior := false
  vPrior := some prior
  tNext := 2000000
  mNext := false
  vNext := some next
  tFirst := noTime
  tLast := noTime

def unknown : Request where
  type := .other
  sem := some .instant
  insitu := false
  numval := 2
  insts := [between 1 (.bytes []) (.bytes []), between 2 (.bytes []) (.bytes [])]

def wrapped : Request where
  type := .i32
  sem := some .counter
  insitu := true
  numval := 1
  insts := [between 1 (.lval 10) (.lval 4)]

-- The second instance writes in front of the first slot, and the counter behind its only one.
theorem build_unfilled : ¬(unknown.qualify 1000000).Filled false 1000000 ∧
    ¬(wrapped.qualify 1000000).Filled true 1000000 := by
  constructor
  · intro h
    exact absurd (h.slot ⟨-1, .inst 2⟩ (by decide +kernel)) (by decide +kernel)
  · intro h
    exact absurd (h.slot ⟨1, .add 10⟩ (by decide +kernel)) (by decide +kernel)

end Request

end Interp
