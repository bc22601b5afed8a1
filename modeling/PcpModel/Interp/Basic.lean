import PcpModel.Library.Logged
import PcpModel.Pmapi.Header

-- The bounds that are kept for interpolation (interp.c). Values are of any type.
namespace Interp

open Pcp

-- The time -1.0, the absence of a bound. Times are in microseconds since the start of the archive.
def noTime : Int :=
  -1000000

inductive Valfmt
  | insitu
  | dptr
  | sptr
  deriving DecidableEq

structure LogValue (V : Type) where
  inst : Int
  value : V
  deriving DecidableEq

-- There are no values if `numval` is not positive.
structure ValueSet (V : Type) where
  pmid : Nat
  valfmt : Valfmt
  vlist : List (LogValue V)
  deriving DecidableEq

structure Record (V : Type) where
  time : Int
  vset : List (ValueSet V)
  deriving DecidableEq

-- The lists that are linked by `want` and `unbound` are represented by membership.
structure InstCntl (V : Type) where
  inst : Int
  want : Bool
  unbound : Bool
  search : Bool
  inresult : Bool
  tPrior : Int
  mPrior : Bool
  vPrior : Option V
  tNext : Int
  mNext : Bool
  vNext : Option V
  tFirst : Int
  tLast : Int
  deriving DecidableEq

def InstCntl.new (inst : Int) : InstCntl V where
  inst := inst
  want := false
  unbound := false
  search := false
  inresult := false
  tPrior := noTime
  mPrior := true
  vPrior := none
  tNext := noTime
  mNext := true
  vNext := none
  tFirst := noTime
  tLast := noTime

inductive UpdMark
  | none
  | forw
  | back
  deriving DecidableEq

inductive Count
  | none
  | prior
  | next
  deriving DecidableEq

inductive Event (V : Type)
  | pin (v : V)
  | unpin (v : V)
  | found
  deriving DecidableEq

abbrev Update (V : Type) := InstCntl V → Logged (Event V) (InstCntl V)

open Logged

namespace InstCntl

-- `__pmUnpinPDUBuf`, unless the value is insitu or `NULL`.
def unpin (insitu : Bool) (v : Option V) : Logged (Event V) Unit :=
  tell <| if insitu then [] else v.toList.map .unpin

def pin (insitu : Bool) (v : Option V) : Logged (Event V) Unit :=
  tell <| if insitu then [] else v.toList.map .pin

-- A value that is insitu is not cleared by a mark.
def setPrior (insitu : Bool) (tThis : Int) (v : Option V) : Update V := fun icp => do
  unpin insitu icp.vPrior
  pin insitu v
  let vPrior := if insitu then v <|> icp.vPrior else v
  return { icp with tPrior := tThis, mPrior := v.isNone, vPrior }

-- Sets the upper bound to a value, or to a mark if there is none.
def setNext (insitu : Bool) (tThis : Int) (v : Option V) : Update V := fun icp => do
  unpin insitu icp.vNext
  pin insitu v
  let vNext := if insitu then v <|> icp.vNext else v
  return { icp with tNext := tThis, mNext := v.isNone, vNext }

-- Moves the lower bound to the upper one, but does not move the mark.
def shuffleToNext (insitu : Bool) (tReq : Int) : Update V := fun icp => do
  if icp.tPrior < icp.tNext ∧ icp.tPrior ≥ tReq then
    unpin insitu icp.vNext
    return { icp with tNext := icp.tPrior, vNext := icp.vPrior }
  else
    return icp

def shuffleToPrior (insitu : Bool) (tReq : Int) : Update V := fun icp => do
  if icp.tPrior < icp.tNext ∧ icp.tNext ≤ tReq then
    unpin insitu icp.vPrior
    return { icp with tPrior := icp.tNext, mPrior := icp.mNext, vPrior := icp.vNext }
  else
    return icp

def endSearch (counting : Bool) : Update V := fun icp => do
  if icp.search ∧ counting then
    tell [.found]
    return { icp with search := false }
  else
    return icp

def markPrior (insitu : Bool) (tReq tThis : Int) (count : Count) : Update V := fun icp => do
  if tThis ≤ tReq ∧ (tThis ≥ icp.tPrior ∨ icp.tPrior > tReq) then
    let icp ← icp.setPrior insitu tThis none
    icp.endSearch (count = .prior)
  else
    return icp

def markNext (insitu : Bool) (tReq tThis : Int) (count : Count) : Update V := fun icp => do
  if tThis ≥ tReq ∧ ((tThis ≤ icp.tNext ∨ icp.tNext < 0) ∨ icp.tNext < tReq) then
    let icp ← icp.setNext insitu tThis none
    icp.endSearch (count = .next)
  else
    return icp

def valuePrior (insitu : Bool) (tReq tThis : Int) (v : V) (count : Count) : Update V :=
  fun icp => do
    if tThis ≤ tReq ∧ (icp.tPrior > tReq ∨ tThis ≥ icp.tPrior) then
      let icp ← icp.shuffleToNext insitu tReq
      let icp ← icp.setPrior insitu tThis v
      icp.endSearch (count = .prior)
    else
      return icp

def valueNext (insitu : Bool) (tReq tThis : Int) (v : V) (count : Count) : Update V :=
  fun icp => do
    if tThis ≥ tReq ∧ (icp.tNext < tReq ∨ tThis ≤ icp.tNext) then
      let icp ← icp.shuffleToPrior insitu tReq
      let icp ← icp.setNext insitu tThis v
      icp.endSearch (count = .next)
    else
      return icp

def mark (insitu : Bool) (tReq tThis : Int) (count : Count) : Update V := fun icp => do
  let icp ← icp.markPrior insitu tReq tThis count
  icp.markNext insitu tReq tThis count

def value (insitu : Bool) (tReq tThis : Int) (v : V) (count : Count) : Update V := fun icp => do
  let icp ← icp.valuePrior insitu tReq tThis v count
  icp.valueNext insitu tReq tThis v count

def find (vlist : List (LogValue V)) (icp : InstCntl V) : Option V :=
  vlist.find? (fun v => v.inst = icp.inst ∨ icp.inst = pmInNull) |>.map (·.value)

def updateValue (insitu : Bool) (tReq tThis : Int) (vlist : List (LogValue V)) (count : Count) :
    Update V := fun icp =>
  match icp.find vlist with
  | none => return icp
  | some v => icp.value insitu tReq tThis v count

def updateMark (insitu : Bool) (tReq tThis : Int) (count : Count) : Update V := fun icp =>
  if icp.want then icp.mark insitu tReq tThis count else return icp

-- What `__pmLogResetInterp` does to an instance. The marks remain.
def reset (insitu : Bool) (tReq : Int) : Update V := fun icp => do
  if icp.tPrior > tReq ∨ icp.tNext < tReq then
    unpin insitu icp.vPrior
    unpin insitu icp.vNext
    return { icp with tPrior := noTime, tNext := noTime, vPrior := none, vNext := none }
  else
    return icp

def clear (icp : InstCntl V) : InstCntl V :=
  { icp with search := false, inresult := false, unbound := false, want := false }

def choose (inProfile : Bool) (icp : InstCntl V) : InstCntl V :=
  if inProfile then { icp with inresult := true, want := true } else { icp with inresult := false }

-- The part of an instance control that is not affected by the bounds.
structure Same (icp icp' : InstCntl V) : Prop where
  inst : icp'.inst = icp.inst
  want : icp'.want = icp.want
  unbound : icp'.unbound = icp.unbound
  inresult : icp'.inresult = icp.inresult
  tFirst : icp'.tFirst = icp.tFirst
  tLast : icp'.tLast = icp.tLast

namespace Same

variable {icp icp₁ icp₂ icp₃ : InstCntl V}

theorem refl : Same icp icp :=
  ⟨rfl, rfl, rfl, rfl, rfl, rfl⟩

theorem trans (h₁ : Same icp₁ icp₂) (h₂ : Same icp₂ icp₃) : Same icp₁ icp₃ where
  inst := h₂.inst.trans h₁.inst
  want := h₂.want.trans h₁.want
  unbound := h₂.unbound.trans h₁.unbound
  inresult := h₂.inresult.trans h₁.inresult
  tFirst := h₂.tFirst.trans h₁.tFirst
  tLast := h₂.tLast.trans h₁.tLast

theorem setPrior : Same icp (icp.setPrior b t v).val :=
  ⟨rfl, rfl, rfl, rfl, rfl, rfl⟩

theorem setNext : Same icp (icp.setNext b t v).val :=
  ⟨rfl, rfl, rfl, rfl, rfl, rfl⟩

theorem shuffleToNext : Same icp (icp.shuffleToNext b t).val := by
  unfold InstCntl.shuffleToNext
  split <;> exact ⟨rfl, rfl, rfl, rfl, rfl, rfl⟩

theorem shuffleToPrior : Same icp (icp.shuffleToPrior b t).val := by
  unfold InstCntl.shuffleToPrior
  split <;> exact ⟨rfl, rfl, rfl, rfl, rfl, rfl⟩

theorem endSearch : Same icp (icp.endSearch b).val := by
  unfold InstCntl.endSearch
  split <;> exact ⟨rfl, rfl, rfl, rfl, rfl, rfl⟩

theorem valuePrior : Same icp (icp.valuePrior b tReq tThis v c).val := by
  unfold InstCntl.valuePrior
  split
  case isTrue => exact shuffleToNext.trans <| setPrior.trans endSearch
  case isFalse => exact refl

theorem valueNext : Same icp (icp.valueNext b tReq tThis v c).val := by
  unfold InstCntl.valueNext
  split
  case isTrue => exact shuffleToPrior.trans <| setNext.trans endSearch
  case isFalse => exact refl

theorem value : Same icp (icp.value b tReq tThis v c).val :=
  valuePrior.trans valueNext

theorem updateValue : Same icp (icp.updateValue b tReq tThis vlist c).val := by
  unfold InstCntl.updateValue
  split
  · exact refl
  · exact value

theorem find_eq (h : Same icp icp') : icp'.find vlist = icp.find vlist := by
  simp [find, h.inst]

end Same

end InstCntl

inductive Sem
  | counter
  | instant
  | discrete
  deriving DecidableEq

-- A metric that is not in the archive has no descriptor.
structure Desc where
  type : Nat
  indom : Option Nat
  sem : Sem
  deriving DecidableEq

structure PmidCntl (V : Type) where
  pmid : Nat
  desc : Option Desc
  valfmt : Option Valfmt
  numval : Int
  insts : List (InstCntl V)
  deriving DecidableEq

namespace PmidCntl

def Insitu (pcp : PmidCntl V) : Prop :=
  pcp.valfmt = some .insitu

instance (pcp : PmidCntl V) : Decidable pcp.Insitu :=
  inferInstanceAs (Decidable (_ = _))

def sweep (f : Update V) (pcp : PmidCntl V) : Logged (Event V) (PmidCntl V) := do
  return { pcp with insts := ← Logged.sweep f pcp.insts }

def setValfmt (pcp : PmidCntl V) (vs : ValueSet V) : PmidCntl V :=
  if pcp.valfmt = none ∧ vs.vlist ≠ [] then { pcp with valfmt := vs.valfmt } else pcp

def updateValues (tReq tThis : Int) (count : Count) (vs : ValueSet V) (pcp : PmidCntl V) :
    Logged (Event V) (PmidCntl V) :=
  if pcp.pmid = vs.pmid then
    let pcp := pcp.setValfmt vs
    pcp.sweep <| InstCntl.updateValue pcp.Insitu tReq tThis vs.vlist count
  else
    return pcp

def updateMarks (tReq tThis : Int) (count : Count) (pcp : PmidCntl V) :
    Logged (Event V) (PmidCntl V) :=
  pcp.sweep <| InstCntl.updateMark pcp.Insitu tReq tThis count

def resetInterp (tReq : Int) (pcp : PmidCntl V) : Logged (Event V) (PmidCntl V) :=
  pcp.sweep <| InstCntl.reset pcp.Insitu tReq

-- The zeroth pass of `__pmLogFetchInterp`.
def clear (pcp : PmidCntl V) : PmidCntl V :=
  { pcp with insts := pcp.insts.map InstCntl.clear }

-- The first pass of `__pmLogFetchInterp`, for a metric that is known.
def choose (inProfile : Nat → Int → Bool) (pcp : PmidCntl V) : PmidCntl V :=
  match pcp.desc with
  | none => { pcp with numval := pmErrPmidLog }
  | some ⟨_, some indom, _⟩ => { pcp with
      numval := pcp.insts.countP (inProfile indom ·.inst)
      insts := pcp.insts.map fun icp => icp.choose (inProfile indom icp.inst) }
  | some ⟨_, none, _⟩ => { pcp with
      numval := 1
      insts := pcp.insts.modifyHead (·.choose true) }

end PmidCntl

-- The metrics of a context. There is one entry for each metric that has been asked for.
abbrev Metrics (V : Type) := List (PmidCntl V)

namespace Metrics

def updateBounds (tReq : Int) (logrp : Record V) (doMark : UpdMark) (count : Count)
    (ms : Metrics V) : Logged (Event V) (Metrics V) :=
  if logrp.vset = [] ∧ doMark ≠ .none then
    Logged.sweep (·.updateMarks tReq logrp.time count) ms
  else
    logrp.vset.foldlM (fun ms vs => Logged.sweep (·.updateValues tReq logrp.time count vs) ms) ms

def resetInterp (tReq : Int) (ms : Metrics V) : Logged (Event V) (Metrics V) :=
  Logged.sweep (·.resetInterp tReq) ms

-- The instances that a fetch asks for are the ones that it wants.
def want (pmids : List Nat) (inProfile : Nat → Int → Bool) (ms : Metrics V) : Metrics V :=
  ms.map fun pcp => if pcp.pmid ∈ pmids then pcp.clear.choose inProfile else pcp.clear

end Metrics

end Interp
