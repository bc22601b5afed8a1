import PcpModel.Library.CInt
import PcpModel.Library.Memory
import PcpModel.Pmapi.Header

-- The result that is put together from the values of an import (import.c, stuff.c).
namespace Import

open Pcp

abbrev Str := List UInt8

def dupMetricName : Int :=
  -20001

def dupMetricId : Int :=
  -20002

def dupInstName : Int :=
  -20003

def dupInstId : Int :=
  -20004

def instNotNull : Int :=
  -20005

def instNull : Int :=
  -20006

def badHandle : Int :=
  -20007

def dupValue : Int :=
  -20008

def badType : Int :=
  -20009

def badSem : Int :=
  -20010

def noData : Int :=
  -20011

def pmiDomain : Nat :=
  245

inductive PmType
  | i32
  | u32
  | i64
  | u64
  | float
  | double
  | string
  | other
  deriving DecidableEq

inductive Valfmt
  | insitu
  | dptr
  deriving DecidableEq

def PmType.valfmt : PmType → Valfmt
  | .i32 | .u32 => .insitu
  | _ => .dptr

-- The field `vlen` of a value block has 24 bits.
inductive Value
  | insitu (lval : Int)
  | dptr (vtype : PmType) (vlen : Nat) (vbuf : List UInt8)
  deriving DecidableEq

section Convert

def isSpace (c : UInt8) : Bool :=
  c = 32 ∨ 9 ≤ c ∧ c ≤ 13

def isDigit (c : UInt8) : Bool :=
  48 ≤ c ∧ c ≤ 57

def digits (l : Str) : Nat :=
  l.foldl (fun n c => 10 * n + (c.toNat - 48)) 0

-- The sign and the absolute value of a number that reaches up to the end of a string.
def scan (value : Str) : Option (Bool × Nat) :=
  let l := value.dropWhile isSpace
  let neg := l.head? = some 45
  let l := if l.head? = some 45 ∨ l.head? = some 43 then l.tail else l
  if l.takeWhile isDigit = [] then
    if value = [] then some (false, 0) else none
  else if l.dropWhile isDigit = [] then
    some (neg, digits (l.takeWhile isDigit))
  else
    none

-- strtol and strtoll, where `long` has 64 bits.
def strtol (value : Str) : Option Int :=
  (scan value).map fun r =>
    if r.1 then max (-r.2) (-0x8000000000000000) else min r.2 0x7fffffffffffffff

def strtoul (value : Str) : Option Nat :=
  (scan value).map fun r =>
    if 0xffffffffffffffff < r.2 then 0xffffffffffffffff
    else if r.1 then (0x10000000000000000 - r.2) % 0x10000000000000000
    else r.2

-- The bytes of the numbers that strtof and strtod return, if these reach up to the end of a string.
structure Floats where
  strtof : Str → Option (Vector UInt8 4)
  strtod : Str → Option (Vector UInt8 8)

def bytes64 (n : Nat) : List UInt8 :=
  Memory.le (n % 0x100000000) ++ Memory.le (n / 0x100000000)

def block (vtype : PmType) (data : List UInt8) : Value :=
  .dptr vtype ((data.length + 4) % 0x1000000) data

-- The number has to reach up to the end of the string.
def conv : Option Value → Except Int Value
  | none => .error pmErrConv
  | some v => .ok v

variable (fl : Floats) (value : Str)

def convert (type : PmType) : Except Int Value :=
  match type with
  | .i32 => conv ((strtol value).map fun n => .insitu (CInt.int n))
  | .u32 => conv ((strtoul value).map fun n => .insitu (CInt.int n))
  | .i64 => conv ((strtol value).map fun n => block .i64 (bytes64 (n % 0x10000000000000000).toNat))
  | .u64 => conv ((strtoul value).map fun n => block .u64 (bytes64 n))
  | .float => conv ((fl.strtof value).map fun v => block .float v.toList)
  | .double => conv ((fl.strtod value).map fun v => block .double v.toList)
  | .string => .ok (block .string (value ++ [0]))
  | .other => .error pmErrType

end Convert

structure ValueSet where
  pmid : Nat
  numval : Int
  valfmt : Valfmt
  vlist : List (Int × Value)
  deriving DecidableEq

-- The format is set together with the first value.
def ValueSet.fresh (pmid : Nat) : ValueSet where
  pmid := pmid
  numval := 1
  valfmt := .insitu
  vlist := []

structure Metric where
  name : Str
  pmid : Nat
  type : PmType
  indom : Nat

structure Indom where
  indom : Nat
  inst : List (Str × Int)

structure Handle where
  midx : Nat
  inst : Int

structure Context where
  result : Option (List ValueSet)
  metric : List Metric
  indom : List Indom
  handle : List Handle

section Stuff

variable (fl : Floats) (mp : Metric) (inst : Int) (value : Str)

-- The last element of the array is filled. If there is no value for it, then there is none at all.
def ValueSet.put (vsp : ValueSet) : Int × ValueSet :=
  let valfmt := if vsp.numval = 1 then mp.type.valfmt else vsp.valfmt
  match convert fl value mp.type with
  | .error sts => (sts, { vsp with valfmt, numval := sts })
  | .ok v => (0, { vsp with valfmt, vlist := vsp.vlist ++ [(inst, v)] })

-- Another value for a metric. The new size of the array is not negative, or memory is exhausted.
def ValueSet.add (vsp : ValueSet) : Option (Int × ValueSet) :=
  if mp.indom = pmIndomNull ∨ inst ∈ (vsp.vlist.take vsp.numval.toNat).map (·.1) then
    some (dupValue, vsp)
  else if vsp.numval + 1 < 1 then
    none
  else
    some ({ vsp with numval := vsp.numval + 1 }.put fl mp inst value)

-- The value goes into the value set of its metric, or into a new one at the end.
def stuffInto : List ValueSet → Option (Int × List ValueSet)
  | [] =>
    let r := (ValueSet.fresh mp.pmid).put fl mp inst value
    some (r.1, [r.2])
  | vsp :: l =>
    if vsp.pmid = mp.pmid then
      (vsp.add fl mp inst value).map fun r => (r.1, r.2 :: l)
    else
      (stuffInto l).map fun r => (r.1, vsp :: r.2)

end Stuff

namespace Context

variable (fl : Floats) (cur : Context)

def stuffValue (hp : Handle) (value : Str) : Option (Int × Context) := do
  let mp ← cur.metric[hp.midx]?
  let (sts, l) ← stuffInto fl mp hp.inst value (cur.result.getD [])
  return (sts, { cur with result := some l })

def sameInst (inst name : Str) : Prop :=
  if 32 ∈ inst then name.take (inst.idxOf 32 + 1) = inst.take (inst.idxOf 32 + 1) else name = inst

instance : Decidable (sameInst inst name) :=
  inferInstanceAs (Decidable (ite ..))

def makeHandle (name : Str) (inst : Option Str) : Except Int Handle :=
  let inst := inst.filter (· ≠ [])
  match cur.metric.findIdx? (·.name = name) with
  | none => .error pmErrName
  | some m =>
    let indom := (cur.metric[m]?.map (·.indom)).getD pmIndomNull
    match inst with
    | none => if indom = pmIndomNull then .ok ⟨m, pmInNull⟩ else .error instNull
    | some inst =>
      if indom = pmIndomNull then .error instNotNull else
        match cur.indom.find? (·.indom = indom) with
        | none => .error pmErrIndom
        | some idp =>
          match idp.inst.find? (sameInst inst ·.1) with
          | none => .error pmErrInst
          | some j => .ok ⟨m, j.2⟩

def putValue (name : Str) (inst : Option Str) (value : Str) : Option (Int × Context) :=
  match cur.makeHandle name inst with
  | .error sts => some (sts, cur)
  | .ok hp => cur.stuffValue fl hp value

def putValueHandle (handle : Int) (value : Str) : Option (Int × Context) :=
  if handle ≤ 0 ∨ handle > cur.handle.length then some (badHandle, cur) else do
    let hp ← cur.handle[handle.toNat - 1]?
    cur.stuffValue fl hp value

def getHandle (name : Str) (inst : Option Str) : Int × Context :=
  match cur.makeHandle name inst with
  | .error sts => (sts, cur)
  | .ok hp => (cur.handle.length + 1, { cur with handle := cur.handle ++ [hp] })

def addMetric (name : Str) (pmid : Nat) (type : PmType) (indom : Nat) (sem : Int) : Int × Context :=
  match cur.metric.find? fun mp => mp.name = name ∨ mp.pmid = pmid with
  | some mp => (if mp.name = name then dupMetricName else dupMetricId, cur)
  | none =>
    if type = .other then (badType, cur)
    else if sem ∉ [1, 3, 4] then (badSem, cur)
    else
      let pmid :=
        if pmid = pmIdNull then pmiDomain <<< 22 + (cur.metric.length + 1) % 1024 else pmid
      (0, { cur with metric := cur.metric ++ [{ name, pmid, type, indom }] })

def addInstance (indom : Nat) (name : Str) (inst : Int) : Int × Context :=
  let idp := (cur.indom.find? (·.indom = indom)).getD { indom, inst := [] }
  match idp.inst.find? fun j => sameInst name j.1 ∨ inst = j.2 with
  | some j => (if sameInst name j.1 then dupInstName else dupInstId, cur)
  | none =>
    let idp := { idp with inst := idp.inst ++ [(name, inst)] }
    let l := if cur.indom.any (·.indom = indom) then cur.indom else cur.indom ++ [idp]
    (0, { cur with indom := l.map fun d => if d.indom = indom then idp else d })

def write : Int × Context :=
  if cur.result.isNone then (noData, cur) else (0, { cur with result := none })

end Context

end Import
