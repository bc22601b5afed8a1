import PcpModel.Library.Latest
import PcpModel.Library.Grouping
import PcpModel.Extract.Basic
import PcpModel.Library.Run
import PcpModel.Pmapi.Header

-- The metadata of pmlogextract with one input archive. It is written when a record needs it.
namespace Extract

open Pcp

structure Units where
  dimSpace : Int
  dimTime : Int
  dimCount : Int
  scaleSpace : Int
  scaleTime : Int
  scaleCount : Int
  deriving DecidableEq

structure Desc where
  pmid : Nat
  type : Int
  indom : Nat
  sem : Int
  units : Units
  deriving DecidableEq

structure Pdu (β : Type) where
  stamp : Stamp
  insts : β
  deriving DecidableEq

inductive Meta (β : Type)
  | desc (d : Desc)
  | indom (indom : Nat) (p : Pdu β)
  deriving DecidableEq

structure DescRec where
  desc : Desc
  pdu : Bool
  written : Bool
  deriving DecidableEq

-- An element of the list of instance domains. There may be no record for an instance domain.
structure IndomRec (β : Type) where
  indom : Nat
  pdu : Option (Pdu β)
  written : Bool
  deriving DecidableEq

variable {β : Type}

def mkReclist : DescRec :=
  ⟨⟨pmIdNull, -1, pmIndomNull, 0, ⟨0, 0, 0, 0, 0, 0⟩⟩, false, false⟩

def findnaddIndomreclist (indom : Nat) : List (IndomRec β) → List (IndomRec β)
  | [] => [⟨indom, none, false⟩]
  | n :: l => if n.indom = indom then n :: l else n :: findnaddIndomreclist indom l

def appendIndomreclist (indom : Nat) (p : Pdu β) : List (IndomRec β) → List (IndomRec β)
  | [] => [⟨indom, some p, false⟩]
  | n :: l =>
    if n.indom = indom then
      match n.pdu with
      | none => { n with pdu := some p } :: l
      | some _ => n :: ⟨indom, some p, false⟩ :: l
    else
      n :: appendIndomreclist indom p l

def updateDescreclist (d : Desc) : List DescRec → Option (Bool × List DescRec)
  | [] => some (true, [⟨d, true, false⟩])
  | n :: l =>
    if n.desc.pmid = d.pmid then
      if n.desc.type = d.type ∧ n.desc.indom = d.indom ∧ n.desc.sem = d.sem ∧
          n.desc.units = d.units then
        some (false, n :: l)
      else
        none
    else
      (updateDescreclist d l).map fun (b, l) => (b, n :: l)

structure Lists (β : Type) where
  rdesc : List DescRec
  rindom : List (IndomRec β)
  out : List (Meta β)
  deriving DecidableEq

namespace Lists

def nextmeta (s : Lists β) : Meta β → Option (Lists β)
  | .desc d =>
    match updateDescreclist d (if s.rdesc.isEmpty then [mkReclist] else s.rdesc) with
    | none => none
    | some (false, rdesc) => some { s with rdesc }
    | some (true, rdesc) =>
      some { s with rdesc, rindom := findnaddIndomreclist d.indom s.rindom }
  | .indom i p => some { s with rindom := appendIndomreclist i p s.rindom }

def load (metas : List (Meta β)) : Option (Lists β) :=
  Run.exec nextmeta ⟨[], [], []⟩ metas

-- Finds the latest record of an instance domain that has not been written.
def othrIndom (this : Stamp) (indom : Nat) :
    Nat → Option (Nat × Pdu β) → List (IndomRec β) → Option (Nat × Pdu β)
  | _, othr, [] => othr
  | i, othr, n :: l =>
    if n.indom = indom then
      othrIndom this indom (i + 1)
        (match n.written, n.pdu with
        | true, _ => othr
        | false, none => othr
        | false, some p =>
          if p.stamp ≤ this then
            match othr with
            | none => some (i, p)
            | some (_, q) => if q.stamp ≤ p.stamp then some (i, p) else othr
          else
            othr) l
    else
      othr

-- What is written gets the time of the data record.
def writeIndom (this : Stamp) (indom : Nat) (s : Lists β) : Lists β :=
  let first := s.rindom.findIdx (·.indom = indom)
  match othrIndom this indom first none (s.rindom.drop first) with
  | none => s
  | some (i, p) =>
    { s with
      rindom := s.rindom.modify i fun n => { n with pdu := none, written := true }
      out := s.out ++ [.indom indom { p with stamp := this }] }

def writeMetric (s : Lists β) (v : Stamp × Nat) : Option (Lists β) :=
  let i := s.rdesc.findIdx (·.desc.pmid = v.2)
  match s.rdesc[i]? with
  | none => none
  | some n =>
    let next (s : Lists β) :=
      if n.desc.indom = pmIndomNull then s else s.writeIndom v.1 n.desc.indom
    if n.written then
      some (next s)
    else if n.pdu then
      some <| next { s with
        rdesc := s.rdesc.modify i fun n => { n with pdu := false, written := true }
        out := s.out ++ [.desc n.desc] }
    else
      none

def metrics (r : Record (List Nat)) : List (Stamp × Nat) :=
  r.vset.map (r.stamp, ·)

def writeMetareclist (s : Lists β) (r : Record (List Nat)) : Option (Lists β) :=
  Run.exec writeMetric s (metrics r)

end Lists

end Extract
