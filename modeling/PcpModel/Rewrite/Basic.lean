import PcpModel.Pmapi.Header

-- The rewriting of instance domains and of the values of metrics by pmlogrewrite.
namespace Rewrite

open Pcp

abbrev Str := List UInt8

-- 0 for no match, 1 for a match to the first space, 2 for a complete match and -1 for empty names
def instNameEq (p q : Str) : Int :=
  if p = [] ∨ q = [] then -1 else go p q
where
  go : Str → Str → Int
    | [], [] => 2
    | [], d :: _ => if d = 32 then 1 else 0
    | c :: _, [] => if c = 32 then 1 else 0
    | c :: p, d :: q =>
      if c = 32 then if d = 32 then 1 else 0
      else if d = 32 then 0
      else if c ≠ d then 0
      else go p q

inductive Act
  | change (inst : Option Int) (iname : Option Str)
  | delete
  deriving DecidableEq

structure Inst where
  oldInst : Int
  oldIname : Str
  act : Act

structure Indomspec where
  oldIndom : Nat
  newIndom : Nat
  inst : List Inst

structure Archive where
  hashpmid : List (Nat × Nat)
  hashindom : List (Nat × List (Int × Str))
  unique : ∀ d ∈ hashindom, (d.2.map Prod.fst).Nodup

def startIndom (arch : Archive) (root : List Indomspec) (indom : Nat) : List Indomspec :=
  if root.any (·.oldIndom = indom) then root else
    match arch.hashindom.find? (·.1 = indom) with
    | none => root
    | some d => ⟨indom, indom, d.2.map fun v => ⟨v.1, v.2, .change none none⟩⟩ :: root

-- `none` if there is a duplicate or conflicting clause.
def Inst.changeByName (new : Option Str) (e : Inst) : Option Inst :=
  match e.act, new with
  | .change none none, none => some { e with act := .delete }
  | .change inst none, some new =>
    some (if new = e.oldIname then e else { e with act := .change inst (some new) })
  | _, _ => none

def Inst.changeByInst (new : Int) (e : Inst) : Option Inst :=
  match e.act with
  | .change none iname =>
    if new = pmInNull then
      if iname = none then some { e with act := .delete } else none
    else
      some (if new = e.oldInst then e else { e with act := .change (some new) iname })
  | _ => none

-- The first instance that matches is changed.
def changeFirst (p : Inst → Bool) (f : Inst → Option Inst) : List Inst → Option (List Inst)
  | [] => some []
  | e :: l => if p e then (f e).map (· :: l) else (changeFirst p f l).map (e :: ·)

def changeInstByName (old : Str) (new : Option Str) (ip : Indomspec) : Option Indomspec :=
  (changeFirst (instNameEq ·.oldIname old > 0) (·.changeByName new) ip.inst).map
    ({ ip with inst := · })

def changeInstByInst (old new : Int) (ip : Indomspec) : Option Indomspec :=
  (changeFirst (·.oldInst = old) (·.changeByInst new) ip.inst).map ({ ip with inst := · })

-- The check for a second change is made for the first specification of the list.
inductive Clause
  | indom (new : Nat)
  | iname (old : Str) (new : Option Str)
  | inst (old new : Int)

def Clause.apply (root : List Indomspec) (ip : Indomspec) : Clause → Option Indomspec
  | .indom new =>
    if root.head?.any fun ip => ip.newIndom ≠ ip.oldIndom then none
    else some (if new = ip.oldIndom then ip else { ip with newIndom := new })
  | .iname old new => changeInstByName old new ip
  | .inst old new => changeInstByInst old new ip

def parseClause (arch : Archive) (root : List Indomspec) (c : Nat × Clause) :
    Option (List Indomspec) :=
  let root := startIndom arch root c.1
  root.mapM fun ip => if ip.oldIndom = c.1 then c.2.apply root ip else some ip

def parse (arch : Archive) (clauses : List (Nat × Clause)) : Option (List Indomspec) :=
  clauses.foldlM (parseClause arch) []

structure Metricspec (α : Type) where
  pmid : Nat
  indom : Nat
  newPmid : Option Nat
  newIndom : Option Nat
  delete : Bool
  pick : List (Int × α) → List (Int × α)
  conv : α → α

structure Linked (α : Type) extends Metricspec α where
  ip : Option Indomspec

section Link

variable {α : Type}

def startMetric (ms : List (Linked α)) (pmid indom : Nat) : List (Linked α) :=
  if ms.any (·.pmid = pmid) then ms else
    { pmid, indom, newPmid := none, newIndom := none, delete := false, pick := id, conv := id,
      ip := none } :: ms

def Indomspec.change (ip : Indomspec) : Bool :=
  ip.inst.any (·.act ≠ .change none none)

-- `none` if the metric has been given another instance domain.
def Linked.link (ip : Indomspec) (mp : Linked α) : Option (Linked α) :=
  if mp.indom ≠ ip.oldIndom then some mp else
    let mp := if ip.change then { mp with ip := some ip } else mp
    if ip.newIndom = ip.oldIndom then some mp else
      match mp.newIndom with
      | some d => if d = ip.newIndom then some mp else none
      | none => some { mp with newIndom := some ip.newIndom }

def linkEntry (arch : Archive) (ms : List (Linked α)) (ip : Indomspec) : Option (List (Linked α)) :=
  if !ip.change && ip.newIndom = ip.oldIndom then some ms else
    (arch.hashpmid.foldl (fun ms d => startMetric ms d.1 d.2) ms).mapM (Linked.link ip)

def linkEntries (arch : Archive) (root : List Indomspec) (ms : List (Metricspec α)) :
    Option (List (Linked α)) :=
  root.foldlM (linkEntry arch) (ms.map ({ · with ip := none }))

end Link

section Check

variable {α : Type}

def Inst.newInst (e : Inst) : Int :=
  match e.act with
  | .change (some inst) _ => inst
  | _ => e.oldInst

def Inst.newIname (e : Inst) : Str :=
  match e.act with
  | .change _ (some iname) => iname
  | _ => e.oldIname

-- The new instance domain of a metric is in the output archive.
def checkMetric (arch : Archive) (root : List Indomspec) (mp : Linked α) : Bool :=
  mp.ip.isSome ||
    match mp.newIndom with
    | none => true
    | some d => d = pmIndomNull || arch.hashindom.any fun node =>
        match root.find? (·.oldIndom = mp.indom) with
        | none => node.1 = d
        | some ip => ip.newIndom ≠ ip.oldIndom && ip.newIndom = d

def checkInsts (l : List Inst) : Bool :=
  l.zipIdx.all fun a => l.zipIdx.all fun b => a.2 = b.2 ||
    (a.1.newInst ≠ b.1.newInst && !(instNameEq a.1.newIname b.1.newIname > 0))

def checkIndoms (arch : Archive) (root : List Indomspec) (ms : List (Linked α)) : Bool :=
  ms.all (checkMetric arch root) && root.all (checkInsts ·.inst)

end Check

structure Indom where
  indom : Nat
  inst : List (Int × Str)

-- The first instance with the old identifier is deleted or changed.
def Inst.apply (e : Inst) : List (Int × Str) → List (Int × Str)
  | [] => []
  | v :: l =>
    if e.oldInst = v.1 then
      match e.act with
      | .delete => l
      | .change inst iname => (inst.getD v.1, iname.getD v.2) :: l
    else
      v :: e.apply l

def Indomspec.apply (ip : Indomspec) (l : List (Int × Str)) : List (Int × Str) :=
  ip.inst.foldl (fun l e => e.apply l) l

-- The specifications that follow are compared with the new instance domain.
def doIndom (root : List Indomspec) (r : Indom) : Indom :=
  root.foldl
    (fun r ip => if ip.oldIndom ≠ r.indom then r else ⟨ip.newIndom, ip.apply r.inst⟩) r

structure ValueSet (α : Type) where
  pmid : Nat
  vlist : List (Int × α)

section DoResult

variable {α : Type}

-- All values with the old identifier are changed, and the first of them is deleted.
def Inst.applyValues (e : Inst) (l : List (Int × α)) : List (Int × α) :=
  match e.act with
  | .delete => l.eraseP fun v => v.1 = e.oldInst
  | .change (some inst) _ => l.map fun v => if v.1 = e.oldInst then (inst, v.2) else v
  | .change none _ => l

def Indomspec.applyValues (ip : Indomspec) (l : List (Int × α)) : List (Int × α) :=
  ip.inst.foldl (fun l e => e.applyValues l) l

def Linked.applyValues (mp : Linked α) (l : List (Int × α)) : List (Int × α) :=
  match mp.ip with
  | none => l
  | some ip => ip.applyValues l

def Linked.rewrite (mp : Linked α) (vsp : ValueSet α) : Option (ValueSet α) :=
  if mp.delete then none else
    let l := if mp.newIndom.isSome ∧ vsp.vlist ≠ [] then mp.pick vsp.vlist else vsp.vlist
    some ⟨mp.newPmid.getD vsp.pmid, (mp.applyValues l).map fun v => (v.1, mp.conv v.2)⟩

-- The value sets of the metrics that are not deleted. `none` if there is nothing left to write.
def doResult (ms : List (Linked α)) (vset : List (ValueSet α)) : Option (List (ValueSet α)) :=
  let l := vset.filterMap fun vsp =>
    match ms.find? (·.pmid = vsp.pmid) with
    | none => some vsp
    | some mp => mp.rewrite vsp
  if vset = [] ∨ l ≠ [] then some l else none

end DoResult

end Rewrite
