import Mathlib.Data.List.Sort
import PcpModel.Import.Basic
import PcpModel.Pmapi.Header

-- The archives of several imports (import.c, archive.c). Writing to them does not fail.
namespace Import

open Pcp

deriving instance DecidableEq for Metric, Indom

def eexist : Int :=
  17

def pmLogMaxhostlen : Nat :=
  64

def pmTzMaxlen : Nat :=
  40

structure Result where
  timestamp : Timeval
  vset : List ValueSet
  deriving DecidableEq

inductive Metadata
  | desc (mp : Metric)
  | indom (stamp : Timeval) (idp : Indom)
  deriving DecidableEq

structure Label where
  hostname : Str
  timezone : Str
  start : Timeval
  deriving DecidableEq

structure Entry where
  stamp : Timeval
  metadata : Nat
  log : Nat
  deriving DecidableEq

structure Archive where
  label : Label
  metadata : List Metadata
  log : List Result
  index : List Entry
  deriving DecidableEq

def Archive.putIndex (lcp : Archive) (stamp : Timeval) : Archive :=
  { lcp with index := lcp.index ++ [⟨stamp, lcp.metadata.length, lcp.log.length⟩] }

-- The marks `meta_done` of the metrics by their position, and of the instance domains.
structure Done where
  metric : List Nat
  indom : List Nat

inductive Stage
  | start
  | active
  | ended
  deriving DecidableEq

structure Writer where
  ctx : Context
  stage : Stage
  archive : Str
  hostname : Option Str
  timezone : Option Str
  done : Done
  logctl : Option Archive

-- What is outside of the contexts: `static stamp` and the archives that exist.
structure Shared where
  stamp : Timeval
  files : List Str

-- The name and the time zone of the host on which the import runs.
structure Host where
  hostname : Str
  timezone : Str

inductive Action
  | setHostname (value : Str)
  | setTimezone (value : Str)
  | addMetric (name : Str) (pmid : Nat) (type : PmType) (indom : Nat) (sem : Int)
  | addInstance (indom : Nat) (name : Str) (inst : Int)
  | getHandle (name : Str) (inst : Option Str)
  | putValue (name : Str) (inst : Option Str) (value : Str)
  | putValueHandle (handle : Int) (value : Str)
  | write (sec usec : Int) (now : Timeval)
  | putResult (result : Result)
  | finish

-- The calls that change what is the current context, and the ones that are about this context.
inductive Call
  | start (archive : Str) (inherit : Bool)
  | useContext (context : Int)
  | act (a : Action)

-- pmSortInstances
def ValueSet.sortInstances (vsp : ValueSet) : ValueSet :=
  if 1 < vsp.numval then
    { vsp with vlist := vsp.vlist.insertionSort fun a b => CInt.int (a.1 - b.1) ≤ 0 }
  else
    vsp

def Result.sortInstances (rp : Result) : Result :=
  { rp with vset := rp.vset.map ValueSet.sortInstances }

namespace Done

variable (d : Done × List Metadata)

def putDesc (m : Nat) (mp : Metric) : Done × List Metadata :=
  if m ∈ d.1.metric then d else
    ({ d.1 with metric := m :: d.1.metric }, d.2 ++ [.desc mp])

def putIndom (stamp : Timeval) (idp : Indom) : Done × List Metadata :=
  if idp.indom ∈ d.1.indom then d else
    ({ d.1 with indom := idp.indom :: d.1.indom }, d.2 ++ [.indom stamp idp])

-- The metric is the first one with the identifier. No two instance domains are the same.
def describe (cur : Context) (stamp : Timeval) (vsp : ValueSet) : Done × List Metadata :=
  let m := cur.metric.findIdx (·.pmid = vsp.pmid)
  match cur.metric[m]? with
  | none => d
  | some mp =>
    let d := putDesc d m mp
    if mp.indom = pmIndomNull then d else
      match cur.indom.find? (·.indom = mp.indom) with
      | none => d
      | some idp => putIndom d stamp idp

end Done

namespace Writer

def fresh (archive : Str) : Writer where
  ctx := { result := none, metric := [], indom := [], handle := [] }
  stage := .start
  archive := archive
  hostname := none
  timezone := none
  done := ⟨[], []⟩
  logctl := none

def inherit (old : Writer) (archive : Str) : Writer :=
  { fresh archive with ctx := { old.ctx with result := none } }

variable (fl : Floats) (host : Host) (cur : Writer) (sh : Shared)

-- __pmLogCreate and the three labels. There is no room for a long time zone in the label.
def logCreate (start : Timeval) : Option Archive :=
  let timezone := cur.timezone.getD host.timezone
  if timezone.length < pmTzMaxlen then
    let hostname := (cur.hostname.getD host.hostname).take (pmLogMaxhostlen - 1)
    some <| Archive.putIndex ⟨⟨hostname, timezone, start⟩, [], [], []⟩ start
  else
    none

-- The new metadata, an entry in the index if there is some, and the result.
def logResult (lcp : Archive) (rp : Result) : Writer :=
  let d := rp.vset.foldl (fun d vsp => Done.describe d cur.ctx rp.timestamp vsp) (cur.done, [])
  let lcp := { lcp with metadata := lcp.metadata ++ d.2 }
  let lcp := if d.2 = [] then lcp else lcp.putIndex rp.timestamp
  { cur with done := d.1, logctl := some { lcp with log := lcp.log ++ [rp] } }

-- _pmi_put_result. Without an archive, a file that is not open is used after pmiEnd.
def logPut (rp : Result) : Option (Int × Writer × Shared) :=
  let rp := rp.sortInstances
  let sh := { sh with stamp := rp.timestamp }
  if cur.stage = .start then
    if cur.archive ∈ sh.files then
      some (-eexist, cur, sh)
    else
      (cur.logCreate host rp.timestamp).map fun lcp =>
        (0, { cur with stage := .active }.logResult lcp rp,
          { sh with files := cur.archive :: sh.files })
  else
    cur.logctl.map fun lcp => (0, cur.logResult lcp rp, sh)

def setResult (result : Option (List ValueSet)) : Writer :=
  { cur with ctx := { cur.ctx with result } }

def update (r : Int × Context) : Int × Writer × Shared :=
  (r.1, { cur with ctx := r.2 }, sh)

-- A new instance marks the whole instance domain as needing to be written.
def addInstance (indom : Nat) (name : Str) (inst : Int) : Int × Writer × Shared :=
  let r := cur.ctx.addInstance indom name inst
  let d := { cur.done with indom := cur.done.indom.filter (· ≠ indom) }
  if r.1 = 0 then { cur with done := d }.update sh r else cur.update sh r

def write (sec usec : Int) (now : Timeval) : Option (Int × Writer × Shared) :=
  match cur.ctx.result with
  | none => some (noData, cur, sh)
  | some l =>
    let timestamp := if sec < 0 then now else ⟨sec, usec⟩
    (cur.logPut host sh ⟨timestamp, l⟩).map fun r => (r.1, r.2.1.setResult none, r.2.2)

-- The result of the caller is not used. The pending one has no time stamp yet, and it is kept.
def putResult : Option (Int × Writer × Shared) := do
  let rp : Result := ⟨⟨0, 0⟩, ← cur.ctx.result⟩
  let r ← cur.logPut host sh rp
  return (r.1, r.2.1.setResult (some rp.sortInstances.vset), r.2.2)

def finish : Int × Writer × Shared :=
  (0, { cur with stage := .ended, logctl := cur.logctl.map (·.putIndex sh.stamp) }, sh)

def act : Action → Option (Int × Writer × Shared)
  | .setHostname value => some (0, { cur with hostname := some value }, sh)
  | .setTimezone value => some (0, { cur with timezone := some value }, sh)
  | .addMetric name pmid type indom sem =>
    some <| cur.update sh (cur.ctx.addMetric name pmid type indom sem)
  | .addInstance indom name inst => some <| cur.addInstance sh indom name inst
  | .getHandle name inst => some <| cur.update sh (cur.ctx.getHandle name inst)
  | .putValue name inst value =>
    (cur.ctx.putValue fl name inst value).map (cur.update sh)
  | .putValueHandle handle value =>
    (cur.ctx.putValueHandle fl handle value).map (cur.update sh)
  | .write sec usec now => cur.write host sh sec usec now
  | .putResult _ => cur.putResult host sh
  | .finish => some <| cur.finish sh

end Writer

structure Imports where
  contexts : List Writer
  current : Option Nat
  shared : Shared

namespace Imports

def init (files : List Str) : Imports where
  contexts := []
  current := none
  shared := ⟨⟨0, 0⟩, files⟩

variable (fl : Floats) (host : Host) (s : Imports)

-- The lists are copied from the current context, or from memory that has not been set.
def start (archive : Str) (inherit : Bool) : Option (Int × Imports) := do
  let w ←
    match s.current with
    | none => if inherit then none else some (Writer.fresh archive)
    | some c => s.contexts[c]?.map fun old =>
        if inherit then old.inherit archive else Writer.fresh archive
  let contexts := s.contexts ++ [w]
  return (contexts.length, { s with contexts, current := some s.contexts.length })

def useContext (context : Int) : Int × Imports :=
  if context < 1 ∨ context > s.contexts.length then
    (pmErrNocontext, s)
  else
    (0, { s with current := some (context - 1).toNat })

def act (a : Action) : Option (Int × Imports) :=
  match s.current with
  | none => some (pmErrNocontext, s)
  | some c => do
    let (sts, w, shared) ← (← s.contexts[c]?).act fl host s.shared a
    return (sts, { s with contexts := s.contexts.set c w, shared })

def call : Call → Option (Int × Imports)
  | .start archive inherit => s.start archive inherit
  | .useContext context => some (s.useContext context)
  | .act a => s.act fl host a

def step (c : Call) : Option Imports :=
  (s.call fl host c).map (·.2)

def archives : List (Option Archive) :=
  s.contexts.map (·.logctl)

end Imports

end Import
