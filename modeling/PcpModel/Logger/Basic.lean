import PcpModel.Library.CInt
import PcpModel.Pmapi.Header

-- The archive of pmlogger (callback.c). pmlogger ends if a call fails.
namespace Logger

open Pcp

structure Desc where
  indom : Option Int
  event : Bool

-- A value set without its values. There is `none` instead of the instances if it has an error.
structure ValueSet where
  pmid : Nat
  insts : Option (List Int)
  events : List (List (List Nat))

def ValueSet.vlist (vsp : ValueSet) : List Int :=
  vsp.insts.getD []

structure Result where
  timestamp : Timeval
  vset : List ValueSet

inductive MetaRecord
  | desc (pmid : Nat)
  | indom (indom : Int) (stamp : Timeval) (instlist : List Int)
  deriving DecidableEq

-- A record of a data volume, for a result or for a mark.
structure Record where
  vol : Nat
  offset : Nat
  stamp : Timeval
  mark : Bool
  deriving DecidableEq

-- An entry of the temporal index. The position in the metadata is the number of records before it.
structure Entry where
  stamp : Timeval
  vol : Nat
  metadata : Nat
  log : Nat
  deriving DecidableEq

-- The records and entries are given with the last one first.
structure State where
  metadata : List MetaRecord
  records : List Record
  index : List Entry
  vol : Nat
  pos : Nat
  flushsize : Nat
  lastStamp : Timeval
  lastFetch : Nat → Option Result

def labelSize : Nat :=
  132

structure Fetch where
  changed : Bool
  newfile : Bool
  size : Nat
  result : Result
  task : List Nat
  pmGetInDom : Int → Option (List Int)

section Metadata

-- __localLogGetInDom: the last record of the instance domain.
def logGetInDom (indom : Int) : List MetaRecord → Option (Timeval × List Int)
  | [] => none
  | .desc _ :: rs => logGetInDom indom rs
  | .indom i stamp insts :: rs => if i = indom then some (stamp, insts) else logGetInDom indom rs

-- check_inst
def checkInst (vsp : ValueSet) (hint : Nat) (lrp : Result) : Bool :=
  match (lrp.vset[hint]?.filter (·.pmid = vsp.pmid)).or (lrp.vset.find? (·.pmid = vsp.pmid)) with
  | none => false
  | some lvsp =>
    lvsp.vlist.length ≠ vsp.vlist.length ||
      (lvsp.vlist.zip vsp.vlist).any fun (l, i) => l ≠ i && i ∉ lvsp.vlist

def needIndom (stamp : Timeval) (last : Option Result) (metadata : List MetaRecord) (hint : Nat)
    (vsp : ValueSet) (indom : Int) : Bool :=
  match logGetInDom indom metadata with
  | none => vsp.vlist ≠ []
  | some (istamp, insts) =>
    vsp.vlist.any (· ∉ insts) ||
      last.any fun lrp => stamp.total < istamp.total && checkInst vsp hint lrp

def putDesc (pmid : Nat) (metadata : List MetaRecord) : List MetaRecord :=
  if .desc pmid ∈ metadata then metadata else .desc pmid :: metadata

-- do_events: an instance without records is the last one.
def doEvents : List (List (List Nat)) → List MetaRecord → List MetaRecord
  | [], m => m
  | [] :: _, m => m
  | records :: rest, m => doEvents rest (records.flatten.foldl (fun m p => putDesc p m) m)

variable (desc : Nat → Desc) (f : Fetch) (last : Option Result)

def logDesc (vsp : ValueSet) (metadata : List MetaRecord) : List MetaRecord :=
  let m := putDesc vsp.pmid metadata
  if (desc vsp.pmid).event then doEvents vsp.events m else m

def logInDom (hint : Nat) (vsp : ValueSet) (metadata : List MetaRecord) :
    Option (List MetaRecord × Bool) :=
  match (desc vsp.pmid).indom with
  | none => some (metadata, false)
  | some indom =>
    if vsp.vlist ≠ [] ∧ needIndom f.result.timestamp last metadata hint vsp indom then do
      let insts ← f.pmGetInDom indom
      some (.indom indom f.result.timestamp insts :: metadata, true)
    else
      some (metadata, false)

-- One value set of the result. Its descriptor has to be in the archive or in the cache of the task.
def logValueSet (hint : Nat) (vsp : ValueSet) (metadata : List MetaRecord) :
    Option (List MetaRecord × Bool) :=
  if .desc vsp.pmid ∉ metadata ∧ vsp.pmid ∉ f.task then none
  else logInDom desc f last hint vsp (logDesc desc vsp metadata)

def logValueSets (hint : Nat) : List ValueSet → List MetaRecord →
    Option (List MetaRecord × Bool)
  | [], metadata => some (metadata, false)
  | vsp :: vs, metadata => do
    let (m, needti) ← logValueSet desc f last hint vsp metadata
    let (m, needti') ← logValueSets (hint + 1) vs m
    some (m, needti || needti')

end Metadata

namespace State

variable (s : State)

-- putmark
def putmark : State :=
  if s.lastStamp.sec = 0 ∧ s.lastStamp.usec = 0 then s
  else
    let usec := s.lastStamp.usec + 1000
    let stamp :=
      if usec > 1000000 then ⟨s.lastStamp.sec + 1, usec - 1000000⟩ else ⟨s.lastStamp.sec, usec⟩
    { s with records := ⟨s.vol, s.pos, stamp, true⟩ :: s.records, pos := s.pos + 20 }

-- newvolume
def newvolume : State :=
  { s with vol := s.vol + 1, pos := labelSize }

def putResult (f : Fetch) : State :=
  { s with
    records := ⟨s.vol, s.pos, f.result.timestamp, false⟩ :: s.records
    pos := s.pos + f.size }

-- The state in which the result of a fetch is written.
def ready (f : Fetch) : State :=
  let s' := if f.changed then s.putmark else s
  if s'.pos + f.size > 0x7fffffff ∧ f.newfile then s'.newvolume else s'

def putIndex (f : Fetch) (last metadata : Nat) : State :=
  { s with
    index := ⟨f.result.timestamp, s.vol, metadata, last⟩ :: s.index
    flushsize := s.pos + 100000 }

-- The result was written at the offset `last`, and `metadata` has what is needed for it.
def finish (group : Nat) (f : Fetch) (last : Nat) (metadata : List MetaRecord) (needti : Bool) :
    State :=
  let s' := { s with
    metadata
    lastStamp := f.result.timestamp
    lastFetch := fun g => if g = group then some f.result else s.lastFetch g }
  if needti || s.pos > s.flushsize || last = 0 || last = labelSize then
    s'.putIndex f last s.metadata.length
  else
    s'

def fetch (desc : Nat → Desc) (group : Nat) (f : Fetch) : Option State :=
  let last := (s.ready f).pos
  if last > CInt.intMax then none
  else do
    let s := (s.ready f).putResult f
    let (m, needti) ← logValueSets desc f (s.lastFetch group) 0 f.result.vset s.metadata
    some (s.finish group f last m needti)

def cleanup (group : Nat) : State :=
  { s with lastFetch := fun g => if g = group then none else s.lastFetch g }

end State

-- do_preamble writes the record of pmlogger itself.
def preamble (epoch : Timeval) (pid : Int) (size : Nat) : State where
  metadata := [.desc 0x800c02, .desc 0x800c00, .indom 0x800001 epoch [pid], .desc 0x800c03]
  records := [⟨0, labelSize, epoch, false⟩]
  index := [⟨epoch, 0, 0, labelSize⟩]
  vol := 0
  pos := labelSize + size
  flushsize := 100000
  lastStamp := epoch
  lastFetch := fun _ => none

inductive Op
  | fetch (group : Nat) (f : Fetch)
  | cleanup (group : Nat)
  | newvolume

def step (desc : Nat → Desc) (s : State) : Op → Option State
  | .fetch group f => s.fetch desc group f
  | .cleanup group => s.cleanup group
  | .newvolume => s.newvolume

end Logger
