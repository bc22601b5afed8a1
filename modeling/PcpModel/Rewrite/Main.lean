import PcpModel.Rewrite.Basic

-- The main loop of pmlogrewrite.
namespace Pcp.Timeval

def After (s t : Timeval) : Prop :=
  s.sec > t.sec ∨ s.sec = t.sec ∧ s.usec > t.usec

instance : Decidable (After s t) :=
  inferInstanceAs (Decidable (_ ∨ _))

def word (t : Timeval) : Timeval :=
  ⟨t.sec % 0x100000000, t.usec % 0x100000000⟩

end Pcp.Timeval

namespace Rewrite

open Pcp

-- The time clause of the global specification.
structure Global where
  change : Bool
  time : Timeval

-- The sign of a delta is put on the seconds. Without a time clause, the delta is zero.
def Global.ofDelta (neg : Bool) (sec usec : Nat) : Global where
  change := ¬(sec = 0 ∧ usec = 0)
  time := ⟨if neg then -sec else sec, usec⟩

-- The second component tells whether the time has been changed.
def fixstamp (global : Global) (t : Timeval) : Timeval × Bool :=
  let sec := global.time.sec
  if global.change ∧ sec > 0 then
    let usec := t.usec + global.time.usec
    (if usec > 1000000 then ⟨t.sec + sec + 1, usec - 1000000⟩ else ⟨t.sec + sec, usec⟩, true)
  else if global.change ∧ sec < 0 then
    let usec := t.usec - global.time.usec
    (if usec < 0 then ⟨t.sec + sec - 1, usec + 1000000⟩ else ⟨t.sec + sec, usec⟩, true)
  else
    (t, false)

inductive Meta
  | desc (pmid : Nat)
  | indom (stamp : Timeval) (r : Indom)

structure Record (α : Type) where
  stamp : Timeval
  vset : List (ValueSet α)

-- What is written, together with the times in the input to which it corresponds.
inductive Event (α : Type)
  | desc (pmid : Nat)
  | indom (old : Timeval) (r : Indom) (new : Timeval) (r' : Indom)
  | label (old new : Timeval)
  | index (old new : Timeval)
  | data (r : Record α) (new : Timeval) (vset : List (ValueSet α))

structure Spec (α : Type) where
  global : Global
  root : List Indomspec
  metric : List (Linked α)

variable {α : Type} (spec : Spec α)

def Spec.deleted (pmid : Nat) : Bool :=
  match spec.metric.find? (·.pmid = pmid) with
  | none => false
  | some mp => mp.delete

def doDesc (pmid : Nat) : List (Event α) :=
  if spec.deleted pmid then [] else [.desc pmid]

-- `metas` starts with the record that waits, `ti` with the next entry of the index.
structure State where
  stamp : Option Timeval
  metas : List Meta
  ti : List Timeval
  needti : Bool
  doneti : Bool
  first : Bool
  last : Option (Timeval × Timeval)

structure MetaLoop (α : Type) where
  events : List (Event α)
  needti : Bool
  stamp : Option Timeval
  metas : List Meta

-- The metadata up to an instance domain that is later, or a metric that is not in the data record.
def metaLoop (rp : Timeval) (pmids : List Nat) : Option Timeval → List Meta → MetaLoop α
  | _, [] => ⟨[], false, none, []⟩
  | _, .desc pmid :: l =>
    if pmid ∈ pmids then
      let m := metaLoop rp pmids none l
      { m with events := doDesc spec pmid ++ m.events }
    else
      ⟨[], false, none, .desc pmid :: l⟩
  | stamp, .indom old r :: l =>
    let f := fixstamp spec.global (stamp.getD old)
    let new := if f.2 then f.1.word else stamp.getD old
    if f.1.After rp then
      ⟨[], false, some new, .indom old r :: l⟩
    else
      let m := metaLoop rp pmids none l
      { m with events := .indom old r new (doIndom spec.root r) :: m.events, needti := true }

def State.step (s : State) (r : Record α) : State × List (Event α) :=
  let hit := s.ti.head? = some r.stamp
  let rp := (fixstamp spec.global r.stamp).1
  let m := metaLoop spec rp (r.vset.map (·.pmid)) s.stamp s.metas
  let needti := s.needti || hit || m.needti || s.first
  let label := if s.first then [.label r.stamp rp.word] else []
  let index := if needti then [.index r.stamp rp.word] else []
  let data := ((doResult spec.metric r.vset).map (.data r rp.word)).toList
  let s := {
    stamp := m.stamp
    metas := m.metas
    ti := if hit then s.ti.tail else s.ti
    needti := r.vset.isEmpty
    doneti := needti
    first := false
    last := some (r.stamp, rp.word) }
  (s, m.events ++ label ++ index ++ data)

-- Without a data record, the time of the last entry has not been set.
def State.finish (s : State) : Option (List (Event α)) :=
  if s.doneti then some [] else s.last.map fun t => [.index t.1 t.2]

def State.run (s : State) : List (Record α) → Option (List (Event α))
  | [] => s.finish
  | r :: l => (State.run (s.step spec r).1 l).map ((s.step spec r).2 ++ ·)

def State.start (metas : List Meta) (ti : List Timeval) : State where
  stamp := none
  metas := metas
  ti := ti
  needti := false
  doneti := false
  first := true
  last := none

end Rewrite
