import Mathlib.Algebra.GroupWithZero.Nat
import PcpModel.InstProfile.Basic
import PcpModel.Pmapi.Header

-- Fetches through local contexts (fetchlocal.c). A PMDA keeps the profile last passed to it.
-- The source passes a pointer: a PMDA with domain 0 may also see later changes of the profile.
namespace LocalFetch

open Pcp
open InstProfile (Profile InDom Instlist pmAddProfile pmDelProfile)

def domain (pmid : Nat) : Nat :=
  pmid / 2 ^ 22 % 2 ^ 9

-- `sent` is the last domain to which a profile was passed.
structure Context where
  instprof : Profile
  sent : Nat

def Context.new : Context where
  instprof := ⟨.include, []⟩
  sent := 0

structure ValueSet where
  pmid : Nat
  numval : Int

structure Reply where
  profile : Int
  fetch : List Nat → Int × List ValueSet
  valid : ∀ l, 0 ≤ (fetch l).1 → (fetch l).2.map (·.pmid) = l

abbrev Passed := Nat × Profile

structure Call where
  ctx : Nat
  domain : Nat
  passed : Option Passed
  instprof : Profile
  deriving DecidableEq

def Call.Fresh (c : Call) : Prop :=
  c.passed = some (c.ctx, c.instprof)

instance {c : Call} : Decidable c.Fresh :=
  inferInstanceAs (Decidable (_ = _))

section Fetch

variable (dso : Nat → Bool) (replies : Nat → Reply) (h : Nat) (pmidlist : List Nat)

structure Turn where
  ctx : Context
  passed : Nat → Option Passed
  calls : List Call
  vset : List (Option ValueSet)

def sendProfile (d : Nat) (s : Turn) : Turn × Int :=
  if s.ctx.sent ≠ d then
    let passed := Function.update s.passed d (some (h, s.ctx.instprof))
    let sts := (replies d).profile
    if 0 ≤ sts then
      ({ s with passed, ctx := { s.ctx with sent := d } }, sts)
    else
      ({ s with passed }, sts)
  else
    (s, 0)

def callFetch (d : Nat) (splitlist : List Nat) (s : Turn) : Turn × Int × List ValueSet :=
  ({ s with calls := s.calls ++ [⟨h, d, s.passed d, s.ctx.instprof⟩] }, (replies d).fetch splitlist)

def fetchDomain (d : Nat) (splitlist : List Nat) (s : Turn) : Turn × Int × List ValueSet :=
  if dso d then
    let r := sendProfile replies h d s
    if 0 ≤ r.2 then callFetch replies h d splitlist r.1 else (r.1, r.2, [])
  else
    -- based on domain, unknown PMDA
    (s, pmErrNoagent, [])

-- The value sets of a domain go to where its metrics are in the list.
def copyBack (sts : Int) : List Nat → List (Option ValueSet) → List Nat → List ValueSet →
    List (Option ValueSet)
  | p :: ps, v :: vs, q :: qs, as =>
    if p = q then
      (if sts < 0 then some ⟨p, sts⟩ else as.head?) :: copyBack sts ps vs qs as.tail
    else
      v :: copyBack sts ps vs (q :: qs) as
  | _, vs, _, _ => vs

def turn (s : Turn) (j : Nat) : Turn :=
  match pmidlist[j]?, s.vset[j]? with
  | some pmid, some none =>
    let splitlist := (pmidlist.drop j).filter (domain · = domain pmid)
    let r := fetchDomain dso replies h (domain pmid) splitlist s
    { r.1 with
      vset := r.1.vset.take j ++
        copyBack r.2.1 (pmidlist.drop j) (r.1.vset.drop j) splitlist r.2.2 }
  | _, _ => s -- picked up in a previous fetch

def turns (s : Turn) : Turn :=
  (List.range pmidlist.length).foldl (turn dso replies h pmidlist) s

end Fetch

-- The contexts, of which `none` are free ones, and what the PMDAs hold.
structure Table where
  contexts : List (Option Context)
  passed : Nat → Option Passed
  calls : List Call

namespace Table

def new : Table where
  contexts := []
  passed := fun _ => none
  calls := []

def context (t : Table) (h : Nat) : Option Context :=
  t.contexts[h]?.join

-- The first free context is used again.
def newContext (t : Table) : Table :=
  match t.contexts.findIdx? (·.isNone) with
  | some i => { t with contexts := t.contexts.set i (some .new) }
  | none => { t with contexts := t.contexts ++ [some .new] }

-- Neither the state of the profile nor the number of its entries is copied.
def dupContext (h : Nat) (t : Table) : Table :=
  match t.context h with
  | some _ => t.newContext
  | none => t

def destroyContext (h : Nat) (t : Table) : Table :=
  { t with contexts := t.contexts.set h none }

-- The flag tells whether the profile has to be sent again.
def setProfile (f : InstProfile.Context → InstProfile.Context × Int) (h : Nat) (t : Table) :
    Table :=
  match t.context h with
  | some c =>
    let r := (f ⟨c.instprof, true⟩).1
    let c' := ⟨r.instprof, if r.sent then c.sent else 0⟩
    { t with contexts := t.contexts.set h (some c') }
  | none => t

def start (c : Context) (pmidlist : List Nat) (t : Table) : Turn where
  ctx := c
  passed := t.passed
  calls := t.calls
  vset := pmidlist.map fun _ => none

def finish (h : Nat) (s : Turn) (t : Table) : Table where
  contexts := t.contexts.set h (some s.ctx)
  passed := s.passed
  calls := s.calls

def fetchLocal (dso : Nat → Bool) (replies : Nat → Reply) (h : Nat) (pmidlist : List Nat)
    (t : Table) : Table × Except Int (List (Option ValueSet)) :=
  match t.context h with
  | none => (t, .error pmErrNocontext)
  | some c =>
    if pmidlist.length < 1 then
      (t, .error pmErrToosmall)
    else
      let s := turns dso replies h pmidlist (t.start c pmidlist)
      (t.finish h s, .ok s.vset)

end Table

inductive Op
  | newContext
  | dupContext (h : Nat)
  | destroyContext (h : Nat)
  | addProfile (h : Nat) (indom : InDom) (l : Instlist)
  | delProfile (h : Nat) (indom : InDom) (l : Instlist)
  | fetch (h : Nat) (pmidlist : List Nat) (replies : Nat → Reply)

def step (dso : Nat → Bool) (t : Table) : Op → Table
  | .newContext => t.newContext
  | .dupContext h => t.dupContext h
  | .destroyContext h => t.destroyContext h
  | .addProfile h indom l => t.setProfile (pmAddProfile · indom l) h
  | .delProfile h indom l => t.setProfile (pmDelProfile · indom l) h
  | .fetch h pmidlist replies => (t.fetchLocal dso replies h pmidlist).1

end LocalFetch
