import PcpModel.Pmcd.Split
import PcpModel.Pmcd.Wait
import PcpModel.Pmapi.Header

-- What pmcd asks its name space (pmns.c) and its agents for.
namespace Pmcd.Names

open Pcp

abbrev Name := List UInt8

abbrev Failure := { sts : Int // sts < 0 }

def epipe : Int :=
  32

def ebadf : Int :=
  9

def mapErrno (sts : Int) : Int :=
  if sts = -ebadf ∨ sts = -epipe then pmErrIpc else sts

theorem mapErrno_neg (h : sts < 0) : mapErrno sts < 0 := by
  simp only [mapErrno]
  split
  · decide
  · exact h

def dynamicPmid : Nat :=
  511

def cluster (pmid : Nat) : Nat :=
  (pmid >>> 10) % 4096

def item (pmid : Nat) : Nat :=
  pmid % 1024

-- The root of a subtree that is known to an agent only. The domain of the agent is in `cluster`.
def IsDynamic (pmid : Nat) : Prop :=
  domain pmid = dynamicPmid ∧ item pmid = 0

instance : DecidablePred IsDynamic := fun _ => inferInstanceAs (Decidable (_ ∧ _))

-- The name "" is the one of the root.
def join (name child : Name) : Name :=
  if name = [] then child else name ++ 46 :: child

-- What pmNameAll, pmLookupName and pmGetChildrenStatus return. The tree is finite.
structure NameSpace where
  nameAll : Nat → Except Failure (List Name)
  lookupName : List Name → Int × List Nat
  children : Name → Except Failure (List Name × List Int)
  depth : Name → Nat
  lookup_length : ∀ l, (lookupName l).2.length = l.length
  children_length : ∀ name l, children name = .ok l → l.2.length = l.1.length
  depth_lt : ∀ name l, children name = .ok l → ∀ c ∈ l.1, depth (join name c) < depth name
  child : ∀ name l, children name = .ok l → ∀ c ∈ l.1, ∃ l', children (join name c) = .ok l'

namespace NameSpace

variable (ns : NameSpace)

-- What pmLookupName returns for a single name.
def lookupStatus (name : Name) : Int :=
  (ns.lookupName [name]).1

def lookupId (name : Name) : Nat :=
  (ns.lookupName [name]).2.headD pmIdNull

-- The children are visited in order, until there is an error. `sts` is the status of the last
-- visit.
def visit (f : Name → Int × List Name) (sts : Int) : List Name → Int × List Name
  | [] => (sts, [])
  | c :: cs =>
    let r := f c
    if r.1 < 0 then r else
      let r' := visit f r.1 cs
      (r'.1, r.2 ++ r'.2)

-- TraversePMNS_local: the status and the names that the callback is called for.
def traverseLocal : (fuel : Nat) → Name → Int × List Name
  | 0, _ => (0, [])
  | fuel + 1, name =>
    match ns.children name with
    | .error sts => (sts, [])
    | .ok l =>
      if l.1 = [] then (0, [name]) else visit (fun c => traverseLocal fuel (join name c)) 0 l.1

def traverse (name : Name) : Int × List Name :=
  ns.traverseLocal (ns.depth name + 1) name

variable {ns}

theorem visit_ok (hne : cs ≠ []) (h : ∀ c ∈ cs, (f c).1 = 0 ∧ (f c).2 ≠ []) :
    (visit f sts cs).1 = 0 ∧ (visit f sts cs).2 ≠ [] := by
  induction cs generalizing sts
  case nil => contradiction
  case cons c cs hi =>
    obtain ⟨⟨hc, hc'⟩, hcs⟩ := List.forall_mem_cons.mp h
    simp only [visit, hc, Int.lt_irrefl]
    refine ⟨?_, by simp [hc']⟩
    cases cs
    case nil => rfl
    case cons => exact (hi (by simp) hcs).left

-- More fuel than the depth of a node is enough.
theorem traverseLocal_ok (hc : ns.children name = .ok l) (hf : ns.depth name < fuel) :
    (ns.traverseLocal fuel name).1 = 0 ∧ (ns.traverseLocal fuel name).2 ≠ [] := by
  induction fuel generalizing name l
  case zero => contradiction
  case succ fuel hi =>
    simp only [traverseLocal, hc]
    split
    case isTrue => simp
    case isFalse hne =>
      refine visit_ok hne fun c hm => ?_
      obtain ⟨l', hl'⟩ := ns.child name l hc c hm
      have := ns.depth_lt name l hc c hm
      exact hi hl' (by omega)

theorem traverse_ok (h : ns.children name = .ok l) :
    (ns.traverse name).1 = 0 ∧ (ns.traverse name).2 ≠ [] :=
  traverseLocal_ok h (Nat.lt_succ_self _)

theorem traverse_error (h : ns.children name = .error sts) : ns.traverse name = (sts.val, []) := by
  simp [traverse, traverseLocal, h]

end NameSpace

structure AgentInfo where
  pmDomainId : Nat
  isDso : Bool
  pmdaInterface : Nat
  connected : Bool
  notReady : Bool

-- The names and statuses that a PDU_PMNS_NAMES has, or that a DSO returns. An array may be missing.
structure NameList where
  names : Option (List Name)
  status : Option (List Int)
  status_length : ∀ l ∈ status, l.length = (names.getD []).length

def NameList.num (l : NameList) : Nat :=
  (l.names.getD []).length

def NameList.bare (names : Option (List Name)) : NameList where
  names
  status := none
  status_length l h := absurd h (Option.not_mem_none l)

-- Arrays are allocated for a PDU that has names only.
def decodeNameList (l : NameList) : NameList :=
  if l.num = 0 then .bare none else l

theorem decodeNameList_ne (l : NameList) : (decodeNameList l).names ≠ some [] := by
  simp only [decodeNameList]
  split
  case isTrue => simp [NameList.bare]
  case isFalse h =>
    intro hn
    simp [NameList.num, hn] at h

inductive Reply
  | names (r : Except Failure NameList)
  | ids (r : Except Failure (Nat × Int))
  | error (code : Int)
  | other

structure Agents where
  send : Nat → Int
  reply : Nat → Reply
  name : Nat → Except Failure (Option (List Name))
  pmid : Nat → Int × Nat
  children : Nat → Except Failure NameList

-- The status of a request to a daemon, what has been decoded, and whether a file descriptor failed.
structure Shipped (α : Type) where
  sts : Int
  data : Option α
  fdfail : Bool

-- A request is shipped to a daemon. `expected` decodes the PDU that is a proper reply to it.
def ship (ag : Agents) (i : Nat) (expected : Reply → Option (Except Failure (Int × α))) :
    Shipped α :=
  if ag.send i < 0 then
    { sts := mapErrno (ag.send i), data := none, fdfail := true }
  else
    match expected (ag.reply i), ag.reply i with
    | some (.ok (sts, a)), _ => { sts, data := a, fdfail := false }
    | some (.error sts), _ => { sts, data := none, fdfail := false }
    | none, .error code => { sts := code, data := none, fdfail := false }
    | none, _ => { sts := pmErrIpc, data := none, fdfail := true }

def Shipped.cleans (r : Shipped α) : Prop :=
  (r.sts = pmErrIpc ∨ r.sts = pmErrTimeout ∨ r.sts = -epipe) ∧ r.fdfail

instance (r : Shipped α) : Decidable r.cleans :=
  inferInstanceAs (Decidable (_ ∧ _))

end Pmcd.Names
