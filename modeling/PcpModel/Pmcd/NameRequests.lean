import PcpModel.Pmcd.Stitching

-- The requests of a client about names (dopdus.c), and what it gets for them (pmcd.c).
namespace Pmcd.Names

open Pcp

inductive Pdu
  | names (numnames : Int) (names : List Name) (status : Option (List Int))
  | ids (sts numids : Int) (ids : List Nat)
  | error (code : Int)

-- A count is the number of entries that follow, and an error is negative.
def Pdu.WellFormed : Pdu → Prop
  | names n l status => n = l.length ∧ ∀ s ∈ status, s.length = l.length
  | ids _ n l => n = l.length
  | error code => code < 0

-- What a loop over the first `n` elements of an array reads.
def elements (a : List α) (n : Int) : Option (List α) :=
  if n.toNat ≤ a.length then some (a.take n.toNat) else none

def sendNameList (numnames : Int) (namelist : Option (List Name)) (statuslist : Option (List Int)) :
    Option Pdu := do
  let names ← elements (namelist.getD []) numnames
  match statuslist with
  | none => return .names numnames names none
  | some l => return .names numnames names (some (← elements l numnames))

structure Client where
  connected : Bool
  denyFetch : Bool
  received : List Pdu

structure Server where
  agent : List AgentInfo
  client : Client

abbrev Link := Pdu → Int

def Reply.decodeNames : Reply → Option (Except Failure (Int × NameList))
  | .names r => some (r.map fun l => (((decodeNameList l).num : Int), decodeNameList l))
  | _ => none

def Reply.decodeIds : Reply → Option (Except Failure (Int × Nat))
  | .ids r => some (r.map fun l => (l.2, l.1))
  | _ => none

namespace Server

variable (ns : NameSpace) (ag : Agents) (link : Link) (s : Server)

def findDomainAgent (domain : Nat) : Option Nat :=
  s.agent.findIdx? (·.pmDomainId = domain)

-- The agent for a domain, if it is connected.
def connectedAgent (domain : Nat) : Option (AgentInfo × Nat) := do
  let k ← s.findDomainAgent domain
  let ap ← s.agent[k]?
  if ap.connected then some (ap, k) else none

def cleanupAgent (k : Nat) : Server :=
  { s with agent := s.agent.modify k fun ap => { ap with connected := false } }

def cleanupClient : Server :=
  { s with client := { s.client with connected := false } }

def deliver (p : Pdu) : Server :=
  { s with client := { s.client with received := s.client.received ++ [p] } }

-- A reply is sent to the client, which is cleaned up if that fails.
def reply (p : Pdu) : Int × Server :=
  if link p < 0 then (link p, s.cleanupClient) else (link p, s.deliver p)

def replyNames (numnames : Int) (namelist : Option (List Name)) (statuslist : Option (List Int)) :
    Option (Int × Server) := do
  return s.reply link (← sendNameList numnames namelist statuslist)

def shipTo (i k : Nat) (expected : Reply → Option (Except Failure (Int × α))) :
    Shipped α × Server :=
  let r := ship ag i expected
  (r, if r.cleans then s.cleanupAgent k else s)

def doPMNSIDs : Except Failure Nat → Option (Int × Server)
  | .error sts => some (sts.val, s)
  | .ok pmid =>
    match ns.nameAll pmid with
    | .ok l => s.replyNames link l.length l none
    | .error _ =>
      match s.connectedAgent (domain pmid) with
      | none => some (pmErrNoagent, s)
      | some (ap, k) =>
        if ap.isDso then
          if 4 ≤ ap.pmdaInterface then
            match ag.name 0 with
            | .error sts => some (sts.val, s)
            | .ok l => s.replyNames link (l.getD []).length l none
          else
            some (pmErrPmid, s)
        else if ap.notReady then
          some (pmErrAgain, s)
        else
          let (r, s) := s.shipTo ag 0 k Reply.decodeNames
          if r.sts < 0 then some (r.sts, s) else
            s.replyNames link r.sts (r.data.bind (·.names)) none

-- The metric of a name in a dynamic subtree, with the status of the first error.
def resolve (i : Nat) (sts : Int) (id : Nat) : Int × Nat × Server :=
  if id ≠ pmIdNull ∧ IsDynamic id then
    match s.connectedAgent (cluster id) with
    | none => (if 0 < sts then pmErrNoagent else sts, pmIdNull, s)
    | some (ap, k) =>
      let (lsts, id, s) :=
        if ap.isDso then
          if 4 ≤ ap.pmdaInterface then ((ag.pmid i).1, (ag.pmid i).2, s)
          else (pmErrName, pmIdNull, s)
        else if ap.notReady then
          (pmErrAgain, pmIdNull, s)
        else
          let (r, s) := s.shipTo ag i k Reply.decodeIds
          (r.sts, r.data.getD pmIdNull, s)
      (if lsts < 0 ∧ 0 < sts then lsts else sts, id, s)
  else
    (sts, id, s)

def resolveAll (i : Nat) (sts : Int) (s : Server) : List Nat → Int × List Nat × Server
  | [] => (sts, [], s)
  | id :: ids =>
    let (sts, id, s) := s.resolve ag i sts id
    let (sts, ids, s) := resolveAll (i + 1) sts s ids
    (sts, id :: ids, s)

-- Some errors are passed back along with the ids.
def doPMNSNames : Except Failure (List Name) → Option (Int × Server)
  | .error sts => some (sts.val, s)
  | .ok names =>
    let (sts, ids) := ns.lookupName names
    let (sts, ids, s) := resolveAll ag 0 sts s ids
    if sts < 0 ∧ sts ≠ pmErrName ∧ sts ≠ pmErrNonleaf ∧ sts ≠ pmErrNoagent then
      some (sts, s)
    else
      some (s.reply link (.ids sts names.length ids))

-- The errors of a daemon are not returned: they are taken for a number of names.
def dynamicChildren (subtype : Int) (domain : Nat) : Option (Int × Server) :=
  match s.connectedAgent domain with
  | none => some (pmErrNoagent, s)
  | some (ap, k) =>
    if ap.isDso then
      if 4 ≤ ap.pmdaInterface then
        match ag.children 0 with
        | .error sts => some (sts.val, s)
        | .ok l => s.replyNames link l.num l.names (if subtype = 0 then none else l.status)
      else
        some (pmErrName, s)
    else if ap.notReady then
      s.replyNames link pmErrAgain none none
    else
      let (r, s) := s.shipTo ag 0 k Reply.decodeNames
      s.replyNames link r.sts (r.data.bind (·.names))
        (if subtype = 0 then none else r.data.bind (·.status))

def doPMNSChild : Except Failure (Name × Int) → Option (Int × Server)
  | .error sts => some (sts.val, s)
  | .ok (name, subtype) =>
    if ns.lookupStatus name = 1 ∧ IsDynamic (ns.lookupId name) then
      s.dynamicChildren ag link subtype (cluster (ns.lookupId name))
    else
      match ns.children name with
      | .error sts => some (sts.val, s)
      | .ok l => s.replyNames link l.1.length l.1 (if subtype = 0 then none else some l.2)

-- What is found for a name, if it is the root of a dynamic subtree. Errors are skipped.
def expand (i : Nat) (name : Name) (s : Server) : Answer × Server :=
  if ns.lookupStatus name < 1 ∨ ¬IsDynamic (ns.lookupId name) then (.other, s) else
    match s.connectedAgent (cluster (ns.lookupId name)) with
    | none => (.failed, s)
    | some (ap, k) =>
      if ap.isDso then
        if 4 ≤ ap.pmdaInterface then
          match ag.children i with
          | .error _ => (.failed, s)
          | .ok l => (.names l.names, s)
        else
          (.failed, s)
      else if ap.notReady then
        (.failed, s)
      else
        let (r, s) := s.shipTo ag i k Reply.decodeNames
        (r.data.elim .failed (.names ·.names), s)

def traverseDynamic (start : Name) (names : List Name) : Option (List Name × Server) := do
  let (t, s) ← stitchAll (expand ns ag) start names s
  return (t.names, s)

-- The array of names is built if there was no error.
def doPMNSTraverse : Except Failure Name → Option (Int × Server)
  | .error sts => some (sts.val, s)
  | .ok name =>
    let (sts, names) := ns.traverse name
    if sts < 0 ∧ names ≠ [] then none else do
      let (names, s) ← s.traverseDynamic ns ag name names
      if names = [] then return (sts, s) else s.replyNames link names.length names none

end Server

inductive Request
  | ids (r : Except Failure Nat)
  | names (r : Except Failure (List Name))
  | child (r : Except Failure (Name × Int))
  | traverse (r : Except Failure Name)

namespace Server

variable (ns : NameSpace) (ag : Agents) (link : Link) (s : Server)

def handle : Request → Option (Int × Server)
  | .ids r => s.doPMNSIDs ns ag link r
  | .names r => s.doPMNSNames ns ag link r
  | .child r => s.doPMNSChild ns ag link r
  | .traverse r => s.doPMNSTraverse ns ag link r

-- An error is sent to a client that is still connected.
def sendError (r : Int × Server) : Server :=
  if r.1 < 0 ∧ r.2.client.connected then
    if link (.error r.1) < 0 then r.2 else r.2.deliver (.error r.1)
  else
    r.2

def handleClientInput (req : Request) : Option Server :=
  (if s.client.denyFetch then some (pmErrPermission, s) else s.handle ns ag link req).map
    (sendError link)

end Server

end Pmcd.Names
