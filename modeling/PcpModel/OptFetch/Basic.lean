import PcpModel.Library.SortedSet

-- Requests for metrics are arranged in groups that are fetched together (optfetch.c).
namespace OptFetch

-- A request is identified by its address. It asks for all instances if there are none in the list.
structure Req where
  id : Nat
  indom : Nat
  pmid : Nat
  instlist : List Int
  deriving DecidableEq

-- `numinst` and `instlist` of a control structure.
inductive Insts
  | unset
  | all
  | list (is : List Int)
  deriving DecidableEq

namespace Insts

def numinst : Insts → Int
  | unset => -1
  | all => 0
  | list is => is.length

def instlist : Insts → List Int
  | unset | all => []
  | list is => is

def addinst (u : Insts) (rq : Req) : Insts :=
  if u = all then all
  else if rq.instlist = [] then all
  else list <| SortedSet.insertAll (· < ·) u.instlist rq.instlist

end Insts

structure PmidCtl where
  pmid : Nat
  insts : Insts
  rqs : List Req
  deriving DecidableEq

structure IndomCtl where
  indom : Nat
  insts : Insts
  pmps : List PmidCtl
  deriving DecidableEq

-- The bits of `f_state`. Those that start with `x` are only used during an update.
structure State where
  new : Bool
  pmid : Bool
  profile : Bool
  xreq : Bool
  xpmid : Bool
  xindom : Bool
  xfetch : Bool
  xprofile : Bool
  deriving DecidableEq, Inhabited

def State.umask (s : State) : State :=
  { s with xreq := false, xpmid := false, xindom := false, xfetch := false, xprofile := false }

structure FetchCtl where
  state : State
  cost : Int
  newcost : Int
  pmidlist : List Nat
  idps : List IndomCtl
  deriving DecidableEq

def FetchCtl.calloc : FetchCtl where
  state := ⟨false, false, false, false, false, false, false, false⟩
  cost := 0
  newcost := 0
  pmidlist := []
  idps := []

structure OptCost where
  pmid : Int
  indom : Int
  fetch : Int
  indomsize : Int
  xtrainst : Int
  scope : Bool

def OptCost.default : OptCost where
  pmid := 4
  indom := 1
  fetch := 15
  indomsize := 10
  xtrainst := 2
  scope := false

def optCostInfinity : Int :=
  0x7fffffff

def editFirst (p : α → Bool) (f : α → α) : List α → List α
  | [] => []
  | a :: as => if p a then f a :: as else a :: editFirst p f as

def after (p : α → Bool) : List α → List α
  | [] => []
  | a :: as => if p a then as else after p as

namespace Insts

-- The number of instances that are in only one of two sorted lists.
def mismatches : List Int → List Int → Int
  | [], bs => bs.length
  | as, [] => as.length
  | a :: as, b :: bs =>
    if a = b then mismatches as bs
    else if a < b then 1 + mismatches as (b :: bs)
    else 1 + mismatches (a :: as) bs
termination_by as bs => as.length + bs.length

-- The last two summands only differ from zero if a set is unset.
def missinst (c : OptCost) (a b : Insts) : Int :=
  if a.numinst = 0 then
    if b.numinst ≠ 0 ∧ b.numinst < c.indomsize then c.indomsize - b.numinst else 0
  else
    mismatches a.instlist b.instlist + (a.numinst - a.instlist.length) +
      (b.numinst - b.instlist.length)

end Insts

-- The number of elements that do not occur earlier in the list.
def firsts (seen : List Nat) : List Nat → Nat
  | [] => 0
  | d :: ds => (if d ∈ seen then 0 else 1) + firsts (d :: seen) ds

-- The domain is in the same place for metrics and instance domains.
def domain (id : Nat) : Nat :=
  id / 0x400000 % 0x200

-- A cost is an int in the source: the parameters are small enough for it.
def optCost (c : OptCost) (fp : FetchCtl) : Int :=
  c.pmid * firsts [] (fp.idps.flatMap (·.pmps.map (domain ·.pmid))) +
  c.indom * firsts [] (fp.idps.map (domain ·.indom)) +
  (fp.idps.flatMap fun idp => idp.pmps.map fun pmp =>
    c.xtrainst * Insts.missinst c idp.insts pmp.insts).foldl (· + ·) 0

def addpmid (fp : FetchCtl) (pmid : Nat) : FetchCtl :=
  { fp with pmidlist := SortedSet.insert (· > ·) pmid fp.pmidlist }

def PmidCtl.redoinst (pmp : PmidCtl) : PmidCtl :=
  { pmp with insts := pmp.rqs.foldl .addinst .unset }

def IndomCtl.reqs (idp : IndomCtl) : List Req :=
  idp.pmps.flatMap (·.rqs)

def IndomCtl.redoinst (idp : IndomCtl) : IndomCtl where
  indom := idp.indom
  insts := idp.reqs.foldl .addinst .unset
  pmps := idp.pmps.map .redoinst

def pmids (idps : List IndomCtl) : List Nat :=
  idps.flatMap (·.pmps.map (·.pmid))

def reqs (idps : List IndomCtl) : List Req :=
  idps.flatMap (·.reqs)

namespace FetchCtl

def redoinst (fp : FetchCtl) : FetchCtl :=
  { fp with idps := fp.idps.map .redoinst }

def redopmid (fp : FetchCtl) : FetchCtl :=
  (pmids fp.idps).foldl addpmid { fp with pmidlist := [] }

end FetchCtl

section Add

variable (c : OptCost) (rq : Req)

def isIndom (idp : IndomCtl) : Bool :=
  idp.indom = rq.indom

def isPmid (pmp : PmidCtl) : Bool :=
  pmp.pmid = rq.pmid

def newPmid : PmidCtl where
  pmid := rq.pmid
  insts := .unset
  rqs := []

def newIndom : IndomCtl where
  indom := rq.indom
  insts := .unset
  pmps := []

def missesIndom (idps : List IndomCtl) : Bool :=
  (idps.find? (isIndom rq)).isNone

def missesPmid (idps : List IndomCtl) : Bool :=
  (idps.find? (isIndom rq)).all (·.pmps.all (¬isPmid rq ·))

-- Creates the control structures that are missing for the request.
def create (idps : List IndomCtl) : List IndomCtl :=
  let idps' := if missesIndom rq idps then newIndom rq :: idps else idps
  if missesPmid rq idps then editFirst (isIndom rq) addPmid idps' else idps'
where
  addPmid (idp : IndomCtl) : IndomCtl :=
    { idp with pmps := newPmid rq :: idp.pmps }

def addInsts (idps : List IndomCtl) : List IndomCtl :=
  editFirst (isIndom rq) addIndom idps
where
  addPmid (pmp : PmidCtl) : PmidCtl :=
    { pmp with insts := pmp.insts.addinst rq }
  addIndom (idp : IndomCtl) : IndomCtl :=
    { idp with insts := idp.insts.addinst rq, pmps := editFirst (isPmid rq) addPmid idp.pmps }

-- Adds the instances of the request to a group, but not the request itself.
def tryAdd (root : Bool) (fp : FetchCtl) : FetchCtl :=
  let idps := create rq fp.idps
  let fp' := { fp with idps := addInsts rq idps }
  { fp' with
    cost := optCost c fp
    newcost := optCost c fp' + if root then c.fetch else 0
    state := { fp.state with
      xreq := true
      xpmid := missesPmid rq fp.idps
      xindom := missesIndom rq fp.idps
      xfetch := root
      xprofile := (idps.find? (isIndom rq)).any (·.insts ≠ .all)
    }
  }

def chosen (fps : List FetchCtl) : Option Nat :=
  go none optCostInfinity 0 fps
where
  go (tfp : Option Nat) (mincost : Int) (i : Nat) : List FetchCtl → Option Nat
    | [] => tfp
    | fp :: fps =>
      let cost := if c.scope then fp.newcost else fp.newcost - fp.cost
      if cost < mincost then go (some i) cost (i + 1) fps else go tfp mincost (i + 1) fps

def link (idps : List IndomCtl) : List IndomCtl :=
  editFirst (isIndom rq) linkIndom idps
where
  linkPmid (pmp : PmidCtl) : PmidCtl :=
    { pmp with rqs := rq :: pmp.rqs }
  linkIndom (idp : IndomCtl) : IndomCtl :=
    { idp with pmps := editFirst (isPmid rq) linkPmid idp.pmps }

def commit (fp : FetchCtl) : FetchCtl :=
  { addpmid fp rq.pmid with
    idps := link rq fp.idps
    cost := fp.newcost
    state := State.umask { fp.state with
      new := fp.state.new || fp.state.xfetch
      pmid := fp.state.pmid || rq.pmid ∉ fp.pmidlist
      profile := fp.state.profile || fp.state.xprofile
    }
  }

def drop (xpmid xindom : Bool) (idps : List IndomCtl) : List IndomCtl :=
  let idps := if xpmid then editFirst (isIndom rq) dropPmid idps else idps
  if xindom then after (isIndom rq) idps else idps
where
  dropPmid (idp : IndomCtl) : IndomCtl :=
    { idp with pmps := after (isPmid rq) idp.pmps }

def undo (fp : FetchCtl) : Option FetchCtl :=
  if fp.state.xfetch then
    none
  else
    let idps := drop rq fp.state.xpmid fp.state.xindom fp.idps
    some <| FetchCtl.redoinst { fp with idps, state := fp.state.umask }

def settle (t : Option Nat) (i : Nat) : List FetchCtl → List FetchCtl
  | [] => []
  | fp :: fps =>
    let fp := if t = some i then some (commit rq fp) else undo rq fp
    fp.toList ++ settle t (i + 1) fps

def pmOptFetchAdd (root : List FetchCtl) : List FetchCtl :=
  let fps := tryAdd c rq true .calloc :: root.map (tryAdd c rq false)
  settle rq (chosen c fps) 0 fps

end Add

def delFirst (del : α → Option (Option α)) : List α → Option (List α)
  | [] => none
  | a :: as =>
    match del a with
    | none => (delFirst del as).map (a :: ·)
    | some none => some as
    | some (some b) => some (b :: as)

def delReq (id : Nat) (rq : Req) : Option (Option Req) :=
  if rq.id = id then some none else none

def PmidCtl.del (id : Nat) (pmp : PmidCtl) : Option (Option PmidCtl) :=
  delFirst (delReq id) pmp.rqs |>.map fun rqs =>
    if rqs = [] then none else some { pmp with rqs }

def IndomCtl.del (id : Nat) (idp : IndomCtl) : Option (Option IndomCtl) :=
  delFirst (PmidCtl.del id) idp.pmps |>.map fun pmps =>
    if pmps = [] then none else some { idp with pmps }

def FetchCtl.repair (c : OptCost) (fp : FetchCtl) : FetchCtl :=
  let fp := fp.redoinst.redopmid
  { fp with
    state := { FetchCtl.calloc.state with pmid := true, profile := true }
    cost := optCost c fp
  }

def FetchCtl.del (c : OptCost) (id : Nat) (fp : FetchCtl) : Option (Option FetchCtl) :=
  delFirst (IndomCtl.del id) fp.idps |>.map fun idps =>
    if idps = [] then none else some <| FetchCtl.repair c { fp with idps }

-- Returns -1 if there is no such request.
def pmOptFetchDel (c : OptCost) (id : Nat) (root : List FetchCtl) : List FetchCtl × Int :=
  match delFirst (FetchCtl.del c id) root with
  | none => (root, -1)
  | some root => (root, 0)

-- Randomly cuts and splices the list of requests.
def cut (rand : Nat) (rlist : List Req) : List Req :=
  let k := rand % rlist.length
  if k = 0 then rlist else rlist.drop (k + 1) ++ rlist.take (k + 1)

-- `rand` is the value of `lrand48()`.
def pmOptFetchRedo (c : OptCost) (rand : Nat) (root : List FetchCtl) : List FetchCtl :=
  let rlist := (root.flatMap (reqs ·.idps)).reverse
  (cut rand rlist).foldl (fun root rq => pmOptFetchAdd c rq root) []

end OptFetch
