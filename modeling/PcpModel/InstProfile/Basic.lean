import PcpModel.Pmapi.Header

-- Instance profiles, i.e. the filters on instances that are part of a context (profile.c).
namespace InstProfile

open Pcp

abbrev InDom := Nat

def pmInDomNull : InDom :=
  0xffffffff

inductive State
  | «include» -- include all, exclude some
  | exclude -- exclude all, include some
  deriving DecidableEq

structure InDomProfile where
  indom : InDom
  state : State
  instances : Option (List Int) -- `none` is `NULL`
  deriving DecidableEq

def InDomProfile.list (p : InDomProfile) : List Int :=
  p.instances.getD []

structure Profile where
  state : State
  profile : List InDomProfile
  deriving DecidableEq

-- The part of `__pmContext` that concerns the instance profile.
structure Context where
  instprof : Profile
  sent : Bool
  deriving DecidableEq

def Context.new : Context where
  instprof := { state := .include, profile := [] }
  sent := false

def subtract (list : Option (List Int)) (arg : List Int) : Option (List Int) :=
  list.map (·.filter (· ∉ arg))

def union (list : Option (List Int)) (arg : List Int) : Option (List Int) :=
  match list with
  | none => some arg
  | some list => some <| arg.foldl (fun new i => if i ∈ new then new else new ++ [i]) list

def setGlobalState (state : State) : Context where
  instprof := { state, profile := [] }
  sent := false

def newprof (indom : InDom) (prof : Profile) : Profile :=
  { prof with profile := prof.profile ++ [{ indom, state := .include, instances := none }] }

def pmFindProfile (indom : InDom) (prof : Profile) : Option Nat :=
  prof.profile.findIdx? (·.indom = indom)

def pmInProfile (indom : InDom) (prof : Option Profile) (inst : Int) : Bool :=
  match prof with
  | none => true
  | some prof =>
    match (pmFindProfile indom prof).bind (prof.profile[·]?) with
    | none => prof.state = .include
    | some p => if inst ∈ p.list then p.state ≠ .include else p.state = .include

structure Instlist where
  len : Nat
  list : Option (List Int)
  valid : ∀ as ∈ list, len ≤ as.length

namespace Instlist

def IsNull (l : Instlist) : Prop :=
  l.list = none

instance (l : Instlist) : Decidable l.IsNull :=
  inferInstanceAs (Decidable (_ = _))

def null : Instlist where
  len := 0
  list := none
  valid := by simp

def ofList (as : List Int) : Instlist where
  len := as.length
  list := as
  valid := by simp

def arg (l : Instlist) : List Int :=
  (l.list.getD []).take l.len

end Instlist

structure Edit where
  state : State -- if all instances are concerned
  start : State -- of an entry that has just been created
  onInclude : Option (List Int) → List Int → Option (List Int)
  onExclude : Option (List Int) → List Int → Option (List Int)

def Edit.apply (e : Edit) (l : Instlist) (p : InDomProfile) : InDomProfile :=
  if l.len = 0 ∨ l.IsNull then
    { p with state := e.state, instances := none }
  else match p.state with
    | .include => { p with instances := e.onInclude p.instances l.arg }
    | .exclude => { p with instances := e.onExclude p.instances l.arg }

-- The common part of `pmAddProfile` and `pmDelProfile`.
def setProfile (e : Edit) (ctx : Context) (indom : InDom) (l : Instlist) : Context × Int :=
  if indom = pmInDomNull ∧ ¬l.IsNull then
    -- semantic disconnect!
    (ctx, pmErrProfilespec)
  else if indom = pmInDomNull ∧ l.len = 0 then
    (setGlobalState e.state, 0)
  else
    let prof := ctx.instprof
    match pmFindProfile indom prof with
    | some i => ({ instprof := edit prof i id, sent := false }, 0)
    | none =>
      let prof' := newprof indom prof
      let start := ({ · with state := e.start })
      ({ instprof := edit prof' prof.profile.length start, sent := false }, 0)
where
  edit (prof : Profile) (i : Nat) (start : InDomProfile → InDomProfile) : Profile :=
    { prof with profile := prof.profile.modify i (e.apply l <| start ·) }

def pmAddProfile : Context → InDom → Instlist → Context × Int :=
  setProfile {
    state := .include
    start := .exclude -- "exclude all except the supplied list"
    onInclude := subtract
    onExclude := union
  }

def pmDelProfile : Context → InDom → Instlist → Context × Int :=
  setProfile {
    state := .exclude
    start := .exclude -- "include all except the supplied list"
    onInclude := union
    onExclude := subtract
  }

end InstProfile
