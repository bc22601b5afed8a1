import PcpModel.Library.Run
import Mathlib.Data.Multiset.AddSub
import PcpModel.Library.Buckets
import PcpModel.Library.CInt

-- The hash tables of libpcp: hash.c.
namespace Hash

open Linked

-- A pointer to a `__pmHashNode`. An address is not used again.
abbrev Ref := Nat

inductive WalkState
  | start
  | next
  | stop
  | deleteNext
  | deleteStop
  deriving DecidableEq

def WalkState.Deletes : WalkState → Prop
  | deleteNext | deleteStop => True
  | _ => False

instance : DecidablePred WalkState.Deletes
  | .deleteNext | .deleteStop => .isTrue trivial
  | .start | .next | .stop => .isFalse id

structure Node (α : Type) where
  key : UInt32
  data : α
  deriving DecidableEq

-- The links are kept apart from the nodes. `brk` nodes have been allocated.
structure Ctl (α : Type) where
  nodes : Int
  hsize : Nat
  table : Buckets Ref
  next : Option Ref
  index : Nat
  node : Ref → Option (Node α)
  brk : Ref

namespace Ctl

variable {α : Type} (c : Ctl α)

def new : Ctl α where
  nodes := 0
  hsize := 0
  table := ⟨fun _ => none, fun _ => none⟩
  next := none
  index := 0
  node := fun _ => none
  brk := 0

def fuel : Nat :=
  c.brk + 1

def idx (key : UInt32) : Nat :=
  key.toNat % c.hsize

def idxOf (r : Ref) : Nat :=
  (c.node r).elim 0 fun n => c.idx n.key

def hasKey (key : UInt32) (r : Ref) : Bool :=
  (c.node r).any (·.key = key)

def hashSearch (key : UInt32) : Option (Option Ref) :=
  if c.hsize = 0 then
    some none
  else
    (search c.table.next (c.hasKey key) c.fuel none (c.table.head (c.idx key))).map (·.2)

-- `if (hsize % m) hsize += a`
def adjust (m a hsize : Nat) : Nat :=
  if hsize % m ≠ 0 then hsize + a else hsize

def grownSize (hsize : Nat) : Nat :=
  adjust 5 2 <| adjust 3 2 <| adjust 2 1 <| hsize * 2

-- The chains are linked again from the last bucket to the first one.
def grow : Option (Ctl α) := do
  let c' := { c with hsize := grownSize c.hsize }
  let table ← Buckets.moveAll c'.idxOf c.fuel c.table.head (List.range c.hsize).reverse
    { c.table with head := fun _ => none }
  return { c' with table }

def makeRoom : Option (Ctl α) :=
  if c.hsize = 0 then
    some { c with hsize := 1, table := { c.table with head := fun _ => none } }
  else if c.nodes.tdiv 4 > c.hsize then
    c.grow
  else
    some c

def link (n : Node α) : Ctl α :=
  { c with
    table := c.table.push (c.idx n.key) c.brk
    node := Function.update c.node c.brk (some n)
    brk := c.brk + 1
  }

-- Allocation is assumed to succeed.
def hashAdd (key : UInt32) (data : α) : Option (Ctl α) := do
  let c ← makeRoom { c with nodes := CInt.int (c.nodes + 1) }
  return c.link ⟨key, data⟩

-- Unlinks the node that follows `prior` in a bucket, and frees it.
def remove (k : Nat) (prior : Option Ref) (r : Ref) : Ctl α :=
  { c with
    table := c.table.setLink k (c.table.next r) prior
    node := Function.update c.node r none
  }

def isNode [DecidableEq α] (n : Node α) (r : Ref) : Bool :=
  c.node r = some n

def hashDel [DecidableEq α] (key : UInt32) (data : α) : Option (Ctl α × Int) :=
  if c.hsize = 0 then
    some (c, 0)
  else do
    match ← search c.table.next (c.isNode ⟨key, data⟩) c.fuel none (c.table.head (c.idx key)) with
    | (lhp, some hp) => return (c.remove (c.idx key) lhp hp, 1)
    | (_, none) => return (c, 0)

section WalkCB

variable {σ : Type}

-- The data that the callback keeps, and the calls of it with their answers.
structure Calls (α σ : Type) where
  cdata : σ
  log : List (Node α × WalkState)

-- Walks along a chain from `tp`, which the link after `tpp` leads to.
def walkChain (cb : Node α → σ → WalkState × σ) (k : Nat) :
    Nat → Option Ref → Option Ref → Ctl α → Calls α σ → Option (Ctl α × Calls α σ × Bool)
  | 0, _, _, _, _ => none
  | _ + 1, _, none, c, w => some (c, w, false)
  | n + 1, tpp, some tp, c, w => do
    let node ← c.node tp
    let r := cb node w.cdata
    let w := ⟨r.2, w.log ++ [(node, r.1)]⟩
    match r.1 with
    | .deleteStop => return (c.remove k tpp tp, w, true)
    | .next => walkChain cb k n (some tp) (c.table.next tp) c w
    | .deleteNext => walkChain cb k n tpp (c.table.next tp) (c.remove k tpp tp) w
    | .stop | .start => return (c, w, true)

def walkBuckets (cb : Node α → σ → WalkState × σ) :
    List Nat → Ctl α → Calls α σ → Option (Ctl α × Calls α σ)
  | [], c, w => some (c, w)
  | k :: ks, c, w => do
    let (c, w, stopped) ← walkChain cb k c.fuel none (c.table.head k) c w
    if stopped then return (c, w) else walkBuckets cb ks c w

def hashWalkCB (cb : Node α → σ → WalkState × σ) (cdata : σ) : Option (Ctl α × Calls α σ) :=
  walkBuckets cb (List.range c.hsize) c ⟨cdata, []⟩

end WalkCB

-- Goes to the next bucket that is not empty. It is undefined if the fuel does not suffice.
def advance : Nat → Ctl α → Option (Ctl α)
  | 0, _ => none
  | n + 1, c =>
    if c.next.isSome then
      some c
    else
      let c := { c with index := c.index + 1 }
      if c.index ≥ c.hsize then some c else advance n { c with next := c.table.head c.index }

def hashWalk (state : WalkState) : Option (Ctl α × Option Ref) :=
  if c.hsize = 0 then
    some (c, none)
  else do
    let c := if state = .start then { c with index := 0, next := c.table.head 0 } else c
    let c ← advance (c.hsize + 1) c
    match c.next with
    | none => return (c, none)
    | some r => return ({ c with next := c.table.next r }, some r)

-- Calls __pmHashWalk until there are no more nodes, first with START and then with NEXT.
def walkNodes : Nat → WalkState → Ctl α → Option (Ctl α × List Ref)
  | 0, _, _ => none
  | n + 1, state, c => do
    match ← c.hashWalk state with
    | (c, none) => return (c, [])
    | (c, some r) =>
      let (c, rs) ← walkNodes n .next c
      return (c, r :: rs)

def walkAll : Option (Ctl α × List Ref) :=
  walkNodes c.fuel .start c

def chain (i : Nat) : List Ref :=
  follow c.table.next c.fuel (c.table.head i)

def pairs : List (Node α) :=
  ((List.range c.hsize).flatMap c.chain).filterMap c.node

end Ctl

section Run

variable {α σ : Type} [DecidableEq α]

inductive Op (α σ : Type)
  | add (key : UInt32) (data : α)
  | del (key : UInt32) (data : α)
  | walkCB (cb : Node α → σ → WalkState × σ) (cdata : σ)
  | walk

structure Table (α : Type) where
  ctl : Ctl α
  added : Multiset (Node α)
  deleted : Multiset (Node α)

def Table.new : Table α where
  ctl := .new
  added := 0
  deleted := 0

def Ctl.Calls.deleted (w : Ctl.Calls α σ) : List (Node α) :=
  (w.log.filter (·.2.Deletes)).map (·.1)

def Table.step (t : Table α) : Op α σ → Option (Table α)
  | .add key data => do
    let c ← t.ctl.hashAdd key data
    return { t with ctl := c, added := ⟨key, data⟩ ::ₘ t.added }
  | .del key data => do
    let (c, sts) ← t.ctl.hashDel key data
    return { t with
      ctl := c
      deleted := if sts = 1 then ⟨key, data⟩ ::ₘ t.deleted else t.deleted }
  | .walkCB cb cdata => do
    let (c, w) ← t.ctl.hashWalkCB cb cdata
    return { t with ctl := c, deleted := t.deleted + (w.deleted : Multiset (Node α)) }
  | .walk => do
    let (c, _) ← t.ctl.walkAll
    return { t with ctl := c }

end Run

end Hash
