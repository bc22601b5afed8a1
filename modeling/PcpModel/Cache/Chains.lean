import PcpModel.Cache.Basic
import PcpModel.Library.Buckets

-- The pointers of a cache: the list of its entries and the hash chains.
namespace Cache

open Linked

-- The link fields are kept apart from the entries. `brk` entries have been allocated.
structure Links where
  first : Option Ref
  next : Ref → Option Ref
  ctlInst : Buckets Ref
  ctlName : Buckets Ref
  hsize : Nat
  hbits : Nat
  entry : Ref → Option Entry
  brk : Ref

namespace Links

variable (h : Links)

def fuel : Nat :=
  h.brk + 1

def state (r : Ref) : State :=
  (h.entry r).elim .empty (·.state)

def isInst (inst : Nat) (r : Ref) : Bool :=
  (h.entry r).any fun e => e.inst = inst ∧ e.state ≠ .empty

def isName (name : CStr) (r : Ref) : Bool :=
  (h.entry r).any fun e => e.state ≠ .empty ∧ nameEq e name ≠ 0

-- The status of a search by name is the outcome of the last comparison.
def nameSts (name : CStr) : Option Ref → Int
  | none => 0
  | some r => (h.entry r).elim 0 (nameEq · name)

def findInst (inst : Nat) : Option (Option Ref) :=
  (search h.next (h.isInst inst) h.fuel none h.first).map (·.2)

def findName (name : CStr) : Option (Option Ref × Int) :=
  (search h.next (h.isName name) h.fuel none h.first).map fun r => (r.2, h.nameSts name r.2)

-- `find_entry` by instance identifier, of which only the bits matter.
def findEntryInst (inst : Nat) : Option (Option Ref) :=
  (search h.ctlInst.next (h.isInst inst) h.fuel none (h.ctlInst.head (inst &&& h.hbits))).map (·.2)

def findEntryName (name : CStr) : Option (Option Ref × Int) :=
  let chain := h.ctlName.head (hashStr name &&& h.hbits)
  (search h.ctlName.next (h.isName name) h.fuel none chain).map fun r => (r.2, h.nameSts name r.2)

def instIdx (r : Ref) : Nat :=
  (h.entry r).elim 0 fun e => e.inst &&& h.hbits

def nameIdx (r : Ref) : Nat :=
  (h.entry r).elim 0 fun e => hashStr e.name &&& h.hbits

-- The chains are moved to tables of twice the size. Allocation is assumed to succeed.
def resize : Option Links := do
  let h' := { h with hsize := 2 * h.hsize, hbits := 2 * h.hbits + 1 }
  let ctlInst ← Buckets.moveAll h'.instIdx h.fuel h.ctlInst.head (List.range h.hsize)
    { h.ctlInst with head := fun _ => none }
  let ctlName ← Buckets.moveAll h'.nameIdx h.fuel h.ctlName.head (List.range h.hsize)
    { h.ctlName with head := fun _ => none }
  return { h' with ctlInst, ctlName }

structure Part where
  head : Option Ref
  last : Option Ref

def Part.add (p : Part) (next : Ref → Option Ref) (t : Ref) : (Ref → Option Ref) × Part :=
  let r := attach next p.head (some t) p.last
  (r.1, ⟨r.2, some t⟩)

structure Split where
  next : Ref → Option Ref
  active : Part
  inactive : Part

def Split.step (state : Ref → State) (s : Split) (t : Ref) : Split :=
  let next := Function.update s.next t none
  match state t with
  | .active => { s with next := (s.active.add next t).1, active := (s.active.add next t).2 }
  | .inactive => { s with next := (s.inactive.add next t).1, inactive := (s.inactive.add next t).2 }
  | .empty => { s with next }

def Split.run (state : Ref → State) : Nat → Option Ref → Split → Option Split
  | 0, _, _ => none
  | _ + 1, none, s => some s
  | n + 1, some t, s => run state n (s.next t) (s.step state t)

-- Moves active entries of a chain before inactive ones, and unlinks empty ones.
def reorderChain (state : Ref → State) (fuel : Nat) (b : Buckets Ref) (i : Nat) :
    Option (Buckets Ref) := do
  let s ← Split.run state fuel (b.head i) ⟨b.next, ⟨none, none⟩, ⟨none, none⟩⟩
  let r := attach s.next s.active.head s.inactive.head s.active.last
  return ⟨r.1, Function.update b.head i r.2⟩

def reorderChains (state : Ref → State) (fuel : Nat) : List Nat → Buckets Ref → Option (Buckets Ref)
  | [], b => some b
  | i :: is, b => (reorderChain state fuel b i).bind (reorderChains state fuel is)

-- Takes empty entries out of the list and frees them.
def dropEmpty : Nat → Option Ref → Option Ref → Links → Option Links
  | 0, _, _, _ => none
  | _ + 1, _, none, h => some h
  | n + 1, lastE, some t, h =>
    if h.state t = .empty then
      let r := attach h.next h.first (h.next t) lastE
      dropEmpty n lastE (h.next t)
        { h with next := r.1, first := r.2, entry := Function.update h.entry t none }
    else
      dropEmpty n (some t) (h.next t) h

def redoHash (resize : Bool) : Option Links := do
  let h ← if resize then h.resize else some h
  let ctlInst ← reorderChains h.state h.fuel (List.range h.hsize) h.ctlInst
  let ctlName ← reorderChains h.state h.fuel (List.range h.hsize) h.ctlName
  dropEmpty h.fuel none h.first { h with ctlInst, ctlName }

end Links

end Cache
