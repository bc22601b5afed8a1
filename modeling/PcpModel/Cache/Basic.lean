import PcpModel.Cache.Name
import PcpModel.Pmapi.Header

namespace Cache

open Pcp

def einval : Int :=
  22

def maxHashTry : Nat :=
  10

def maxInst : Nat :=
  0x7fffffff

-- A pointer to an `entry_t`. An address is not used again after its entry has been freed.
abbrev Ref := Nat

inductive State
  | active
  | inactive
  | empty
  deriving DecidableEq

structure Entry where
  ref : Ref
  inst : Nat
  name : CStr
  key : List UInt8
  state : State
  priv : Nat
  stamp : Int
  deriving DecidableEq

-- The list from `first` holds all entries that are not freed. Allocation succeeds.
structure Hdr where
  list : List Entry
  last : Option Ref
  ctlInst : Nat → List Ref
  ctlName : Nat → List Ref
  hsize : Nat
  hbits : Nat
  nentry : Nat
  insMode : Int
  brk : Ref

-- Matches up to a space: 0 if there is no match, and -1 if only the rest differs.
def nameEq (e : Entry) (name : CStr) : Int :=
  let hashlen := getHashlen name
  if getHashlen e.name ≠ hashlen then 0
  else if e.name.bytes.take hashlen ≠ name.bytes.take hashlen then 0
  else if name.bytes.length = hashlen then 1
  else if e.name.bytes.length = hashlen then -1
  else if e.name.bytes.drop (hashlen + 1) = name.bytes.drop (hashlen + 1) then 1
  else -1

namespace Hdr

def new : Hdr where
  list := []
  last := none
  ctlInst := fun _ => []
  ctlName := fun _ => []
  hsize := 16
  hbits := 0xf
  nentry := 0
  insMode := 0
  brk := 0

variable (h : Hdr)

def get (r : Ref) : Option Entry :=
  h.list.find? (·.ref = r)

-- Hash chains do not hold freed entries (`Hashed.instLive` and `Hashed.nameLive`).
def entries (rs : List Ref) : List Entry :=
  rs.filterMap h.get

def edit (r : Ref) (f : Entry → Entry) : Hdr :=
  { h with list := h.list.map fun e => if e.ref = r then f e else e }

def instIdx (inst : Nat) : Nat :=
  inst &&& h.hbits

def nameIdx (name : CStr) : Nat :=
  hashStr name &&& h.hbits

def findInst (inst : Nat) : Option Entry :=
  h.entries (h.ctlInst (h.instIdx inst)) |>.find? fun e => e.inst = inst ∧ e.state ≠ .empty

def findName (name : CStr) : Option Entry :=
  h.entries (h.ctlName (h.nameIdx name)) |>.find? fun e => e.state ≠ .empty ∧ nameEq e name ≠ 0

end Hdr

def push (ctl : Nat → List Ref) (i : Nat) (r : Ref) : Nat → List Ref :=
  Function.update ctl i (r :: ctl i)

-- The entries of the chains that are moved to a table of twice the size.
def rehash (h : Hdr) : Hdr :=
  let h' := { h with hsize := 2 * h.hsize, hbits := 2 * h.hbits + 1 }
  let old ctl := h.entries <| (List.range h.hsize).flatMap ctl
  { h' with
    ctlInst := (old h.ctlInst).foldl (fun ctl e => push ctl (h'.instIdx e.inst) e.ref) fun _ => []
    ctlName := (old h.ctlName).foldl (fun ctl e => push ctl (h'.nameIdx e.name) e.ref) fun _ => []
  }

-- Moves active entries before inactive ones and drops empty ones.
def reorder (h : Hdr) (rs : List Ref) : List Ref :=
  let inState s := h.entries rs |>.filter (·.state = s) |>.map (·.ref)
  inState .active ++ inState .inactive

-- Empty entries are freed. The field `last` is not set.
def dropEmpty (h : Hdr) : Hdr :=
  { h with
    ctlInst := fun i => if i < h.hsize then reorder h (h.ctlInst i) else h.ctlInst i
    ctlName := fun i => if i < h.hsize then reorder h (h.ctlName i) else h.ctlName i
    list := h.list.filter (·.state ≠ .empty)
  }

def redoHash (h : Hdr) (resize : Bool) : Hdr :=
  dropEmpty <| if resize then rehash h else h

section Insert

def findPlace (inst : Nat) (lastE : Option Ref) : List Entry → Option Ref
  | [] => lastE
  | e :: es =>
    if e.inst < inst then findPlace inst (some e.ref) es
    else if e.inst > inst then lastE
    else findPlace inst lastE es

-- The first identifier that is not used, and the entry that precedes it.
def findGap (inst : Nat) (lastE : Option Ref) : List Entry → Option (Nat × Option Ref)
  | [] => some (inst, lastE)
  | e :: es =>
    if inst < e.inst then some (inst, lastE)
    else if inst = maxInst then none
    else findGap (inst + 1) (some e.ref) es

def insertAfter (e : Entry) : Option Ref → List Entry → List Entry
  | none, es => e :: es
  | some _, [] => []
  | some r, d :: es => if d.ref = r then d :: e :: es else d :: insertAfter e (some r) es

variable (h : Hdr) (name : CStr)

-- Chooses an identifier unless it is given, and finds the entry after which the new one is
-- inserted.
def place : Option Nat → Option (Hdr × Option (Nat × Option Ref))
  | some inst => some (h, some (inst, findPlace inst none h.list))
  | none =>
    if h.insMode = 0 then
      match h.last with
      | none => some (h, some (0, none))
      | some r => do
        let e ← h.get r
        if e.inst = maxInst then
          -- The range is exhausted, so that gaps have to be used from now on.
          return ({ h with insMode := 1 }, findGap 0 none h.list)
        else
          return (h, some (e.inst + 1, some r))
    else
      some (h, findGap 0 none h.list)

def newEntry (inst : Nat) : Entry where
  ref := h.brk
  inst := inst
  name := name
  key := []
  state := .inactive
  priv := 0
  stamp := 0

def newLast (inst : Nat) : Option Ref :=
  match h.last with
  | none => some h.brk
  | some r => do
    let e ← h.get r
    if e.inst < inst then return h.brk else return r

def linkEntry (inst : Nat) (lastE : Option Ref) : Option (Hdr × Entry) := do
  let e := newEntry h name inst
  let last ← newLast h inst
  let h := { h with
    list := insertAfter e lastE h.list
    last := last
    nentry := h.nentry + 1
    brk := h.brk + 1
  }
  return (h, e)

def linkNew (inst : Option Nat) : Option (Hdr × Option Entry) := do
  match ← place h inst with
  | (h, none) => return (h, none)
  | (h, some (inst, lastE)) =>
    let (h, e) ← linkEntry h name inst lastE
    return (h, some e)

def Hdr.Resizes : Prop :=
  0 < h.hsize ∧ h.hsize < 1024 ∧ h.nentry > 4 * h.hsize

instance : Decidable h.Resizes :=
  inferInstanceAs (Decidable (_ ∧ _))

def linkHash (e : Entry) : Hdr :=
  { h with
    ctlInst := push h.ctlInst (h.instIdx e.inst) e.ref
    ctlName := push h.ctlName (h.nameIdx e.name) e.ref
  }

def conflict (inst : Nat) : Option (Entry × Int) :=
  match h.findInst inst with
  | some e => some (e, if nameEq e name ≠ 1 then pmErrInst else 0)
  | none => h.findName name |>.map (·, pmErrInst)

def insertNew (inst : Option Nat) : Option (Hdr × Option Ref × Int) := do
  match ← linkNew h name inst with
  | (h, none) => return (h, none, pmErrGeneric)
  | (h, some e) =>
    let h := if h.Resizes then redoHash h true else h
    return (linkHash h e, some e.ref, 0)

def insertCache : Option Nat → Option (Hdr × Option Ref × Int)
  | none => insertNew h name none
  | some inst =>
    match conflict h name inst with
    | some (e, sts) => some (h, some e.ref, sts)
    | none => insertNew h name (some inst)

end Insert

section Store

inductive Flags
  | add
  | hide
  | cull
  | other
  deriving DecidableEq

variable (h : Hdr) (flags : Flags) (name : CStr) (key : List UInt8) (priv : Nat)

def setEntry (r : Ref) : Option (Hdr × Int) := do
  let e ← h.get r
  match flags with
  | .add => return (h.edit r ({ · with key, state := .active, priv, stamp := 0 }), e.inst)
  | .hide => return (h.edit r ({ · with state := .inactive }), e.inst)
  | .cull => return (h.edit r ({ · with state := .empty }), e.inst)
  | .other => return (h, -einval)

def store (inst : Option Nat) : Option (Hdr × Int) :=
  match h.findName name with
  | some e => if nameEq e name = -1 then some (h, -einval) else setEntry h flags key priv e.ref
  | none =>
    if flags ≠ .add then
      some (h, pmErrInst)
    else do
      match ← insertCache h name inst with
      | (h, none, sts) => return (h, sts)
      | (h, some r, _) => setEntry h flags key priv r

def pmdaCacheStore : Option (Hdr × Int) :=
  store h flags name [] priv none

-- Guesses an identifier by hashing the key again and again.
def guess (key : List UInt8) (tried : UInt32) : Nat → Except Int Nat
  | 0 => throw pmErrGeneric
  | n + 1 =>
    let tried := hash key tried
    let inst := (tried &&& 0x7fffffff).toNat
    match h.findInst inst with
    | none => return inst
    | some e =>
      if e.name = name then
        if e.key = key then return inst else throw pmErrInst
      else if e.key = key then throw pmErrInst
      else guess key tried n

-- The name is used if there is no key. A key that is not given is represented by the empty list.
def mykey : List UInt8 :=
  if key = [] then name.bytes else key

def pmdaCacheStoreKey : Option (Hdr × Int) :=
  if flags ≠ .add then
    store h flags name [] priv none
  else
    let key := mykey name key
    match h.findName name with
    | some e =>
      if e.key = key then store h flags name key priv (some e.inst) else some (h, pmErrInst)
    | none =>
      match guess h name key 0 maxHashTry with
      | .error sts => some (h, sts)
      | .ok inst => store { h with insMode := 1 } flags name key priv (some inst)

end Store

section Ops

variable (h : Hdr)

def Hdr.mark (p : Entry → Bool) (state : State) : Hdr × Int :=
  ({ h with list := h.list.map fun e => if p e then { e with state } else e }, h.list.countP p)

def opActive : Hdr × Int :=
  h.mark (·.state = .inactive) .active

def opInactive : Hdr × Int :=
  h.mark (·.state = .active) .inactive

def opCull : Hdr × Int :=
  h.mark (·.state ≠ .empty) .empty

def opReuse : Hdr × Int :=
  ({ h with insMode := 1 }, 0)

def opReorg : Hdr × Int :=
  (redoHash h false, 0)

def isOld (epoch : Int) (e : Entry) : Bool :=
  e.stamp ≠ 0 ∧ e.stamp < epoch

def pmdaCachePurge (epoch : Int) : Hdr × Int :=
  h.mark (isOld epoch) .empty

end Ops

end Cache
