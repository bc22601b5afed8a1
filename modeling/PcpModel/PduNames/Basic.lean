import PcpModel.Library.Decoder
import PcpModel.PduResult.Basic
import PcpModel.Pmapi.Header

-- PDU_PMNS_NAMES (p_pmns.c). Addresses are relative to the start of the PDU buffer or block.
namespace PduNames

open Memory Decoder Pcp

-- What is read of the PDU, or written to a block of some size.
inductive Use
  | pdu (a : Access)
  | block (a : Access) (size : Int)

def Use.Within (len : Int) : Use → Prop
  | pdu a => a.Within len
  | block a size => a.Within size

instance {u : Use} : Decidable (u.Within len) :=
  match u with
  | .pdu _ => inferInstanceAs (Decidable (Access.Within ..))
  | .block _ _ => inferInstanceAs (Decidable (Access.Within ..))

def ntohl (a : Int) : Decoder Use Int Int :=
  read (.pdu ⟨a, 4⟩) fun m => CInt.ofWord (be32 m a)

-- The string that starts with a number of bytes and is terminated after them.
def string (m : Bytes) (a : Int) (n : Nat) : List UInt8 :=
  ((List.range n).map fun k => m (a + (k : Nat))).takeWhile (· ≠ 0)

-- `name_t` and `name_status_t`
inductive Layout
  | name
  | nameStatus
  deriving DecidableEq

def Layout.head : Layout → Nat
  | name => 4
  | nameStatus => 8

structure Name where
  status : Int32
  name : List UInt8
  deriving DecidableEq

section Send

open PduResult (htonl needMax pduSizeBytes)

structure NameList where
  namelist : List (List UInt8)
  statuslist : Option (List Int32)
  parallel : ∀ l ∈ statuslist, l.length = namelist.length
  terminated : ∀ n ∈ namelist, 0 ∉ n

variable (l : NameList)

def NameList.layout : Layout :=
  if l.statuslist.isSome then .nameStatus else .name

def NameList.names : List Name :=
  match l.statuslist with
  | none => l.namelist.map fun n => ⟨0, n⟩
  | some s => s.zipWith Name.mk l.namelist

def NameList.nstrbytes : Nat :=
  (l.namelist.map fun n => n.length + 1).sum

def NameList.need : Nat :=
  24 + (l.namelist.map fun n => pduSizeBytes n.length + l.layout.head).sum

def pad (n : Nat) : List UInt8 :=
  List.replicate (pduSizeBytes n - n) 0x7e

def Name.bytes (n : Name) : Layout → List UInt8
  | .name => htonl n.name.length ++ (n.name ++ pad n.name.length)
  | .nameStatus => htonl n.status.toInt ++ htonl n.name.length ++ (n.name ++ pad n.name.length)

def NameList.numstatus : Nat :=
  match l.layout with
  | .name => 0
  | .nameStatus => l.namelist.length

def sendNameList (source : UInt32) : Option (List UInt8) :=
  if (l.need : Int) ≤ needMax then
    some <| le l.need ++ le 0x700e ++ le source.toNat ++ htonl l.nstrbytes ++
      htonl l.numstatus ++ htonl l.namelist.length ++ l.names.flatMap (·.bytes l.layout)
  else
    none

end Send

section Decode

open PduResult (pduSizeBytes)

structure Pos where
  i : Nat
  j : Int
  dest : Int

def Pos.np (s : Pos) : Int :=
  24 + s.j

variable (len : Int) (statuslist : Bool) (layout : Layout) (numnames : Nat) (nstrbytes : Int)

def namesize : Int :=
  numnames * 8 + nstrbytes

def decodeStatus (s : Pos) : Decoder Use Int Int32 :=
  if layout = .nameStatus ∧ statuslist then do
    let status ← ntohl s.np
    tell (.block ⟨4 * s.i, 4⟩ (numnames * 4))
    return .ofInt status
  else
    return 0

def decodeName (s : Pos) : Decoder Use Int (Name × Pos) := do
  tell (.block ⟨8 * s.i, 8⟩ (namesize numnames nstrbytes))
  require (layout.head + 4 ≤ CInt.size (len - s.np)) pmErrIpc
  let namelen ← ntohl (s.np + layout.head - 4)
  -- ensure source buffer contains everything that we copy over
  require (CInt.size (layout.head + namelen) ≤ CInt.size (len - s.np)) pmErrIpc
  -- ensure space in destination; note null-terminator is added
  require (0 ≤ namelen ∧ CInt.int (namelen + 1) ≤ namesize numnames nstrbytes - s.dest) pmErrIpc
  let status ← decodeStatus statuslist layout numnames s
  let name ← read (.pdu ⟨s.np + layout.head, namelen.toNat⟩) fun m =>
    string m (s.np + layout.head) namelen.toNat
  tell (.block ⟨s.dest, namelen.toNat⟩ (namesize numnames nstrbytes))
  tell (.block ⟨s.dest + namelen, 1⟩ (namesize numnames nstrbytes))
  let j := CInt.int (s.j + layout.head + pduSizeBytes namelen.toNat)
  return (⟨status, name⟩, ⟨s.i + 1, j, s.dest + namelen + 1⟩)

structure Decoded where
  namelist : List (List UInt8)
  statuslist : Option (List Int32)
  deriving DecidableEq

def layoutOf (numstatus : Int) : Layout :=
  if numstatus = 0 then .name else .nameStatus

def first : Pos :=
  ⟨0, 0, numnames * 8⟩

def decodeRecords (numnames numstatus nstrbytes : Int) : Decoder Use Int Decoded :=
  if numnames = 0 then
    return ⟨[], none⟩
  else do
    -- validity checks - none of these conditions should happen
    require (0 ≤ numnames ∧ 0 ≤ nstrbytes) pmErrIpc
    -- anti-DOS measure - limiting allowable memory allocations
    require (numnames ≤ len ∧ nstrbytes ≤ len) pmErrIpc
    -- numstatus must be one (and only one) of zero or numnames
    require (numstatus = 0 ∨ numstatus = numnames) pmErrIpc
    -- need space for name ptrs and the name characters
    require (numnames < (CInt.intMax - nstrbytes) / 8) pmErrIpc
    -- need space for status values
    require (statuslist ∧ numstatus > 0 → numstatus < CInt.intMax / 4) pmErrIpc
    let r ← records (decodeName len statuslist (layoutOf numstatus) numnames.toNat nstrbytes)
      numnames.toNat (first numnames.toNat)
    return ⟨r.1.map (·.name),
      if statuslist ∧ numstatus > 0 then some (r.1.map (·.status)) else none⟩

def decodeNameList : Decoder Use Int Decoded := do
  let len ← read (.pdu ⟨0, 4⟩) fun m => CInt.ofWord (le32 m 0)
  require (24 ≤ CInt.size len) pmErrIpc
  let numnames ← ntohl 20
  let numstatus ← ntohl 16
  let nstrbytes ← ntohl 12
  decodeRecords len statuslist numnames numstatus nstrbytes

end Decode

end PduNames
