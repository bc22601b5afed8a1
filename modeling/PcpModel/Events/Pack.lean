import Mathlib.Data.List.ModifyLast
import PcpModel.Library.Run
import PcpModel.Library.Cells
import PcpModel.Events.Unpack
import PcpModel.PduResult.Block

-- The event arrays of PMDAs (events.c of libpcp_pmda). There is always memory for the buffer.
namespace Events.Pack

open Memory PduResult CInt Pcp

structure Buf where
  mem : Bytes
  baddr : Int
  bptr : Int
  berp : Int
  blen : Nat

-- What holds of every buffer, no matter what it has been used for.
def Buf.Valid (b : Buf) : Prop :=
  b.baddr ≤ b.bptr ∧ b.blen ≤ CInt.intMax

def newArray : Buf :=
  ⟨fun _ => 0, 0, 0, 0, 0⟩

theorem newArray_valid : newArray.Valid :=
  ⟨le_rfl, by decide⟩

-- The bytes of a value that is assigned to an `int`.
def word (n : Int) : List UInt8 :=
  le (CInt.uint n).toNat

def increment (m : Bytes) (a : Int) : Bytes :=
  write m a (le (le32 m a + 1))

def sizeof (type : UInt8) : Option Nat :=
  if type = PmType.i32 ∨ type = PmType.u32 ∨ type = PmType.float then
    some 4
  else if type = PmType.i64 ∨ type = PmType.u64 ∨ type = PmType.double then
    some 8
  else
    none

-- The arguments of pmdaEventAddParam. The value consists of the bytes that are to be copied.
structure Param where
  pmid : UInt32
  type : UInt8
  vbuf : List UInt8
  sized : ∀ n ∈ sizeof type, vbuf.length = n
  aggregate : type = PmType.aggregate → vbuf.length + 4 < 0x1000000

namespace Param

def string (pmid : UInt32) (s : List UInt8) : Param where
  pmid := pmid
  type := PmType.string
  vbuf := s
  sized := nofun
  aggregate := nofun

variable (p : Param)

def Supported : Prop :=
  (sizeof p.type).isSome ∨ p.type = PmType.string ∨ p.type = PmType.aggregate

instance : Decidable p.Supported :=
  inferInstanceAs (Decidable (_ ∨ _))

def vlen : Int :=
  match sizeof p.type with
  | some n => n
  | none => if p.type = PmType.string then CInt.int p.vbuf.length else p.vbuf.length

def need : Nat :=
  match sizeof p.type with
  | some n => 8 + n
  | none => 8 + pduSizeBytes p.vlen.toNat

def bytes : List UInt8 :=
  le p.pmid.toNat ++ header p.type (4 + p.vlen.toNat) ++ p.vbuf.take p.vlen.toNat

end Param

namespace Buf

variable (b : Buf)

def nextLen : Nat :=
  if b.blen = 0 then 512 else b.blen * 2

def moveTo (offset erOffset baddr : Int) : Buf where
  mem := copy b.mem baddr b.mem b.baddr b.blen
  baddr := baddr
  bptr := baddr + offset
  berp := baddr + erOffset
  blen := b.nextLen

end Buf

section Buffer

-- The address at which a buffer of a given length is allocated.
variable (realloc : Nat → Int)

-- The loop of check_buf. The length of the buffer is an `int`.
def grow (need : Nat) (offset erOffset : Int) : Nat → Buf → Option Buf
  | 0, _ => none
  | n + 1, b =>
    if b.blen = 0 ∨ b.bptr + need ≥ b.baddr + b.blen - 1 then
      if b.nextLen > CInt.intMax then
        none
      else
        grow need offset erOffset n (b.moveTo offset erOffset (realloc b.nextLen))
    else
      some b

def checkBuf (b : Buf) (need : Nat) : Option Buf :=
  grow realloc need (b.bptr - b.baddr) (b.berp - b.baddr) 32 b

def eventResetArray (b : Buf) : Option Buf := do
  let b ← checkBuf realloc b 8
  return { b with mem := write b.mem (b.baddr + 4) (le 0), bptr := b.baddr + 8 }

def newRecord (b : Buf) (sec usec : Int) (flags : Nat) (nparams : Int) : Option Buf := do
  let b ← checkBuf realloc b 16
  let mem := increment b.mem (b.baddr + 4)
  let mem := write mem b.bptr (word sec ++ word usec ++ le flags ++ word nparams)
  return { b with mem, berp := b.bptr, bptr := b.bptr + 16 }

def eventAddRecord (b : Buf) (sec usec : Int) (flags : UInt32) : Option (Int × Buf) :=
  if flags.toNat ≥ missed then
    some (pmErrConv, b)
  else
    (newRecord realloc b sec usec flags.toNat 0).map (0, ·)

def eventAddMissedRecord (b : Buf) (sec usec : Int) (n : Int32) : Option (Int × Buf) :=
  (newRecord realloc b sec usec missed n.toInt).map (0, ·)

-- A negative length is converted to one that no memory has.
def eventAddParam (b : Buf) (p : Param) : Option (Int × Buf) :=
  if ¬p.Supported then
    some (pmErrType, b)
  else if p.vlen < 0 ∨ p.need > CInt.intMax then
    none
  else do
    let b ← checkBuf realloc b p.need
    let mem := write b.mem b.bptr p.bytes
    let mem := increment mem (b.berp + 12)
    return (0, { b with mem, bptr := b.bptr + p.need })

end Buffer

def eventGetAddr (b : Buf) : Bytes :=
  let mem := write b.mem b.baddr (header PmType.event (b.bptr - b.baddr).toNat)
  fun i => mem (b.baddr + i)

inductive Call
  | addRecord (sec usec : Int) (flags : UInt32)
  | addMissedRecord (sec usec : Int) (n : Int32)
  | addParam (p : Param)

def Call.run (realloc : Nat → Int) (b : Buf) : Call → Option (Int × Buf)
  | addRecord sec usec flags => eventAddRecord realloc b sec usec flags
  | addMissedRecord sec usec n => eventAddMissedRecord realloc b sec usec n
  | addParam p => eventAddParam realloc b p

def step (realloc : Nat → Int) (b : Buf) (c : Call) : Option Buf :=
  (c.run realloc b).map Prod.snd

-- What the calls are for: a list of records with their parameters.
inductive Body
  | event (flags : UInt32) (params : List Param)
  | missed (n : Int32)

structure Record where
  sec : Int
  usec : Int
  body : Body

namespace Record

def push (p : Param) (r : Record) : Record :=
  match r.body with
  | .event flags params => { r with body := .event flags (params ++ [p]) }
  | .missed _ => r

def Ordinary (r : Record) : Prop :=
  match r.body with
  | .event .. => True
  | .missed _ => False

end Record

def add (rs : List Record) : Call → List Record
  | .addRecord sec usec flags =>
    if flags.toNat ≥ missed then rs else rs ++ [⟨sec, usec, .event flags []⟩]
  | .addMissedRecord sec usec n => rs ++ [⟨sec, usec, .missed n⟩]
  | .addParam p => if p.Supported then rs.modifyLast (Record.push p) else rs

-- Parameters belong to ordinary records.
def Allows (rs : List Record) : Call → Prop
  | .addParam _ => ∃ r ∈ rs.getLast?, r.Ordinary
  | _ => True

-- The buffer has been moved, with what it contains.
structure Moved (b b' : Buf) : Prop where
  bptr : b'.bptr - b'.baddr = b.bptr - b.baddr
  berp : b'.berp - b'.baddr = b.berp - b.baddr
  blen : b.blen ≤ b'.blen
  mem : ∀ i : Int, 0 ≤ i → i < b.blen → b'.mem (b'.baddr + i) = b.mem (b.baddr + i)

namespace Moved

theorem refl : Moved b b :=
  ⟨rfl, rfl, le_rfl, fun _ _ _ => rfl⟩

theorem trans (h : Moved b b') (h' : Moved b' b'') : Moved b b'' where
  bptr := h'.bptr.trans h.bptr
  berp := h'.berp.trans h.berp
  blen := h.blen.trans h'.blen
  mem i h₀ h₁ := by
    have := h.blen
    rw [h'.mem i h₀ (by omega), h.mem i h₀ h₁]

theorem moveTo (baddr : Int) (ho : b.bptr - b.baddr = offset) (he : b.berp - b.baddr = erOffset) :
    Moved b (b.moveTo offset erOffset baddr) where
  bptr := by simp [Buf.moveTo, ho]
  berp := by simp [Buf.moveTo, he]
  blen := by simp only [Buf.moveTo, Buf.nextLen]; split <;> omega
  mem i h₀ h₁ := by
    simp only [Buf.moveTo, copy]
    rw [if_pos (by omega)]
    congr 1
    omega

end Moved

variable {realloc : Nat → Int} {b b' : Buf} {offset erOffset : Int} {need n : Nat}

theorem grow_moved (hg : grow realloc need offset erOffset n b = some b')
    (ho : b.bptr - b.baddr = offset) (he : b.berp - b.baddr = erOffset) :
    Moved b b' ∧ b'.bptr + need + 1 < b'.baddr + b'.blen ∧
      (b.blen ≤ intMax → b'.blen ≤ intMax) := by
  induction n generalizing b
  case zero => contradiction
  case succ n ih =>
    rw [grow] at hg
    split at hg
    case isTrue =>
      split at hg
      case isTrue => contradiction
      case isFalse hi =>
        have hm := Moved.moveTo (realloc b.nextLen) ho he
        obtain ⟨h₁, h₂, h₃⟩ := ih hg (by rw [hm.bptr, ho]) (by rw [hm.berp, he])
        exact ⟨hm.trans h₁, h₂, fun _ => h₃ (not_lt.mp hi)⟩
    case isFalse =>
      cases hg
      exact ⟨.refl, by omega, id⟩

theorem grow_defined (ho : b.bptr - b.baddr = offset) (hb : b.blen ≠ 0)
    (hn : offset + need + 2 ≤ b.blen * 2 ^ n) (hi : 2 * (offset + need + 2) ≤ intMax) :
    ∃ b', grow realloc need offset erOffset (n + 1) b = some b' := by
  induction n generalizing b
  case zero =>
    rw [grow, if_neg (by omega)]
    exact ⟨b, rfl⟩
  case succ n ih =>
    rw [grow]
    split
    case isTrue hl =>
      have hl : b.nextLen = b.blen * 2 := if_neg hb
      rw [if_neg (by omega)]
      refine ih ?_ ?_ ?_
      · simp [Buf.moveTo]
      · simp [Buf.moveTo, hl, hb]
      · refine hn.trans_eq ?_
        simp [Buf.moveTo, hl, pow_succ', mul_assoc]
    case isFalse => exact ⟨b, rfl⟩

theorem checkBuf_defined (hn : b.bptr - b.baddr + need ≤ 0x10000000) :
    ∃ b', checkBuf realloc b need = some b' := by
  have hi : 2 * (b.bptr - b.baddr + need + 2) ≤ intMax := by
    rw [intMax]
    omega
  by_cases hb : b.blen = 0
  · have hl : b.nextLen = 512 := if_pos hb
    rw [checkBuf, grow, if_pos (.inl hb), if_neg (by rw [hl]; decide)]
    refine grow_defined ?_ ?_ ?_ hi
    · simp [Buf.moveTo]
    · simp [Buf.moveTo, hl]
    · simp only [Buf.moveTo]
      omega
  · refine grow_defined rfl hb ?_ hi
    omega

theorem checkBuf_moved (h : checkBuf realloc b need = some b') :
    Moved b b' ∧ b'.bptr + need + 1 < b'.baddr + b'.blen ∧
      (b.blen ≤ intMax → b'.blen ≤ intMax) :=
  grow_moved h rfl rfl

end Events.Pack
