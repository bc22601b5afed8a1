import PcpModel.Library.CInt
import PcpModel.Library.Memory

-- The byte swaps of endian.c for value blocks, on a little-endian host.
namespace PduResult

open Memory Memory.Prog

namespace PmType

abbrev i32 : UInt8 := 0
abbrev u32 : UInt8 := 1
abbrev i64 : UInt8 := 2
abbrev u64 : UInt8 := 3
abbrev float : UInt8 := 4
abbrev double : UInt8 := 5
abbrev string : UInt8 := 6
abbrev aggregate : UInt8 := 7
abbrev event : UInt8 := 9

end PmType

-- PM_PDU_SIZE_BYTES
def pduSizeBytes (x : Nat) : Nat :=
  4 * ((x + 3) / 4)

section Words

variable (m : Bytes) (a : Int)

-- The first word of a block or of an event parameter: a length of 24 bits, then a type.
def vlen : Nat :=
  0x10000 * (m (a + 2)).toNat + 0x100 * (m (a + 1)).toNat + (m a).toNat

def vtype : UInt8 :=
  m (a + 3)

end Words

-- An int in the order of the host, and one in the order of the network.
def loadInt (a : Int) : Prog Access Int :=
  load a 4 fun m => CInt.ofWord (le32 m a)

def ntohl (a : Int) : Prog Access Int :=
  load a 4 fun m => CInt.ofWord (be32 m a)

def loadVtype (a : Int) : Prog Access UInt8 :=
  load a 4 (vtype · a)

def loadVlen (a : Int) : Prog Access Nat :=
  load a 4 (vlen · a)

-- The number of bytes at the start of a value that are swapped as one.
def blockWidth (t : UInt8) : Nat :=
  if t = PmType.u64 ∨ t = PmType.i64 ∨ t = PmType.double then 8
  else if t = PmType.float then 4
  else 0

def paramWidth (t : UInt8) : Nat :=
  if t = PmType.i32 ∨ t = PmType.u32 then 4 else blockWidth t

def swapValue (a : Int) (n : Nat) : Prog Access Unit :=
  if n = 0 then return () else swap a n

-- PM_EVENT_FLAG_MISSED is the top bit of er_flags.
def loadMissed (a : Int) : Prog Access Bool :=
  load a 4 fun m => le32 m a ≥ 0x80000000

namespace Hton

-- One event parameter. The result is the address of what follows.
def param (base : Int) : Prog Access Int := do
  swap base 4
  let t ← loadVtype (base + 4)
  let len ← loadVlen (base + 4)
  swap (base + 4) 4
  swapValue (base + 8) (paramWidth t)
  return base + 4 + pduSizeBytes len

def record (base : Int) : Prog Access Int := do
  swap base 4
  swap (base + 4) 4
  let missed ← loadMissed (base + 8)
  let nparams ← loadInt (base + 12)
  swap (base + 8) 4
  swap (base + 12) 4
  walk param (if missed then 0 else nparams.toNat) (base + 16)

def eventArray (vb : Int) : Prog Access Unit := do
  let nrecords ← loadInt (vb + 4)
  let _ ← walk record nrecords.toNat (vb + 8)
  swap (vb + 4) 4

def vbuf (vb : Int) (t : UInt8) : Prog Access Unit :=
  if t = PmType.event then eventArray vb else swapValue (vb + 4) (blockWidth t)

-- __htonpmValueBlock
def valueBlock (vb : Int) : Prog Access Unit := do
  vbuf vb (← loadVtype vb)
  swap vb 4

end Hton

namespace Ntoh

def param (base : Int) : Prog Access Int := do
  swap base 4
  swap (base + 4) 4
  let t ← loadVtype (base + 4)
  swapValue (base + 8) (paramWidth t)
  let len ← loadVlen (base + 4)
  return base + 4 + pduSizeBytes len

def record (base : Int) : Prog Access Int := do
  swap base 4
  swap (base + 4) 4
  swap (base + 8) 4
  swap (base + 12) 4
  let missed ← loadMissed (base + 8)
  let nparams ← loadInt (base + 12)
  walk param (if missed then 0 else nparams.toNat) (base + 16)

def eventArray (vb : Int) : Prog Access Unit := do
  swap (vb + 4) 4
  let nrecords ← loadInt (vb + 4)
  let _ ← walk record nrecords.toNat (vb + 8)

def vbuf (vb : Int) (t : UInt8) : Prog Access Unit :=
  if t = PmType.event then eventArray vb else swapValue (vb + 4) (blockWidth t)

-- __ntohpmValueBlock
def valueBlock (vb : Int) : Prog Access Unit := do
  swap vb 4
  vbuf vb (← loadVtype vb)

end Ntoh

end PduResult
