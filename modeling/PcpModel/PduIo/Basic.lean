import PcpModel.Library.Memory
import PcpModel.Library.Stream
import PcpModel.PduBuf.Counts
import PcpModel.Pmapi.Header

-- PDUs are sent to and received from byte streams (pdu.c).
namespace PduIo

open Memory PduBuf Stream Pcp

def enomem : Int :=
  12

def eopnotsupp : Int :=
  95

def timeoutAsync : Int :=
  -2

def loadInt (m : Bytes) (a : Int) : Int :=
  CInt.ofWord (le32 m a)

def bytesAt (m : Bytes) (a : Int) (n : Nat) : List UInt8 :=
  (List.range n).map fun (i : Nat) => m (a + i)

-- A write takes some of the bytes, or it fails with the status that is to be returned.
abbrev Write := Except { sts : Int // sts < 0 } Nat

structure Sent where
  bytes : List UInt8
  error : Option { sts : Int // sts < 0 }

-- Undefined if the last write does not return.
def sendAll : List Write → List UInt8 → Option Sent
  | _, [] => some { bytes := [], error := none }
  | [], _ => none
  | .error sts :: _, _ => some { bytes := [], error := sts }
  | .ok n :: ws, l =>
    (sendAll ws (l.drop n)).map fun r => { r with bytes := l.take n ++ r.bytes }

-- The header is swapped in place.
def swapHeader (m : Bytes) (a : Int) : Bytes :=
  rev (rev (rev m a 4) (a + 4) 4) (a + 8) 4

-- __pmXmitPDU: the status, the bytes that have been written and the memory afterwards.
def xmitPDU (m : Bytes) (pdubuf : Int) (ws : List Write) : Option (Int × List UInt8 × Bytes) := do
  let len := loadInt m pdubuf
  let m := swapHeader m pdubuf
  let r ← sendAll ws (bytesAt m pdubuf len.toNat)
  return (r.error.elim len (·.val), r.bytes, swapHeader m pdubuf)

inductive Fault
  | timeout
  | error
  deriving DecidableEq

def Fault.status : Fault → Int
  | .timeout => pmErrTimeout
  | .error => -1

abbrev Input := List (Arrival UInt8 Fault)

structure Read where
  sts : Int
  got : List UInt8
  input : Input

def pduread (timeout : Int) (input : Input) (len : Int) : Read :=
  if timeout = timeoutAsync then
    { sts := -eopnotsupp, got := [], input }
  else
    let r := receive input len.toNat
    match r.fault with
    | some e => { sts := e.status, got := r.got, input := r.rest }
    | none => { sts := r.got.length, got := r.got, input := r.rest }

-- The memory that valloc returns is aligned and not in use.
structure Allocator where
  valloc : Pool → Int → Option Int
  fresh : valloc p size = some a → Valloc p.ctl.mem p.nctl size a

structure Reader where
  pool : Pool
  mem : Bytes
  maxsize : Int

structure Got where
  sts : Int
  result : Option Int
  reader : Reader
  input : Input

def Got.pdu (g : Got) : Option Int :=
  if g.sts < 0 then none else g.result

namespace Reader

variable (al : Allocator) (rd : Reader)

def findPDUBuf (need : Int) : Option (Option Int × Reader) := do
  let (pool, a) ← pmFindPDUBuf rd.pool need (al.valloc rd.pool (newSize need))
  return (a, { rd with pool })

def unpinPDUBuf (a : Int) : Option Reader := do
  let (pool, _) ← pmUnpinPDUBuf rd.pool a
  return { rd with pool }

def Fits (a : Int) (n : Nat) : Prop :=
  ∃ r < rd.pool.nctl, (rd.pool.ctl r).bcBuf ≤ a ∧ a + n ≤ (rd.pool.ctl r).bcBufend

instance : Decidable (rd.Fits a n) :=
  inferInstanceAs (Decidable (∃ r < rd.pool.nctl, _))

def store (a : Int) (l : List UInt8) : Option Reader :=
  if l = [] ∨ rd.Fits a l.length then some { rd with mem := write rd.mem a l } else none

def swap (a : Int) : Reader :=
  { rd with mem := rev rd.mem a 4 }

def fail (a sts : Int) (input : Input) : Option Got := do
  return { sts, result := none, reader := ← rd.unpinPDUBuf a, input }

-- The rest of the header is swapped, and the PDU is returned. The result is set in any case.
def finish (a : Int) (input : Input) : Option Got :=
  let rd := rd.swap (a + 4)
  let type := loadInt rd.mem (a + 4)
  if type < 0 then
    (rd.fail a pmErrIpc input).map ({ · with result := a })
  else
    some { sts := type, result := a, reader := rd.swap (a + 8), input }

variable (timeout : Int) (limit : Option Int)

-- The buffer has the first `len` bytes of the PDU.
def readRest (a len plen : Int) (input : Input) : Option Got := do
  let r := pduread timeout input (plen - len)
  let rd ← rd.store (a + len) r.got
  if r.sts ≠ plen - len then
    rd.fail a (if r.sts = pmErrTimeout then pmErrTimeout else pmErrIpc) r.input
  else
    rd.finish a r.input

-- These bytes are moved to a buffer that is large enough for all of the PDU.
def readBody (a len plen : Int) (input : Input) : Option Got := do
  let tmpsize := if plen > rd.maxsize then newSize plen else rd.maxsize
  let rd := { rd with maxsize := tmpsize }
  match ← rd.findPDUBuf al tmpsize with
  | (none, rd) => rd.fail a (-enomem) input
  | (some b, rd) =>
    let rd ← rd.store b (bytesAt rd.mem a len.toNat)
    let rd ← rd.unpinPDUBuf a
    rd.readRest timeout b len plen input

def checkLen (a len : Int) (input : Input) : Option Got :=
  let rd := rd.swap a
  let plen := loadInt rd.mem a
  if plen < 12 then
    rd.fail a pmErrIpc input
  else if limit.any (· < plen) then
    rd.fail a pmErrToobig input
  else if len < plen then
    rd.readBody al timeout a len plen input
  else
    rd.finish a input

def readHeader (a : Int) (input : Input) : Option Got := do
  let r := pduread timeout input 12
  let rd ← rd.store a r.got
  -- An error is taken for the end of the stream.
  if r.sts = -1 then
    rd.fail a 0 r.input
  else if r.sts ≥ 4 then
    rd.checkLen al timeout limit a r.sts r.input
  else if r.sts = pmErrTimeout then
    rd.fail a pmErrTimeout r.input
  else if r.sts ≠ 0 then
    rd.fail a pmErrIpc r.input
  else
    rd.fail a 0 r.input

-- __pmGetPDU, where `limit` is the ceiling in the mode LIMIT_SIZE.
def getPDU (input : Input) : Option Got := do
  match ← rd.findPDUBuf al rd.maxsize with
  | (none, rd) => return { sts := -enomem, result := none, reader := rd, input }
  | (some a, rd) => rd.readHeader al timeout limit a input

end Reader

end PduIo
