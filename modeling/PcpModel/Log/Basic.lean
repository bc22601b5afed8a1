import PcpModel.Library.Stdio
import PcpModel.Pmapi.Header

-- The volumes of an archive and how they are read and written (logutil.c).
namespace Log

open Stdio Pcp

def enoent : Int :=
  2

def pmLogMagic : Nat :=
  0x50052600

def pmLogVers02 : Nat :=
  2

def pmLogVolTi : Int :=
  -2

def pmLogVolMeta : Int :=
  -1

-- __pmLogLabel
structure Label where
  magic : Int
  pid : Int
  sec : Int
  usec : Int
  vol : Int
  hostname : Vector UInt8 64
  tz : Vector UInt8 40

def labelSize : Nat :=
  132

def Label.bytes (lp : Label) : List UInt8 :=
  htonl lp.magic ++ htonl lp.pid ++ htonl lp.sec ++ htonl lp.usec ++ htonl lp.vol ++
    lp.hostname.toList ++ lp.tz.toList

def logWriteLabel (lp : Label) : List UInt8 :=
  htonl labelSize ++ lp.bytes ++ htonl labelSize

-- A PDU that follows its header of 12 bytes. The length is that of both.
structure Pdu where
  data : List UInt8
  small : 12 + data.length ≤ 0x7fffffff

def Pdu.len (pb : Pdu) : Nat :=
  12 + pb.data.length

inductive LogState
  | new
  | init

-- The files of an archive that is being written.
structure Writer where
  state : LogState
  label : Label
  tifp : List UInt8
  mdfp : List UInt8
  mfp : List UInt8

-- Writes the labels together with the first result.
def startLog (lcp : Writer) (pb : Pdu) : Writer :=
  let label := { lcp.label with
    sec := ntohl (pb.data.take 4)
    usec := ntohl (pb.data.drop 4 |>.take 4)
  }
  { state := .init
    label := { label with vol := 0 }
    tifp := lcp.tifp ++ logWriteLabel { label with vol := pmLogVolTi }
    mdfp := lcp.mdfp ++ logWriteLabel { label with vol := pmLogVolMeta }
    mfp := lcp.mfp ++ logWriteLabel { label with vol := 0 }
  }

def logPutResult (lcp : Writer) (pb : Pdu) : Writer :=
  let lcp := match lcp.state with | .new => startLog lcp pb | .init => lcp
  let head := CInt.int (pb.len - 12 + 8)
  let sz := CInt.int (head - 4)
  -- The length is stored in the last word of the header, from where on the PDU is written.
  { lcp with mfp := lcp.mfp ++ (htonl head ++ pb.data).take sz.toNat ++ htonl head }

-- A volume that has no file is missing.
structure Archive where
  file : Int → Option (List UInt8)
  junk : Int → Bool

-- The part of __pmLogCtl that is used for reading. The stream is NULL if there is none.
structure LogCtl where
  minvol : Int
  maxvol : Int
  curvol : Int
  mfp : Option (File Int)
  seen : List Bool

def growSeen (junk : Bool) (seen : List Bool) (vol : Int) : List Bool :=
  if vol ≥ 0 ∧ vol ≥ seen.length then
    seen ++ .replicate (vol.toNat - seen.length) false ++ [junk]
  else
    seen

-- Reads a label and checks it, where the length must stand before and behind it.
def readLabel (f : File Int) (vol : Int) : File Int × Int :=
  let (len, f) := (f.seekSet 0).read 4
  if len.length ≠ 4 ∨ ntohl len ≠ labelSize then
    (f, if len.length ≠ 4 then pmErrNodata else pmErrLabel)
  else
    let (lp, f) := f.read 124
    if lp.length ≠ 124 then
      (f, pmErrLabel)
    else
      let (len, f) := f.read 4
      if len.length ≠ 4 ∨ ntohl len ≠ labelSize then
        (f, pmErrLabel)
      else
        let magic := (CInt.uint (ntohl (lp.take 4))).toNat
        let version := magic &&& 0xff
        if magic &&& 0xffffff00 ≠ pmLogMagic ∨ version ≠ pmLogVers02 ∨
            ntohl (lp.drop 16 |>.take 4) ≠ vol then
          (f, pmErrLabel)
        else
          (f, version)

def logChkLabel (ar : Archive) (seen : List Bool) (f : File Int) (vol : Int) :
    List Bool × File Int × Int :=
  if vol ≥ 0 ∧ seen.getD vol.toNat false then
    (seen, f.seekSet labelSize, 0)
  else
    let seen := growSeen (ar.junk vol) seen vol
    let (f, sts) := readLabel f vol
    if sts ≥ 0 ∧ vol ≥ 0 then (seen.set vol.toNat true, f, sts) else (seen, f, sts)

-- The old stream has been closed when the new one is opened.
def logChangeVol (ar : Archive) (lcp : LogCtl) (vol : Int) : LogCtl × Int :=
  if lcp.curvol = vol then
    (lcp, 0)
  else
    match ar.file vol with
    | none => ({ lcp with mfp := none }, -enoent)
    | some data =>
      let (seen, f, sts) := logChkLabel ar lcp.seen ⟨vol, data, 0⟩ vol
      if sts < 0 then ({ lcp with seen, mfp := some f }, sts)
      else ({ lcp with seen, mfp := some f, curvol := vol }, sts)

-- The first volume is opened.
def logOpen (ar : Archive) (minvol maxvol : Int) : LogCtl :=
  (logChangeVol ar ⟨minvol, maxvol, -1, none, []⟩ minvol).1

section Read

inductive Mode
  | forw
  | back
  deriving DecidableEq

inductive ReadOption
  | next
  | toEof
  deriving DecidableEq

-- What is done with a record that has been read: `paranoidCheck` and `__pmDecodeResult`.
structure Codec (ρ : Type) where
  check : List UInt8 → Bool
  decode : List UInt8 → Option ρ

variable {ρ : Type} (ar : Archive) (codec : Codec ρ) (mode : Mode) (option : ReadOption)

-- Reads a record after its head (or its tail, when reading backwards).
def readRecord (offset : Nat) (head : Int) (f : File Int) : File Int × Except Int ρ :=
  let rlen := CInt.int (head - 8)
  if rlen < 0 ∨ mode = .back ∧ rlen > offset then
    (f, .error pmErrLogrec)
  else
    let f := if mode = .back then f.seekCur (-(4 + rlen)) else f
    let (pb, f) := f.read rlen.toNat
    if pb.length ≠ rlen.toNat then
      (f.seekSet offset, .error pmErrLogrec)
    else
      let f := if mode = .back then f.seekCur (-(rlen + 4)) else f
      let (trail, f) := f.read 4
      if trail.length ≠ 4 then
        (f.seekSet offset, .error pmErrLogrec)
      else if ntohl trail ≠ head then
        (f, .error pmErrLogrec)
      else if option = .toEof ∧ ¬codec.check pb then
        (f, .error pmErrLogrec)
      else
        let f := if mode = .back then f.seekCur (-4) else f
        match codec.decode pb with
        | none => (f, .error pmErrLogrec)
        | some r => (f, .ok r)

-- Looks for a head in the next `n` volumes. The search starts again at the end of a volume.
def nextHead (offset : Nat) (lcp : LogCtl) (vol : Int) : Nat → Option (LogCtl × Option Int)
  | 0 => some (lcp, none)
  | n + 1 =>
    let (lcp, sts) := logChangeVol ar lcp vol
    if sts < 0 then
      nextHead offset lcp (vol + 1) n
    else do
      let f ← lcp.mfp
      let (head, f) := f.read 4
      if head.length ≠ 4 then
        nextHead offset { lcp with mfp := some (f.seekSet offset) } (vol + 1) n
      else
        return ({ lcp with mfp := some f }, some (ntohl head))

def prevEnd (lcp : LogCtl) (vol : Int) : Nat → Option (LogCtl × Option (File Int))
  | 0 => some (lcp, none)
  | n + 1 =>
    let (lcp, sts) := logChangeVol ar lcp vol
    if sts < 0 then
      prevEnd lcp (vol - 1) n
    else do
      let f := (← lcp.mfp).seekEnd
      let lcp := { lcp with mfp := some f }
      if f.pos ≤ labelSize then prevEnd lcp (vol - 1) n else return (lcp, some f)

def readAgain (lcp : LogCtl) (offset : Nat) (f : File Int) : Option (LogCtl × Except Int ρ) := do
  let (head, f) := f.read 4
  if head.length ≠ 4 then
    let lcp := { lcp with mfp := some (f.seekSet offset) }
    match ← nextHead ar offset lcp (lcp.curvol + 1) (lcp.maxvol - lcp.curvol).toNat with
    | (lcp, none) => return (lcp, .error pmErrEol)
    | (lcp, some head) =>
      let (f, r) := readRecord codec mode option offset head (← lcp.mfp)
      return ({ lcp with mfp := some f }, r)
  else
    let (f, r) := readRecord codec mode option offset (ntohl head) f
    return ({ lcp with mfp := some f }, r)

-- Nothing is defined (`none`) if the stream is NULL.
def logRead (lcp : LogCtl) : Option (LogCtl × Except Int ρ) := do
  let f ← lcp.mfp
  match mode with
  | .forw => readAgain ar codec .forw option lcp f.pos f
  | .back =>
    if f.pos ≤ labelSize then
      match ← prevEnd ar lcp (lcp.curvol - 1) (lcp.curvol - lcp.minvol).toNat with
      | (lcp, none) => return (lcp, .error pmErrEol)
      | (lcp, some f) => readAgain ar codec .back option lcp f.pos (f.seekCur (-4))
    else
      readAgain ar codec .back option lcp f.pos (f.seekCur (-4))

end Read

end Log
