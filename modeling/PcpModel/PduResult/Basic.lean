import PcpModel.PduResult.Block

-- PDU_RESULT (p_result.c, 64 bits). Addresses are relative to the start of the PDU buffer.
namespace PduResult

open Memory Memory.Prog

-- The value of a pmValue: an int, or a pointer to a block.
inductive Value
  | lval (v : Int32)
  | pval (b : Block)

def Value.isLval : Value → Bool
  | lval _ => true
  | pval _ => false

structure PmValue where
  inst : Int32
  value : Value

-- A set without values holds an error code, or zero, as its number of values.
structure ValueSet where
  pmid : UInt32
  numval : Int32
  valfmt : Int32
  vlist : List PmValue
  count : vlist.length = numval.toInt.toNat
  insitu : ∀ v ∈ vlist, v.value.isLval ↔ valfmt = 0

structure PmResult where
  sec : Int
  usec : Int
  vset : List ValueSet

def htonl (n : Int) : List UInt8 :=
  be (CInt.uint n).toNat

-- The size of a PDU for which a buffer, a multiple of 1024 bytes, has a size of type `int`.
def needMax : Int :=
  CInt.intMax - 1024

theorem needMax_le : needMax ≤ CInt.intMax := by
  decide

def Value.vneed : Value → Nat
  | lval _ => 0
  | pval b => pduSizeBytes b.vlen

def ValueSet.need (s : ValueSet) : Nat :=
  if s.vlist.length > 0 then 12 + 8 * s.vlist.length else 8

def ValueSet.vneed (s : ValueSet) : Nat :=
  (s.vlist.map (·.value.vneed)).sum

def PmResult.need (r : PmResult) : Nat :=
  24 + (r.vset.map (·.need)).sum

def PmResult.vneed (r : PmResult) : Nat :=
  (r.vset.map (·.vneed)).sum

-- Copies a block, pads it and swaps its bytes.
def encodeBlock (vbp : Int) (b : Block) : Prog Access Unit := do
  store vbp (b.bytes .host)
  store (vbp + b.vlen) (.replicate (padding b.vlen) '~'.toUInt8)
  Hton.valueBlock vbp

def encodeValue (vp vbp : Int) (v : PmValue) : Prog Access Int := do
  store vp (htonl v.inst.toInt)
  match v.value with
  | .lval x =>
    store (vp + 4) (htonl x.toInt)
    return vbp
  | .pval b =>
    encodeBlock vbp b
    store (vp + 4) (htonl (vbp / 4))
    return vbp + pduSizeBytes b.vlen

def encodeValues (vp vbp : Int) : List PmValue → Prog Access Int
  | [] => return vbp
  | v :: vs => do encodeValues (vp + 8) (← encodeValue vp vbp v) vs

def encodeValfmt (vlp : Int) (s : ValueSet) : Prog Access Unit :=
  if s.numval.toInt > 0 then store (vlp + 8) (htonl s.valfmt.toInt) else return ()

def encodeSet (vlp vbp : Int) (s : ValueSet) : Prog Access Int := do
  store vlp (be s.pmid.toNat)
  encodeValfmt vlp s
  let vbp ← encodeValues (vlp + 12) vbp s.vlist
  store (vlp + 4) (htonl s.numval.toInt)
  return vbp

def encodeSets (vlp vbp : Int) : List ValueSet → Prog Access Int
  | [] => return vbp
  | s :: ss => do encodeSets (vlp + s.need) (← encodeSet vlp vbp s) ss

-- __pmEncodeResult, on a buffer of `need + vneed` bytes
def encodeResult (r : PmResult) : Prog Access Unit := do
  store 0 (le (r.need + r.vneed))
  store 4 (le 0x7001)
  store 12 (htonl r.sec)
  store 16 (htonl r.usec)
  store 20 (htonl r.vset.length)
  let _ ← encodeSets 24 (4 * (r.need / 4)) r.vset

def hdrLen : Prog Access Int :=
  loadInt 0

-- The sums of the first pass over the PDU, and the lowest address of a block.
@[ext]
structure Sums where
  nvsize : Int
  vsize : Int
  vbsize : Int
  vsplit : Int

-- Differences are compared with sizes as `size_t`. The result is none where `corrupt` is reached.
def checkBlock (len pduvbp : Int) (s : Sums) : Prog Access (Option Sums) := do
  Ntoh.valueBlock pduvbp
  let n ← loadVlen pduvbp
  let hlen ← hdrLen
  if n < 4 ∨ n > hlen then return none
  if n > CInt.size (len - pduvbp) then return none
  return some { s with vbsize := CInt.int (s.vbsize + pduSizeBytes n) }

def checkValue (len pduvp : Int) (s : Sums) : Prog Access (Option Sums) := do
  if 8 > CInt.size (len - pduvp) then return none
  let index ← ntohl (pduvp + 4)
  let hlen ← hdrLen
  if index < 0 ∨ index > hlen then return none
  let pduvbp := 4 * index
  if 4 > CInt.size (len - pduvbp) then return none
  checkBlock len pduvbp { s with vsplit := min s.vsplit pduvbp }

def checkValues (len : Int) : Nat → Int → Sums → Prog Access (Option Sums)
  | 0, _, s => return some s
  | n + 1, pduvp, s => do
    match ← checkValue len pduvp s with
    | none => return none
    | some s => checkValues len n (pduvp + 8) s

def checkSet (len : Int) (s : Sums) : Prog Access (Option Sums) := do
  let vlp := 24 + s.vsize
  if 8 > CInt.size (len - vlp) then return none
  let s := { s with vsize := CInt.int (s.vsize + 8), nvsize := CInt.int (s.nvsize + 32) }
  let numval ← ntohl (vlp + 4)
  let valfmt ← ntohl (vlp + 8)
  let hlen ← hdrLen
  if numval > hlen then return none
  if numval ≤ 0 then return some s
  if 12 > CInt.size (len - vlp) then return none
  if numval ≥ (CInt.intMax - 20) / 8 then return none
  let s := { s with
    vsize := CInt.int (s.vsize + 4 + numval * 8)
    nvsize := CInt.int (s.nvsize + (numval - 1) * 16) }
  if valfmt = 0 then return some s
  checkValues len numval.toNat (vlp + 12) s

def checkSets (len : Int) : Nat → Sums → Prog Access (Option Sums)
  | 0, s => return some s
  | n + 1, s => do
    match ← checkSet len s with
    | none => return none
    | some s => checkSets len n s

-- The sizes that the first pass has found must fit together.
def Sums.Accepted (s : Sums) (len hlen : Int) : Prop :=
  0 ≤ CInt.int (s.nvsize + s.vbsize) ∧
  CInt.size s.vsize ≤ CInt.intMax / 4 ∧
  CInt.size s.vbsize ≤ CInt.intMax / 8 ∧
  CInt.int (24 + s.vsize) = hlen - (len - s.vsplit) ∧
  CInt.int (CInt.int (24 + s.vsize) + s.vbsize) = len

instance {s : Sums} : Decidable (s.Accepted len hlen) :=
  inferInstanceAs (Decidable (_ ∧ _))

structure NewValue where
  inst : Int
  value : Int

-- `valfmt` is set only if there are values.
structure NewSet where
  pmid : Nat
  numval : Int
  valfmt : Option Int
  vlist : List NewValue

def readValue (offset valfmt vp : Int) : Prog Access NewValue := do
  let inst ← ntohl vp
  if valfmt = 0 then
    return ⟨inst, ← ntohl (vp + 4)⟩
  else
    let index ← load (vp + 4) 4 (be32 · (vp + 4))
    return ⟨inst, CInt.int (4 * index + offset)⟩

def readValues (offset valfmt : Int) : Nat → Int → Prog Access (List NewValue)
  | 0, _ => return []
  | n + 1, vp => return (← readValue offset valfmt vp) :: (← readValues offset valfmt n (vp + 8))

def readVlist (offset vsize : Int) (pmid : Nat) (numval : Int) : Prog Access (NewSet × Int) := do
  let vlp := 24 + vsize
  let vsize := CInt.int (vsize + 8)
  if numval ≤ 0 then return (⟨pmid, numval, none, []⟩, vsize)
  let valfmt ← ntohl (vlp + 8)
  let vlist ← readValues offset valfmt numval.toNat (vlp + 12)
  return (⟨pmid, numval, some valfmt, vlist⟩, CInt.int (vsize + 4 + numval * 8))

-- The second pass. It also yields the size of the vlists so far.
def readSet (offset vsize : Int) : Prog Access (NewSet × Int) := do
  let vlp := 24 + vsize
  let pmid ← load vlp 4 (be32 · vlp)
  let numval ← ntohl (vlp + 4)
  readVlist offset vsize pmid numval

def readSets (offset : Int) : Nat → Int → Prog Access (List NewSet)
  | 0, _ => return []
  | n + 1, vsize => do
    let (s, vsize) ← readSet offset vsize
    return s :: (← readSets offset n vsize)

structure Decoded where
  sec : Nat
  usec : Nat
  numpmid : Int
  nvsize : Int
  vbsize : Int
  newbuf : Bytes
  vset : List NewSet

-- The blocks are copied to the new buffer, behind the value sets.
def copyBlocks (newbuf : Bytes) (s : Sums) : Prog Access Bytes :=
  if s.vbsize = 0 then
    return newbuf
  else
    let data := 24 + 4 * (s.vsize / 4)
    load data s.vbsize.toNat fun m => copy newbuf s.nvsize m data s.vbsize.toNat

def decodeSums (newbuf : Bytes) (len numpmid : Int) (sec usec : Nat) (s : Sums) :
    Prog Access (Option Decoded) := do
  let hlen ← hdrLen
  if ¬s.Accepted len hlen then return none
  let newbuf ← copyBlocks newbuf s
  let vset ← readSets (CInt.int (s.nvsize - s.vsize - 24)) numpmid.toNat 0
  return some ⟨sec, usec, numpmid, s.nvsize, s.vbsize, newbuf, vset⟩

def decodeSets (newbuf : Bytes) (len numpmid : Int) (sec usec : Nat) :
    Prog Access (Option Decoded) := do
  match ← checkSets len numpmid.toNat ⟨0, 0, 0, len⟩ with
  | none => return none
  | some s => decodeSums newbuf len numpmid sec usec s

def decodeResult (newbuf : Bytes) : Prog Access (Option Decoded) := do
  let len ← hdrLen
  if CInt.size len < 24 then return none
  let numpmid ← ntohl 20
  if numpmid < 0 ∨ numpmid > len then return none
  if numpmid ≥ (CInt.intMax - 32) / 8 then return none
  let sec ← load 12 4 (be32 · 12)
  let usec ← load 16 4 (be32 · 16)
  decodeSets newbuf len numpmid sec usec

end PduResult
