import PcpModel.InstProfile.Basic
import PcpModel.Library.Decoder
import PcpModel.PduResult.Basic
import PcpModel.Pmapi.Header

-- PDU_PROFILE (p_profile.c). Addresses are relative to the start of the PDU buffer.
namespace PduProfile

open Memory Decoder Pcp

def limitCtxnum : Int :=
  2048

-- The largest numbers of entries and of instances that can be allocated.
def limitProfile : Int :=
  CInt.intMax / 24

def limitInstances : Int :=
  CInt.intMax / 4

structure Entry where
  indom : UInt32
  state : Int32
  instances : Option (List Int32) -- `none` is `NULL`

def Entry.list (e : Entry) : List Int32 :=
  e.instances.getD []

structure Profile where
  state : Int32
  profile : List Entry

section Send

open PduResult (htonl needMax)

variable (ctxnum : Int) (p : Profile)

def need : Nat :=
  28 + p.profile.length * 16 + (p.profile.map (4 * ·.list.length)).sum

def Entry.head (e : Entry) : List UInt8 :=
  be e.indom.toNat ++ htonl e.state.toInt ++ htonl e.list.length ++ le 0

def Entry.words (e : Entry) : List UInt8 :=
  e.list.flatMap fun i => htonl i.toInt

def sendProfile (source : UInt32) : Option (List UInt8) :=
  if (need p : Int) ≤ needMax then
    some <| le (need p) ++ le 0x7002 ++ le source.toNat ++ htonl ctxnum ++ htonl p.state.toInt ++
      htonl p.profile.length ++ le 0 ++ p.profile.flatMap Entry.head ++
      p.profile.flatMap Entry.words
  else
    none

end Send

section Decode

variable (len : Int)

structure Head where
  indom : UInt32
  state : Int32
  numinst : Int

def decodeHead (p : Int) : Decoder Access Int (Head × Int) := do
  require (p < len) pmErrIpc
  let indom ← read ⟨p, 4⟩ fun m => .ofNat (be32 m p)
  let state ← ntohl (p + 4)
  let numinst ← ntohl (p + 8)
  return (⟨indom, .ofInt state, numinst⟩, p + 16)

def decodeInstance (p : Int) : Decoder Access Int (Int32 × Int) := do
  require (p < len) pmErrIpc
  let inst ← ntohl p
  return (.ofInt inst, p + 4)

def decodeList (numinst p : Int) : Decoder Access Int (Option (List Int32) × Int) :=
  if numinst > 0 then do
    require (numinst < limitInstances ∧ numinst < len) pmErrIpc
    let r ← records (decodeInstance len) numinst.toNat p
    return (some r.1, r.2)
  else do
    require (0 ≤ numinst) pmErrIpc
    return (none, p)

def decodeLists : List Head → Int → Decoder Access Int (List Entry)
  | [], _ => return []
  | h :: hs, p => do
    let r ← decodeList len h.numinst p
    let es ← decodeLists hs r.2
    return ⟨h.indom, h.state, r.1⟩ :: es

def decodeEntries (numprof : Int) : Decoder Access Int (List Entry) :=
  if numprof > 0 then do
    require (numprof < limitProfile ∧ numprof < len) pmErrIpc
    let r ← records (decodeHead len) numprof.toNat 28
    decodeLists len r.1 r.2
  else
    return []

-- The size of what is there is compared as a value of type `size_t`.
def decodeProfile : Decoder Access Int (Int × Profile) := do
  let len ← read ⟨0, 4⟩ fun m => CInt.ofWord (le32 m 0)
  require (28 ≤ CInt.size len) pmErrIpc
  let ctxnum ← ntohl 12
  require (0 ≤ ctxnum ∧ ctxnum ≤ limitCtxnum) pmErrIpc
  let state ← ntohl 16
  let numprof ← ntohl 20
  require (0 ≤ numprof) pmErrIpc
  let profile ← decodeEntries len numprof
  return (ctxnum, ⟨.ofInt state, profile⟩)

end Decode

-- Only the state that includes is told apart from the others.
def state (n : Int32) : InstProfile.State :=
  if n.toInt = 0 then .include else .exclude

def Entry.instprof (e : Entry) : InstProfile.InDomProfile where
  indom := e.indom.toNat
  state := PduProfile.state e.state
  instances := e.instances.map (·.map (·.toInt))

def Profile.instprof (p : Profile) : InstProfile.Profile where
  state := PduProfile.state p.state
  profile := p.profile.map (·.instprof)

end PduProfile
