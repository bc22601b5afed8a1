import PcpModel.PduNames.Bounds

-- PDU_INSTANCE (p_instance.c), and which PDUs its decoder reads without going beyond their end.
namespace PduInstance

open Memory Decoder CInt Nat Pcp
open PduNames (string lengthAt lengthOf startOf le_startOf Past)
open PduResult (hdrLenOf hdrLenOf_bounds pduSizeBytes)

def pmInNull : Int32 :=
  -1

structure Inst where
  inst : Int32
  namelen : Int
  name : List UInt8

structure InResult where
  indom : UInt32
  numinst : Nat
  instlist : Option (List Int32)
  namelist : Option (List (List UInt8))

section Decode

variable (len : Int)

def ip (j : Int) : Int :=
  20 + j

-- The length of the name is converted in place. It is not read again.
def decodeInst (j : Int) : Decoder Access Int (Inst × Int) := do
  require (8 ≤ CInt.size (len - ip j)) pmErrIpc
  let inst ← ntohl (ip j)
  let namelen ← ntohl (ip j + 4)
  tell ⟨ip j + 4, 4⟩
  require (0 ≤ namelen) pmErrIpc
  require (CInt.size (8 + namelen) ≤ CInt.size (len - ip j)) pmErrIpc
  let name ← read ⟨ip j + 8, namelen.toNat⟩ fun m => string m (ip j + 8) namelen.toNat
  return (⟨.ofInt inst, namelen, name⟩, CInt.int (j + 8 + pduSizeBytes namelen.toNat))

def InResult.ofInsts (indom : UInt32) (is : List Inst) : InResult where
  indom := indom
  numinst := is.length
  instlist := if is.length ≠ 1 ∨ is.any (·.inst ≠ pmInNull) then some (is.map (·.inst)) else none
  namelist := if is.length ≠ 1 ∨ is.any (·.namelen > 0) then some (is.map (·.name)) else none

def decodeInstance : Decoder Access Int InResult := do
  let len ← read ⟨0, 4⟩ fun m => CInt.ofWord (le32 m 0)
  require (20 ≤ CInt.size len) pmErrIpc
  let indom ← read ⟨12, 4⟩ fun m => .ofNat (be32 m 12)
  let numinst ← ntohl 16
  require (CInt.size numinst < CInt.intMax / 4 ∧ CInt.size numinst < CInt.intMax / 8 ∧
    numinst < len) pmErrIpc
  let r ← records (decodeInst len) numinst.toNat 0
  return .ofInsts indom r.1

end Decode

variable {m : Bytes} {len : Int} {j : Int}

def namelenAt (m : Bytes) (j : Int) : Int :=
  CInt.ofWord (be32 m (ip j + 4))

def Inv (j : Int) : Prop :=
  0 ≤ j ∧ j ≤ CInt.intMax

structure Fits (m : Bytes) (len j : Int) : Prop where
  head : 8 ≤ CInt.size (len - ip j)
  sign : 0 ≤ namelenAt m j
  source : CInt.size (8 + namelenAt m j) ≤ CInt.size (len - ip j)

theorem Fits.bounds (h : Fits m len j) (hj : 0 ≤ j) (hn : ip j ≤ len) (hl : len ≤ intMax) :
    ip j + 8 ≤ len ∧ ip j + 8 + namelenAt m j ≤ len := by
  obtain ⟨h₁, h₀, h₂⟩ := h
  have hc : namelenAt m j ≤ intMax := (ofWord_bounds (be32_lt ..)).right
  simp only [intMax, ip] at *
  rw [size_eq (by omega) (by omega)] at h₁ h₂
  rw [size_eq (by omega) (by omega)] at h₂
  omega

theorem namelen_bind_val {f : Int → Decoder Access Int α} :
    ((ntohl (ip j + 4) >>= f) m).val = (f (namelenAt m j) m).val :=
  read_bind_val

theorem namelen_bind_logs {f : Int → Decoder Access Int α} :
    Logs P (ntohl (ip j + 4) >>= f) m ↔ P ⟨ip j + 4, 4⟩ ∧ Logs P (f (namelenAt m j)) m :=
  logs_read_bind

theorem decodeInst_error (h : ¬Fits m len j) : (decodeInst len j m).val = .error pmErrIpc := by
  rw [decodeInst]
  by_cases h₁ : 8 ≤ size (len - ip j)
  case neg => rw [require_bind_val_not h₁]
  case pos =>
    rw [require_bind_val h₁, ntohl, read_bind_val, namelen_bind_val, tell_bind_val]
    by_cases h₂ : 0 ≤ namelenAt m j
    case neg => rw [require_bind_val_not h₂]
    case pos => rw [require_bind_val h₂, require_bind_val_not fun h₃ => h ⟨h₁, h₂, h₃⟩]

theorem decodeInst_val (h : Fits m len j) : ∃ i, (decodeInst len j m).val =
    .ok (i, int (j + 8 + pduSizeBytes (namelenAt m j).toNat)) := by
  rw [decodeInst, require_bind_val h.head, ntohl, read_bind_val, namelen_bind_val, tell_bind_val,
    require_bind_val h.sign, require_bind_val h.source]
  exact ⟨_, rfl⟩

theorem decodeInst_logs (hj : Inv j) (hl : 0 ≤ len ∧ len ≤ intMax) :
    Logs (·.Within len) (decodeInst len j) m ↔ ip j ≤ len := by
  rw [decodeInst, logs_require_bind, ntohl, logs_read_bind, namelen_bind_logs, logs_tell_bind,
    logs_require_bind, logs_require_bind]
  constructor
  case mp =>
    intro h
    by_contra hp
    -- The number of bytes that are left wraps around.
    have hs : 8 ≤ size (len - ip j) := by
      simp only [Inv, CInt.size, intMax, ip] at *
      omega
    have hw := (h hs).left
    simp only [Access.Within] at hw
    omega
  case mpr =>
    intro hp h₁
    have hw : 20 ≤ ip j := by have := hj.left; unfold ip; omega
    have h₈ : ip j + 8 ≤ len := by
      rw [size_eq (by omega) (by simp only [intMax] at hl; omega)] at h₁
      omega
    simp only [Access.Within, logs_read_bind, logs_pure, and_true]
    refine ⟨by omega, by omega, by omega, fun h₂ h₃ => ?_⟩
    have hf := Fits.bounds ⟨h₁, h₂, h₃⟩ hj.left hp hl.right
    omega

-- The record and its name are in the PDU.
structure Whole (m : Bytes) (len : Int) (k : Nat) : Prop where
  head : startOf m 8 20 k + 8 ≤ len
  source : startOf m 8 20 k + 8 + lengthOf m 8 20 k ≤ len
  sign : 0 ≤ lengthOf m 8 20 k

def place (m : Bytes) (k : Nat) : Int :=
  startOf m 8 20 k - 20

theorem place_ip : ip (place m k) = startOf m 8 20 k := by
  simp only [ip, place]
  omega

theorem namelenAt_place : namelenAt m (place m k) = lengthOf m 8 20 k := by
  rw [namelenAt, place_ip, lengthOf, lengthAt]
  congr 2
  omega

theorem not_whole_of_past (h : Past m 8 20 len k) : ¬Whole m len k := by
  intro hw
  have := hw.head
  have := hw.source
  rcases h with h | h <;> omega

theorem place_inv (hl : len ≤ intMax) (hw : ∀ j < k, Whole m len j) : Inv (place m k) := by
  have h₀ := le_startOf m 8 20 k
  refine ⟨by simp only [place]; omega, ?_⟩
  cases k
  case zero => simp only [place, startOf, intMax]; omega
  case succ k =>
    have hs := (hw k (lt_succ_self k)).source
    have h₁ := (hw k (lt_succ_self k)).sign
    simp only [place, startOf, lengthOf, pduSizeBytes] at *
    omega

theorem fits_place (hl : len ≤ intMax) (hn : startOf m 8 20 k ≤ len) :
    Fits m len (place m k) ↔ Whole m len k := by
  have h₀ := le_startOf m 8 20 k
  constructor
  case mp =>
    intro h
    obtain ⟨h₁, h₂⟩ := h.bounds (by simp only [place]; omega) (place_ip ▸ hn) hl
    have h₃ := h.sign
    rw [namelenAt_place] at h₂ h₃
    rw [place_ip] at h₁ h₂
    exact ⟨h₁, h₂, h₃⟩
  case mpr =>
    intro ⟨h₁, h₂, h₃⟩
    simp only [intMax] at hl
    refine ⟨?_, namelenAt_place ▸ h₃, ?_⟩ <;> simp only [place_ip, namelenAt_place]
    · rw [size_eq (by omega) (by omega)]
      omega
    · rw [size_eq (by omega) (by omega), size_eq (by omega) (by omega)]
      omega

theorem decodeInst_place (hl : len ≤ intMax) (k : Nat) (hw : ∀ j < k, Whole m len j)
    (hk : Whole m len k) : ∃ i, (decodeInst len (place m k) m).val = .ok (i, place m (k + 1)) := by
  have hs : startOf m 8 20 k ≤ len := by have := hk.head; omega
  have he : int (place m k + 8 + pduSizeBytes (namelenAt m (place m k)).toNat) =
      place m (k + 1) := by
    have h₁ : Inv (place m (k + 1)) := place_inv hl (forall_lt_succ_right.mpr ⟨hw, hk⟩)
    have hp : place m (k + 1) = place m k + 8 + pduSizeBytes (lengthOf m 8 20 k).toNat := by
      simp only [place, startOf, lengthOf]
      omega
    rw [namelenAt_place, ← hp, int_eq (by have := h₁.left; omega) h₁.right]
  exact he ▸ decodeInst_val ((fits_place hl hs).mpr hk)

theorem decodeInst_torn (hl : len ≤ intMax) (hn : startOf m 8 20 k ≤ len)
    (hw : ¬Whole m len k) : (decodeInst len (place m k) m).val = .error pmErrIpc :=
  decodeInst_error fun hf => hw ((fits_place hl hn).mp hf)

section Instance

variable (m : Bytes)

def numinstOf : Int :=
  CInt.ofWord (be32 m 16)

structure Accepted : Prop where
  header : 20 ≤ hdrLenOf m
  limits : CInt.size (numinstOf m) < CInt.intMax / 4 ∧ CInt.size (numinstOf m) < CInt.intMax / 8 ∧
    numinstOf m < hdrLenOf m

-- No record that comes after whole ones starts after the end of the PDU.
def Ends : Prop :=
  Accepted m → ∀ k < (numinstOf m).toNat, (∀ j < k, Whole m (hdrLenOf m) j) →
    startOf m 8 20 k ≤ hdrLenOf m

structure Safe : Prop where
  within : ∀ a ∈ (decodeInstance m).log, a.Within (hdrLenOf m)
  fails : Accepted m → ∀ k < (numinstOf m).toNat, Past m 8 20 (hdrLenOf m) k →
    (decodeInstance m).val = .error pmErrIpc

variable {m}

theorem decodeInsts_logs (hl : 0 ≤ len ∧ len ≤ intMax) :
    Logs (·.Within len) (records (decodeInst len) n 0) m ↔
      ∀ k < n, (∀ j < k, Whole m len j) → startOf m 8 20 k ≤ len := by
  change Logs _ (records (decodeInst len) n (place m 0)) m ↔ _
  refine logs_records_place (decodeInst_place hl.right)
    (fun k _ => decodeInst_torn hl.right) fun k _ hw => ?_
  rw [decodeInst_logs (place_inv hl.right hw) hl, place_ip]

theorem Accepted.header_size (h : Accepted m) : 20 ≤ size (hdrLenOf m) := by
  have hl := (hdrLenOf_bounds m).right
  have h₀ := h.header
  rw [size_eq (by omega) (by simp only [intMax] at hl; omega)]
  exact h₀

theorem decodeInstance_accepted (h : Accepted m) : (decodeInstance m).val =
    (records (decodeInst (hdrLenOf m)) (numinstOf m).toNat 0 m).val.map fun r =>
      .ofInsts (.ofNat (be32 m 12)) r.1 := by
  have hl : ofWord (le32 m 0) = hdrLenOf m := rfl
  have hn : ofWord (be32 m 16) = numinstOf m := rfl
  rw [decodeInstance, read_bind_val, hl, require_bind_val h.header_size, read_bind_val, ntohl,
    read_bind_val, hn, require_bind_val h.limits, bind_pure_val]

theorem decodeInstance_logs (h : 12 ≤ hdrLenOf m) :
    Logs (·.Within (hdrLenOf m)) decodeInstance m ↔ Ends m := by
  have hl : ofWord (le32 m 0) = hdrLenOf m := rfl
  have hn : ofWord (be32 m 16) = numinstOf m := rfl
  have hlen : 0 ≤ hdrLenOf m ∧ hdrLenOf m ≤ intMax := ⟨by omega, (hdrLenOf_bounds m).right⟩
  rw [decodeInstance, logs_read_bind, hl, logs_require_bind, logs_read_bind, ntohl, logs_read_bind,
    logs_require_bind, logs_bind_pure, decodeInsts_logs hlen]
  constructor
  case mp =>
    intro ⟨_, hh⟩ ha
    exact (hh ha.header_size).right.right ha.limits
  case mpr =>
    intro he
    simp only [Access.Within]
    refine ⟨by omega, fun h₂₀ => ?_⟩
    rw [size_eq hlen.left (by have := hlen.right; simp only [intMax] at this; omega)]
      at h₂₀
    exact ⟨by omega, by omega, fun h₁ => he ⟨h₂₀, h₁⟩⟩

theorem decodeInstance_safe (h : 12 ≤ hdrLenOf m) : Safe m ↔ Ends m := by
  constructor
  case mp => exact fun hs => (decodeInstance_logs h).mp hs.within
  case mpr =>
    refine fun he => ⟨(decodeInstance_logs h).mpr he, fun ha k hk hp => ?_⟩
    have hl := (hdrLenOf_bounds m).right
    have hz : (0 : Int) = place m 0 := rfl
    rw [decodeInstance_accepted ha, hz, records_error_place (decodeInst_place hl)
      (fun k _ => decodeInst_torn hl) (he ha) hk (not_whole_of_past hp)]
    rfl

theorem decoders_safe (m : Bytes) (statuslist : Bool) (h : 12 ≤ hdrLenOf m) :
    (PduNames.Safe m statuslist ↔ PduNames.Ends m statuslist) ∧ (Safe m ↔ Ends m) :=
  ⟨PduNames.decodeNameList_safe h, decodeInstance_safe h⟩

def cutPdu : Bytes
  | 0 => 33
  | 15 => 8 -- nstrbytes
  | 19 => 2 -- numinst
  | 23 => 2 -- numnames
  | 27 => 5 -- namelen
  | _ => 0

def cutNames : Bytes
  | 19 => 0 -- numstatus
  | i => cutPdu i

def wholePdu : Bytes
  | 0 => 36
  | i => cutPdu i

theorem decoders_safe_whole : PduNames.Safe wholePdu true ∧ Safe wholePdu := by
  have hn : ∀ k < (PduNames.numnamesOf wholePdu).toNat,
    startOf wholePdu (PduNames.headOf wholePdu) 24 k ≤ hdrLenOf wholePdu := by decide
  have hi : ∀ k < (numinstOf wholePdu).toNat, startOf wholePdu 8 20 k ≤ hdrLenOf wholePdu := by
    decide
  have h := decoders_safe wholePdu true (by decide)
  exact ⟨h.left.mpr fun _ k hk _ => hn k hk, h.right.mpr fun _ k hk _ => hi k hk⟩

theorem decoders_unsafe : ¬PduNames.Safe cutNames false ∧ ¬Safe cutPdu :=
  ⟨fun h => absurd h.within (by decide), fun h => absurd h.within (by decide)⟩

end Instance

end PduInstance
