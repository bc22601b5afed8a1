import PcpModel.PduBuf.Basic
import PcpModel.PduNames.Instance
import PcpModel.PduNames.RoundTrip

-- PDU_INSTANCE_REQ and PDU_INSTANCE: the encoders in p_instance.c, and what the decoders give back.
namespace PduInstance

open Memory Decoder List CInt Pcp
open PduNames (pad string string_image)
open PduResult (hdrLenOf htonl htonl_int32 htonl_ofWord le_hdrLenOf needMax needMax_le
  pduSizeBytes)

structure Sent where
  asked : Nat
  bytes : List UInt8

def Sent.Inside (s : Sent) : Prop :=
  (s.bytes.length : Int) ≤ PduBuf.pduChunk * (1 + s.asked / PduBuf.pduChunk)

def Inst.bytes (i : Inst) : List UInt8 :=
  htonl i.inst.toInt ++ htonl i.namelen ++ (i.name ++ pad i.name.length)

section Send

-- A `__pmInResult` whose lists have an element for every instance.
structure Sendable extends InResult where
  insts : ∀ l ∈ instlist, l.length = numinst
  names : ∀ l ∈ namelist, l.length = numinst
  terminated : ∀ l ∈ namelist, ∀ n ∈ l, 0 ∉ n

variable (r : Sendable)

-- An instance that has no number is sent as PM_IN_NULL, which is ignored at the other end.
def Sendable.ids : List Int32 :=
  r.instlist.getD (List.replicate r.numinst pmInNull)

def Sendable.external : List (List UInt8) :=
  r.namelist.getD (List.replicate r.numinst [])

def Sendable.list : List Inst :=
  r.ids.zipWith (fun i n => ⟨i, n.length, n⟩) r.external

def Sendable.need : Nat :=
  20 + (r.external.map fun n => 8 + pduSizeBytes n.length).sum

def sendInstance (source : UInt32) : Option Sent :=
  if (r.need : Int) ≤ needMax then
    some ⟨r.need, le r.need ++ le 0x7007 ++ le source.toNat ++ be r.indom.toNat ++
      htonl r.numinst ++ r.list.flatMap (·.bytes)⟩
  else
    none

structure InstanceReq where
  sec : Int32
  usec : Int32
  indom : UInt32
  inst : Int32
  name : Option (List UInt8)
  deriving DecidableEq

variable (q : InstanceReq)

def InstanceReq.need : Nat :=
  32 + (q.name.elim 0 fun n => pduSizeBytes n.length)

def InstanceReq.nameBytes : List UInt8 :=
  q.name.elim [] fun n => n ++ pad n.length

-- The buffer is asked for with the size of `need`, and not with its value.
def sendInstanceReq (source : UInt32) : Option Sent :=
  if (q.need : Int) ≤ CInt.intMax then
    some ⟨4, le q.need ++ le 0x7006 ++ le source.toNat ++ be q.indom.toNat ++ htonl q.sec.toInt ++
      htonl q.usec.toInt ++ htonl q.inst.toInt ++ htonl (q.name.elim 0 fun n => n.length) ++
      q.nameBytes⟩
  else
    none

end Send

section Request

variable {m : Bytes} {len : Int}

def decodeReqName (len namelen : Int) : Decoder Access Int (Option (List UInt8)) :=
  if namelen > 0 then do
    require (namelen < CInt.intMax - 1 ∧ namelen ≤ len) pmErrIpc
    require (CInt.size (32 + namelen) ≤ CInt.size len) pmErrIpc
    let name ← read ⟨32, namelen.toNat⟩ fun m => string m 32 namelen.toNat
    return some name
  else if namelen < 0 then
    fail pmErrIpc
  else
    return none

def decodeInstanceReq : Decoder Access Int InstanceReq := do
  let len ← read ⟨0, 4⟩ fun m => CInt.ofWord (le32 m 0)
  require (32 ≤ CInt.size len) pmErrIpc
  let sec ← ntohl 16
  let usec ← ntohl 20
  let indom ← read ⟨12, 4⟩ fun m => .ofNat (be32 m 12)
  let inst ← ntohl 24
  let namelen ← ntohl 28
  let name ← decodeReqName len namelen
  return ⟨.ofInt sec, .ofInt usec, indom, .ofInt inst, name⟩

theorem decodeReqName_some (h : Holds m 32 n) (h₀ : 0 ∉ n) (hn : n ≠ [])
    (hl : (32 + n.length : Int) ≤ len) (hi : len ≤ intMax) :
    (decodeReqName len n.length m).val = .ok (some n) := by
  have hp := length_pos_iff.mpr hn
  have h₁ : (n.length : Int) < intMax - 1 ∧ (n.length : Int) ≤ len := by
    omega
  have h₂ : size (32 + n.length) ≤ size len := by
    simp only [intMax] at *
    rw [size_eq (by omega) (by omega), size_eq (by omega) (by omega)]
    exact hl
  rw [decodeReqName, if_pos (by omega), require_bind_val h₁, require_bind_val h₂, read_bind_val,
    pure_val, Int.toNat_natCast, string_image h h₀]

theorem decodeReqName_none : (decodeReqName len 0 m).val = .ok none :=
  rfl

variable {q : InstanceReq}

structure ReqImage (q : InstanceReq) (m : Bytes) : Prop where
  len : hdrLenOf m = q.need
  sec : CInt.ofWord (be32 m 16) = q.sec.toInt
  usec : CInt.ofWord (be32 m 20) = q.usec.toInt
  indom : be32 m 12 = q.indom.toNat
  inst : CInt.ofWord (be32 m 24) = q.inst.toInt
  namelen : CInt.ofWord (be32 m 28) = q.name.elim 0 fun n => (n.length : Int)
  name : Holds m 32 q.nameBytes

theorem InstanceReq.namelen_le (q : InstanceReq) :
    0 ≤ (q.name.elim 0 fun n => (n.length : Int)) ∧
      (q.name.elim 0 fun n => (n.length : Int)) + 32 ≤ q.need := by
  unfold need
  cases q.name
  case none => simp
  case some n =>
    simp only [Option.elim_some, pduSizeBytes]
    omega

theorem be_indom {i : UInt32} (h : Holds m a (be i.toNat)) : be32 m a = i.toNat := by
  rw [h.be32_eq]
  exact Nat.mod_eq_of_lt i.toNat_lt

theorem sendInstanceReq_image (hs : sendInstanceReq q source = some s) (h : Holds m 0 s.bytes) :
    ReqImage q m := by
  have hl := q.namelen_le
  rw [sendInstanceReq, Option.ite_none_right_eq_some, Option.some.injEq] at hs
  obtain ⟨hi, rfl⟩ := hs
  simp only [intMax] at hi
  simp only [Holds.append] at h
  obtain ⟨⟨⟨⟨⟨⟨⟨⟨hlen, -⟩, -⟩, hindom⟩, hsec⟩, husec⟩, hinst⟩, hnamelen⟩, hname⟩ := h
  constructor
  case len => exact le_hdrLenOf hlen (by omega)
  case sec => exact htonl_int32 hsec
  case usec => exact htonl_int32 husec
  case indom => exact be_indom hindom
  case inst => exact htonl_int32 hinst
  case namelen => exact htonl_ofWord hnamelen (by omega) (by omega)
  case name => exact hname

theorem decodeInstanceReq_image (h : ReqImage q m) (hn : q.need ≤ intMax)
    (hv : (decodeReqName q.need (q.name.elim 0 fun n => n.length) m).val = .ok name) :
    (decodeInstanceReq m).val = .ok { q with name := name } := by
  have hl : ofWord (le32 m 0) = q.need := h.len
  have hs : 32 ≤ size q.need := by
    have := q.namelen_le
    simp only [intMax] at hn
    rw [size_eq (by omega) (by omega)]
    omega
  simp only [decodeInstanceReq, ntohl]
  rw [read_bind_val, hl, require_bind_val hs, read_bind_val, h.sec, read_bind_val, h.usec,
    read_bind_val, h.indom, read_bind_val, h.inst, read_bind_val, h.namelen, bind_val_ok hv]
  simp

theorem InstanceReq.nameBytes_length (q : InstanceReq) : 32 + q.nameBytes.length = q.need := by
  unfold nameBytes need
  cases q.name
  case none => rfl
  case some n =>
    simp only [Option.elim_some, length_append, pad, length_replicate, pduSizeBytes]
    omega

theorem sendInstanceReq_length (hs : sendInstanceReq q source = some s) :
    s.asked = 4 ∧ s.bytes.length = q.need := by
  rw [sendInstanceReq, Option.ite_none_right_eq_some, Option.some.injEq] at hs
  obtain ⟨-, rfl⟩ := hs
  have := q.nameBytes_length
  refine ⟨rfl, ?_⟩
  simp only [length_append, le_length, be_length, PduResult.htonl_length]
  omega

-- Only the smallest buffer is guaranteed.
theorem sendInstanceReq_inside (hs : sendInstanceReq q source = some s) :
    s.Inside ↔ q.need ≤ 1024 := by
  obtain ⟨ha, hb⟩ := sendInstanceReq_length hs
  simp only [Sent.Inside, ha, PduBuf.pduChunk]
  omega

def ReqReturns (q : InstanceReq) (source : UInt32) : Prop :=
  ∃ s, sendInstanceReq q source = some s ∧ s.Inside ∧
    ∀ m, Holds m 0 s.bytes → (decodeInstanceReq m).val = .ok q

theorem decodeInstanceReq_name (h : ReqImage q m) (hi : q.need ≤ intMax)
    (h₀ : ∀ n ∈ q.name, 0 ∉ n) (hn : ∀ n ∈ q.name, n ≠ []) :
    (decodeInstanceReq m).val = .ok q := by
  refine decodeInstanceReq_image h hi ?_
  have hl := q.namelen_le.right
  have hh := h.name
  rw [InstanceReq.nameBytes] at hh
  cases hq : q.name
  case none => exact decodeReqName_none
  case some n =>
    simp only [hq, Option.elim_some] at hl hh ⊢
    exact decodeReqName_some (Holds.append.mp hh).left (h₀ n hq) (hn n hq) (by omega) hi

theorem decodeInstanceReq_empty (h : ReqImage q m) (hi : q.need ≤ intMax)
    (hn : q.name = some []) : (decodeInstanceReq m).val = .ok { q with name := none } :=
  decodeInstanceReq_image h hi (by rw [hn]; exact decodeReqName_none)

theorem reqReturns_iff (h₀ : ∀ n ∈ q.name, 0 ∉ n) :
    ReqReturns q source ↔ ∀ n ∈ q.name, n ≠ [] ∧ n.length ≤ 992 := by
  have hneed : q.need ≤ 1024 ↔ ∀ n ∈ q.name, n.length ≤ 992 := by
    unfold InstanceReq.need
    cases q.name
    case none => simp
    case some n =>
      simp only [Option.elim_some, pduSizeBytes, Option.mem_some_iff, forall_eq']
      omega
  simp only [forall₂_and, ← hneed]
  constructor
  case mp =>
    rintro ⟨s, hs, hin, hr⟩
    refine ⟨?_, (sendInstanceReq_inside hs).mp hin⟩
    rintro _ hn rfl
    have hv := hr (write (fun _ => 0) 0 s.bytes) .write
    rw [decodeInstanceReq_empty (sendInstanceReq_image hs .write)
      (Option.ite_none_right_eq_some.mp hs).left hn] at hv
    cases hq : q
    rw [hq] at hv hn
    cases hv
    cases hn
  case mpr =>
    rintro ⟨hn, hl⟩
    have hi : q.need ≤ intMax := by simp only [intMax]; omega
    have hs : sendInstanceReq q source = some _ := if_pos hi
    exact ⟨_, hs, (sendInstanceReq_inside hs).mpr hl,
      fun m hm => decodeInstanceReq_name (sendInstanceReq_image hs hm) hi h₀ hn⟩

end Request

section Instance

variable {m : Bytes} {len : Int} {i : Inst} {is : List Inst} {r : Sendable}

theorem Inst.bytes_length (i : Inst) : i.bytes.length = 8 + pduSizeBytes i.name.length := by
  simp only [bytes, length_append, PduResult.htonl_length, pad, length_replicate,
    pduSizeBytes]
  omega

structure Remains (m : Bytes) (len j : Int) (is : List Inst) : Prop where
  insts : Holds m (ip j) (is.flatMap (·.bytes))
  namelen : ∀ i ∈ is, i.namelen = i.name.length
  terminated : ∀ i ∈ is, 0 ∉ i.name
  offset : 0 ≤ j
  source : ip j + (is.flatMap (·.bytes)).length = len

theorem Remains.fits (h : Remains m len j (i :: is)) (hl : len ≤ intMax) :
    Fits m len j ∧ namelenAt m j = i.name.length ∧ ofWord (be32 m (ip j)) = i.inst.toInt ∧
      Holds m (ip j + 8) i.name := by
  have hs := h.source
  have hj := h.offset
  have hi := h.insts
  have hp : i.name.length ≤ pduSizeBytes i.name.length := by unfold pduSizeBytes; omega
  rw [flatMap_cons, length_append, i.bytes_length] at hs
  simp only [flatMap_cons, Holds.append, Inst.bytes, h.namelen i (by simp)] at hi
  simp only [intMax, ip] at hl hs
  obtain ⟨⟨⟨hinst, hnamelen⟩, hname, -⟩, -⟩ := hi
  have hn : namelenAt m j = i.name.length := htonl_ofWord hnamelen (by omega) (by omega)
  have hsz : size (len - ip j) = len - ip j := by
    apply size_eq <;> unfold ip <;> omega
  refine ⟨⟨?_, ?_, ?_⟩, hn, htonl_int32 hinst, hname⟩
  case refine_1 => rw [hsz, ip]; omega
  case refine_2 => omega
  case refine_3 => rw [hsz, size_eq (by omega) (by omega), ip]; omega

theorem Remains.step (hl : len ≤ intMax) (j : Int) (i : Inst) (is : List Inst)
    (h : Remains m len j (i :: is)) :
    ∃ j', (decodeInst len j m).val = .ok (i, j') ∧ Remains m len j' is := by
  obtain ⟨hf, hn, hi, hh⟩ := h.fits hl
  have hs := h.source
  have hj := h.offset
  have hb := i.bytes_length
  rw [flatMap_cons, length_append] at hs
  have hj' : int (j + 8 + pduSizeBytes i.name.length) = j + i.bytes.length := by
    simp only [intMax, ip] at *
    rw [int_eq (by omega) (by simp only [intMax]; omega)]
    omega
  have hp : ip (j + i.bytes.length) = ip j + i.bytes.length := by simp only [ip]; omega
  refine ⟨j + i.bytes.length, ?_, ?_⟩
  case refine_1 =>
    rw [decodeInst, require_bind_val hf.head, ntohl, read_bind_val, namelen_bind_val, tell_bind_val,
      require_bind_val hf.sign, require_bind_val hf.source, read_bind_val, pure_val, hi, hn,
      Int.toNat_natCast, string_image hh (h.terminated i (by simp)), hj', Int32.ofInt_toInt,
      ← h.namelen i (by simp)]
  case refine_2 =>
    constructor
    case insts => exact hp ▸ (Holds.append.mp h.insts).right
    case namelen => exact fun i' hi' => h.namelen i' (mem_cons_of_mem i hi')
    case terminated => exact fun i' hi' => h.terminated i' (mem_cons_of_mem i hi')
    case offset => omega
    case source => rw [hp]; omega

theorem Sendable.ids_length (r : Sendable) : r.ids.length = r.numinst := by
  unfold ids
  cases h : r.instlist
  case none => simp
  case some l => exact r.insts l h

theorem Sendable.external_length (r : Sendable) : r.external.length = r.numinst := by
  unfold external
  cases h : r.namelist
  case none => simp
  case some l => exact r.names l h

theorem Sendable.list_length (r : Sendable) : r.list.length = r.numinst := by
  simp [list, r.ids_length, r.external_length]

theorem Sendable.list_inst (r : Sendable) : r.list.map (·.inst) = r.ids := by
  rw [list]
  refine ext_getElem (by simp [r.ids_length, r.external_length]) fun i _ _ => ?_
  simp

theorem Sendable.list_name (r : Sendable) : r.list.map (·.name) = r.external := by
  rw [list]
  refine ext_getElem (by simp [r.ids_length, r.external_length]) fun i _ _ => ?_
  simp

theorem Sendable.list_namelen (h : i ∈ r.list) : i.namelen = i.name.length := by
  rw [list, mem_iff_getElem] at h
  obtain ⟨k, hk, rfl⟩ := h
  simp

theorem Sendable.external_terminated (h : n ∈ r.external) : 0 ∉ n := by
  unfold external at h
  cases hl : r.namelist
  case none =>
    rw [hl] at h
    simp [eq_of_mem_replicate h]
  case some l =>
    rw [hl] at h
    exact r.terminated l hl n h

theorem Sendable.need_eq (r : Sendable) : r.need = 20 + (r.list.flatMap (·.bytes)).length := by
  simp only [need, ← r.list_name, map_map, length_flatMap, Inst.bytes_length]
  rfl

theorem Sendable.numinst_le (r : Sendable) : 20 + 8 * r.numinst ≤ r.need := by
  have h := card_nsmul_le_sum (r.external.map fun n => 8 + pduSizeBytes n.length) 8 (by simp)
  rw [length_map, nsmul_eq_mul, Nat.cast_id, r.external_length] at h
  unfold need
  omega

structure Image (r : Sendable) (m : Bytes) : Prop where
  len : hdrLenOf m = r.need
  indom : be32 m 12 = r.indom.toNat
  numinst : numinstOf m = r.numinst
  insts : Holds m 20 (r.list.flatMap (·.bytes))

theorem sendInstance_image (hs : sendInstance r source = some s) (h : Holds m 0 s.bytes) :
    Image r m := by
  have hn := r.numinst_le
  rw [sendInstance, Option.ite_none_right_eq_some, Option.some.injEq] at hs
  obtain ⟨hi, rfl⟩ := hs
  simp only [needMax, intMax] at hi
  simp only [Holds.append] at h
  obtain ⟨⟨⟨⟨⟨hlen, -⟩, -⟩, hindom⟩, hnum⟩, hh⟩ := h
  constructor
  case len => exact le_hdrLenOf hlen (by omega)
  case indom => exact be_indom hindom
  case numinst => exact htonl_ofWord hnum (by omega) (by omega)
  case insts => exact hh

theorem sendInstance_inside (hs : sendInstance r source = some s) : s.Inside := by
  rw [sendInstance, Option.ite_none_right_eq_some, Option.some.injEq] at hs
  obtain ⟨-, rfl⟩ := hs
  have := r.need_eq
  simp only [Sent.Inside, length_append, le_length, be_length, PduResult.htonl_length,
    PduBuf.pduChunk]
  omega

theorem Image.accepted (h : Image r m) (hi : r.need ≤ intMax) : Accepted m := by
  have hn := r.numinst_le
  simp only [intMax] at hi
  constructor
  case header => rw [h.len]; omega
  case limits =>
    rw [h.numinst, h.len, size_eq (by omega) (by omega)]
    simp only [intMax]
    omega

theorem Image.remains (h : Image r m) : Remains m r.need 0 r.list where
  insts := h.insts
  namelen := fun _ => Sendable.list_namelen
  terminated := fun i hi => Sendable.external_terminated (r.list_name ▸ mem_map_of_mem hi)
  offset := Int.le_refl 0
  source := by rw [r.need_eq, ip]; simp

theorem decodeInstance_image (h : Image r m) (hi : r.need ≤ intMax) :
    (decodeInstance m).val = .ok (.ofInsts r.indom r.list) := by
  obtain ⟨j, hv, -⟩ := records_val (Remains.step hi) h.remains (g := id)
  rw [r.list_length, map_id] at hv
  rw [decodeInstance_accepted (h.accepted hi), h.len, h.numinst, Int.toNat_natCast, hv, Except.map,
    h.indom, UInt32.ofNat_toNat]

-- Both lists are there, or there is a single instance with a number or a name.
def Sendable.Covered (r : Sendable) : Prop :=
  (2 ≤ r.numinst ∧ r.instlist.isSome ∧ r.namelist.isSome) ∨
  (r.numinst = 1 ∧ (r.instlist.isSome ∨ r.namelist.isSome) ∧
    (∀ l ∈ r.instlist, pmInNull ∉ l) ∧ (∀ l ∈ r.namelist, [] ∉ l))

instance : Decidable r.Covered :=
  inferInstanceAs (Decidable (_ ∨ _))

theorem keep_eq {null : α}
    (hp : p = true ↔ ∃ x ∈ o.getD (replicate n null), x ≠ null)
    (hl : (o.getD (replicate n null)).length = n) (ho : n ≠ 1 → o.isSome)
    (h₁ : n = 1 → ∀ l ∈ o, null ∉ l) :
    (if n ≠ 1 ∨ p = true then some (o.getD (replicate n null)) else none) = o := by
  cases o
  case none =>
    have hn : n = 1 := by
      by_contra hn
      exact absurd (ho hn) (by simp)
    exact if_neg (by simp [hn, hp])
  case some l =>
    refine if_pos (or_iff_not_imp_left.mpr fun hn => hp.mpr ?_)
    have hn : n = 1 := not_not.mp hn
    rw [Option.getD_some] at hl
    obtain ⟨x, hx⟩ := exists_mem_of_length_pos (show 0 < l.length by omega)
    exact ⟨x, hx, ne_of_mem_of_not_mem hx (h₁ hn l rfl)⟩

theorem Sendable.ofInsts_eq (h : r.Covered) : .ofInsts r.indom r.list = r.toInResult := by
  have hone : r.numinst = 1 → (∀ l ∈ r.instlist, pmInNull ∉ l) ∧ ∀ l ∈ r.namelist, [] ∉ l := by
    rcases h with ⟨h₂, -⟩ | ⟨-, -, h₁⟩
    · omega
    · exact fun _ => h₁
  have hmany : r.numinst ≠ 1 → r.instlist.isSome ∧ r.namelist.isSome := by
    rcases h with ⟨-, h₂⟩ | ⟨h₁, -⟩
    · exact fun _ => h₂
    · exact fun hn => absurd h₁ hn
  have hids : (r.list.any (·.inst ≠ pmInNull)) = true ↔ ∃ x ∈ r.ids, x ≠ pmInNull := by
    simp [← r.list_inst]
  have hnames : (r.list.any (·.namelen > 0)) = true ↔ ∃ n ∈ r.external, n ≠ [] := by
    rw [← r.list_name, any_eq_true]
    simp only [mem_map, exists_exists_and_eq_and, decide_eq_true_eq]
    refine exists_congr fun i => and_congr_right fun hi => ?_
    rw [list_namelen hi, ← length_pos_iff]
    omega
  rw [InResult.ofInsts, r.list_length, r.list_inst, r.list_name]
  congr 1
  case e_instlist =>
    exact keep_eq hids r.ids_length (fun hn => (hmany hn).left) fun hn => (hone hn).left
  case e_namelist =>
    exact keep_eq hnames r.external_length (fun hn => (hmany hn).right) fun hn => (hone hn).right

def Returns (r : Sendable) (source : UInt32) : Prop :=
  ∃ s, sendInstance r source = some s ∧ s.Inside ∧
    ∀ m, Holds m 0 s.bytes → (decodeInstance m).val = .ok r.toInResult

theorem returns_iff (h : r.Covered) : Returns r source ↔ r.need ≤ needMax := by
  constructor
  case mp => exact fun ⟨s, hs, _⟩ => (Option.ite_none_right_eq_some.mp hs).left
  case mpr =>
    intro hi
    have hs : sendInstance r source = some _ := if_pos hi
    refine ⟨_, hs, sendInstance_inside hs, fun m hm => ?_⟩
    rw [decodeInstance_image (sendInstance_image hs hm) (hi.trans needMax_le),
      Sendable.ofInsts_eq h]

theorem decodeInstance_sendInstance (r : Sendable) (hr : r.Covered) (q : InstanceReq)
    (hq : ∀ n ∈ q.name, 0 ∉ n) (source : UInt32) :
    (Returns r source ↔ r.need ≤ needMax) ∧
      (ReqReturns q source ↔ ∀ n ∈ q.name, n ≠ [] ∧ n.length ≤ 992) :=
  ⟨returns_iff hr, reqReturns_iff hq⟩

def cpus : Sendable where
  indom := 0x0f000000
  numinst := 2
  instlist := some [0, 1]
  namelist := some [[0x63, 0x70, 0x75, 0x30], []]
  insts := by simp
  names := by simp
  terminated := by simp

def cpuReq (name : List UInt8) : InstanceReq where
  sec := 0
  usec := 0
  indom := 0x0f000000
  inst := pmInNull
  name := some name

theorem cpuReq_need (name : List UInt8) : (cpuReq name).need = 32 + pduSizeBytes name.length :=
  rfl

theorem decodeInstance_sendInstance_cpus : Returns cpus 99 ∧ ReqReturns (cpuReq [0x63]) 99 :=
  have h := decodeInstance_sendInstance cpus (by decide) (cpuReq [0x63]) (by simp [cpuReq]) 99
  ⟨h.left.mpr (by decide), h.right.mpr (by simp [cpuReq])⟩

-- A name of 1000 bytes is written beyond the end of the buffer, and an empty one is lost.
theorem decodeInstance_sendInstance_not :
    (∃ s, sendInstanceReq (cpuReq (List.replicate 1000 0x63)) 99 = some s ∧ ¬s.Inside) ∧
    (∃ s, sendInstanceReq (cpuReq []) 99 = some s ∧ ∀ m, Holds m 0 s.bytes →
      (decodeInstanceReq m).val = .ok { cpuReq [] with name := none }) := by
  constructor
  case left =>
    have hl : (cpuReq (replicate 1000 0x63)).need = 1032 := by
      rw [cpuReq_need, length_replicate, pduSizeBytes]
    have hs : sendInstanceReq (cpuReq (replicate 1000 0x63)) 99 = some _ :=
      if_pos (by rw [hl]; decide)
    refine ⟨_, hs, ?_⟩
    rw [sendInstanceReq_inside hs, hl]
    decide
  case right =>
    have hi : (cpuReq []).need ≤ intMax := by decide
    have hs : sendInstanceReq (cpuReq []) 99 = some _ := if_pos hi
    exact ⟨_, hs, fun m hm => decodeInstanceReq_empty (sendInstanceReq_image hs hm) hi rfl⟩

end Instance

end PduInstance
