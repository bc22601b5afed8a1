import PcpModel.PduProfile.Bounds
import PcpModel.PduResult.RoundTrip

-- Which profiles the decoder gives back.
namespace PduProfile

open Memory Decoder List CInt Entry Pcp
open PduResult (hdrLenOf htonl htonl_ofWord htonl_int32 le_hdrLenOf needMax needMax_le)

variable {m : Bytes} {len : Int}

def Entry.toHead (e : Entry) : Head where
  indom := e.indom
  state := e.state
  numinst := e.list.length

-- An empty list of instances is not told apart from none.
def Entry.decoded (e : Entry) : Entry :=
  { e with instances := if e.list = [] then none else some e.list }

@[simp]
theorem Entry.decoded_list (e : Entry) : e.decoded.list = e.list := by
  by_cases h : e.list = [] <;> simp [decoded, list] at h ⊢ <;> simp [h]

def Profile.decoded (p : Profile) : Profile :=
  { p with profile := p.profile.map (·.decoded) }

theorem Entry.head_length (e : Entry) : e.head.length = 16 :=
  rfl

theorem Entry.words_length (e : Entry) : e.words.length = 4 * e.list.length := by
  simp [words, mul_comm]

theorem decodeHead_image {e : Entry} (hn : e.list.length < 2 ^ 31) (h : Holds m p e.head)
    (hp : p + e.head.length ≤ len) :
    (decodeHead len p m).val = .ok (e.toHead, p + e.head.length) := by
  rw [e.head_length] at hp ⊢
  simp only [Entry.head, Holds.append] at h
  obtain ⟨⟨⟨hi, hs⟩, hn'⟩, -⟩ := h
  rw [decodeHead_val (by omega)]
  have hi : headAt m p = e.toHead := by
    have hs : ofWord (be32 m (p + 4)) = _ := htonl_int32 hs
    have hn : ofWord (be32 m (p + 8)) = _ := htonl_ofWord hn' (by omega) (by omega)
    rw [headAt, Entry.toHead, hi.be32_eq, hs, hn]
    simp
  rw [hi]

theorem decodeInstance_image (h : Holds m p (htonl i.toInt))
    (hp : p + (htonl i.toInt).length ≤ len) :
    (decodeInstance len p m).val = .ok (i, p + (htonl i.toInt).length) := by
  rw [decodeInstance_val (lt_of_lt_of_le (by simp) hp), instanceAt, htonl_int32 h,
    Int32.ofInt_toInt]
  rfl

theorem decodeList_image {e : Entry} (hv : e.toHead.Valid len) (h : Holds m p e.words)
    (hp : p + e.words.length ≤ len) :
    (decodeList len e.toHead.numinst p m).val = .ok (e.decoded.instances, p + e.words.length) := by
  have hr : (records (decodeInstance len) e.toHead.numinst.toNat p m).val = _ :=
    records_image (fun _ _ _ => decodeInstance_image) h hp
  by_cases hn : e.list = []
  case pos =>
    have h₀ : ¬e.toHead.numinst > 0 := by simp [Entry.toHead, hn]
    rw [decodeList, if_neg h₀, require_bind_val hv.left, e.words_length]
    simp [Entry.decoded, hn]
  case neg =>
    have h₀ : e.toHead.numinst > 0 := by simp [Entry.toHead, length_pos_iff, hn]
    rw [decodeList, if_pos h₀, require_bind_val hv.right, bind_val_ok hr]
    simp [Entry.decoded, hn, Entry.words]

theorem decodeLists_image {es : List Entry} (hv : ∀ e ∈ es, e.toHead.Valid len)
    (h : Holds m p (es.flatMap Entry.words)) (hp : p + (es.flatMap Entry.words).length ≤ len) :
    (decodeLists len (es.map (·.toHead)) p m).val = .ok (es.map (·.decoded)) := by
  induction es generalizing p
  case nil => rfl
  case cons e es hi =>
    rw [flatMap_cons, Holds.append] at h
    simp only [flatMap_cons, length_append] at hp
    rw [forall_mem_cons] at hv
    rw [map_cons, decodeLists, bind_val_ok (decodeList_image hv.left h.left (by omega)),
      bind_val_ok (hi hv.right h.right (by omega))]
    rfl

section Profile

variable {p : Profile}

structure Image (ctxnum : Int) (p : Profile) (m : Bytes) : Prop where
  len : hdrLenOf m = need p
  ctxnum : ctxnumOf m = ctxnum
  state : CInt.ofWord (be32 m 16) = p.state.toInt
  numprof : numprofOf m = p.profile.length
  heads : Holds m 28 (p.profile.flatMap Entry.head)
  words : Holds m (28 + (p.profile.flatMap Entry.head).length) (p.profile.flatMap Entry.words)

theorem flatMap_head_length (es : List Entry) :
    (es.flatMap head).length = 16 * es.length := by
  simp [head_length, mul_comm]

theorem flatMap_words_length (es : List Entry) :
    (es.flatMap Entry.words).length = (es.map (4 * ·.list.length)).sum := by
  simp [Entry.words_length]

theorem need_eq (p : Profile) : need p = 28 + (p.profile.flatMap Entry.head).length +
    (p.profile.flatMap Entry.words).length := by
  rw [need, flatMap_head_length, flatMap_words_length, mul_comm]

theorem sendProfile_image (hc : 0 ≤ ctxnum ∧ ctxnum ≤ limitCtxnum)
    (hs : sendProfile ctxnum p source = some bytes) (h : Holds m 0 bytes) : Image ctxnum p m := by
  have hn := need_eq p
  rw [flatMap_head_length] at hn
  rw [sendProfile, Option.ite_none_right_eq_some, Option.some.injEq] at hs
  obtain ⟨hi, rfl⟩ := hs
  simp only [limitCtxnum, needMax, intMax] at hc hi
  rw [Holds.append, Holds.append] at h
  obtain ⟨⟨h, hh⟩, hw⟩ := h
  simp only [Holds.append] at h
  obtain ⟨⟨⟨⟨⟨⟨hlen, -⟩, -⟩, hctx⟩, hst⟩, hnum⟩, -⟩ := h
  constructor
  case len => exact le_hdrLenOf hlen (by omega)
  case ctxnum => exact htonl_ofWord hctx (by omega) (by omega)
  case state => exact htonl_int32 hst
  case numprof => exact htonl_ofWord hnum (by omega) (by omega)
  case heads => exact hh
  case words =>
    rw [length_append, Nat.cast_add, ← add_assoc] at hw
    exact hw

theorem length_le_need (he : e ∈ p.profile) : 44 + 4 * e.list.length ≤ need p := by
  have hl : 4 * e.list.length ≤ (p.profile.map (4 * ·.list.length)).sum :=
    single_le_sum (by simp) _ (mem_map_of_mem he)
  have hp := length_pos_of_mem he
  unfold need
  omega

theorem toHead_valid (hn : need p ≤ intMax) (he : e ∈ p.profile) :
    e.toHead.Valid (need p) := by
  have hl := length_le_need he
  simp only [Head.Valid, toHead, limitInstances] at hn ⊢
  omega

theorem decodeEntries_image (h : Image ctxnum p m) (hn : need p ≤ intMax)
    (hp : p.profile.length < limitProfile) :
    (decodeEntries (need p) p.profile.length m).val = .ok (p.profile.map (·.decoded)) := by
  have hneed := need_eq p
  have hl := flatMap_head_length p.profile
  rw [decodeEntries]
  split
  case isFalse h₀ =>
    have hp : p.profile = [] := eq_nil_of_length_eq_zero (by omega)
    simp [hp]
  case isTrue h₀ =>
    have hi (e) (he : e ∈ p.profile) : e.list.length < 2 ^ 31 := by
      have := (toHead_valid hn he).right.left
      simp only [Entry.toHead, limitInstances, intMax] at this
      omega
    have hh := records_image (fun e he _ => decodeHead_image (hi e he)) h.heads (f := Entry.head)
      (show _ ≤ (need p : Int) by omega)
    rw [require_bind_val ⟨hp, by omega⟩, Int.toNat_natCast, bind_val_ok hh]
    exact decodeLists_image (fun e => toHead_valid hn) h.words (by omega)

theorem decodeProfile_val (h : Image ctxnum p m) (hc : 0 ≤ ctxnum ∧ ctxnum ≤ limitCtxnum)
    (hn : need p ≤ intMax) : (decodeProfile m).val =
      (decodeEntries (need p) p.profile.length m).val.map fun es => (ctxnum, ⟨p.state, es⟩) := by
  have hs : size (need p) = need p :=
    size_eq (by omega) (by simp only [intMax] at hn; omega)
  have hl : ofWord (le32 m 0) = need p := h.len
  have hc' : ofWord (be32 m 12) = ctxnum := h.ctxnum
  have hp : ofWord (be32 m 20) = p.profile.length := h.numprof
  rw [decodeProfile, read_bind_val, hl, require_bind_val (by rw [hs, need]; omega), ntohl,
    read_bind_val, hc', require_bind_val hc, ntohl, read_bind_val, ntohl, read_bind_val, hp,
    require_bind_val (by omega), bind_pure_val, h.state, Int32.ofInt_toInt]

theorem decodeProfile_image (h : Image ctxnum p m) (hc : 0 ≤ ctxnum ∧ ctxnum ≤ limitCtxnum)
    (hn : need p ≤ intMax) (hp : p.profile.length < limitProfile) :
    (decodeProfile m).val = .ok (ctxnum, p.decoded) := by
  rw [decodeProfile_val h hc hn, decodeEntries_image h hn hp]
  rfl

theorem decodeProfile_rejects (h : Image ctxnum p m) (hc : 0 ≤ ctxnum ∧ ctxnum ≤ limitCtxnum)
    (hn : need p ≤ intMax) (hp : limitProfile ≤ p.profile.length) :
    (decodeProfile m).val = .error pmErrIpc := by
  have h₀ : (p.profile.length : Int) > 0 := lt_of_lt_of_le (by decide) hp
  rw [decodeProfile_val h hc hn, decodeEntries, if_pos h₀,
    require_bind_val_not fun h => not_lt.mpr hp h.left]
  rfl

theorem Entry.instprof_list (e : Entry) : e.instprof.list = e.list.map (·.toInt) := by
  cases h : e.instances <;> simp [instprof, InstProfile.InDomProfile.list, list, h]

theorem decoded_inProfile (indom : InstProfile.InDom) (inst : Int) :
    InstProfile.pmInProfile indom (some p.decoded.instprof) inst =
      InstProfile.pmInProfile indom (some p.instprof) inst := by
  have hf : InstProfile.pmFindProfile indom p.decoded.instprof =
      InstProfile.pmFindProfile indom p.instprof := by
    simp only [InstProfile.pmFindProfile, Profile.instprof, Profile.decoded, findIdx?_map]
    rfl
  rw [InstProfile.pmInProfile, InstProfile.pmInProfile, hf]
  cases InstProfile.pmFindProfile indom p.instprof
  case none => rfl
  case some i =>
    simp only [Profile.instprof, Profile.decoded, getElem?_map, Option.bind_some]
    cases p.profile[i]?
    case none => rfl
    case some e =>
      simp only [Option.map_some, instprof_list, decoded_list]
      rfl

-- The profiles are the same up to the difference between no list of instances and an empty one.
structure Profile.Same (p q : Profile) : Prop where
  state : p.state = q.state
  entries : p.profile.map (fun e => (e.indom, e.state, e.list)) =
    q.profile.map fun e => (e.indom, e.state, e.list)
  answers : ∀ indom inst, InstProfile.pmInProfile indom (some p.instprof) inst =
    InstProfile.pmInProfile indom (some q.instprof) inst

theorem Profile.decoded_same (p : Profile) : p.decoded.Same p where
  state := rfl
  entries := by
    rw [Profile.decoded, map_map]
    exact map_congr_left fun e _ => by rw [Function.comp, e.decoded_list]; rfl
  answers := decoded_inProfile

def Returns (ctxnum : Int) (p : Profile) (source : UInt32) : Prop :=
  ∃ bytes, sendProfile ctxnum p source = some bytes ∧ ∀ m, Holds m 0 bytes →
    ∃ p', (decodeProfile m).val = .ok (ctxnum, p') ∧ p'.Same p

theorem decodeProfile_sendProfile (p : Profile) (source : UInt32)
    (hc : 0 ≤ ctxnum ∧ ctxnum ≤ limitCtxnum) :
    Returns ctxnum p source ↔ need p ≤ needMax ∧ p.profile.length < limitProfile := by
  constructor
  case mp =>
    intro ⟨bytes, hs, h⟩
    have hn : need p ≤ needMax := (Option.ite_none_right_eq_some.mp hs).left
    refine ⟨hn, not_le.mp fun hp => ?_⟩
    obtain ⟨p', hv, -⟩ := h (write (fun _ => 0) 0 bytes) .write
    rw [decodeProfile_rejects (sendProfile_image hc hs .write) hc (hn.trans needMax_le) hp] at hv
    cases hv
  case mpr =>
    intro ⟨hn, hp⟩
    refine ⟨_, if_pos hn, fun m h => ⟨p.decoded, ?_, p.decoded_same⟩⟩
    exact decodeProfile_image (sendProfile_image hc (if_pos hn) h) hc (hn.trans needMax_le) hp

theorem decodeProfile_sendProfile_two :
    Returns 3 ⟨1, [⟨0x400, 0, some [7, -1]⟩, ⟨0x401, 1, none⟩]⟩ 99 :=
  (decodeProfile_sendProfile _ _ (by decide)).mpr (by decide)

def replicated (n : Nat) : Profile :=
  ⟨0, List.replicate n ⟨0, 0, none⟩⟩

theorem need_replicated : need (replicated n) = 28 + n * 16 := by
  simp [need, replicated, list]

theorem replicated_rejected (hn : (28 + n * 16 : Nat) ≤ needMax) (hp : limitProfile ≤ n) :
    ∃ bytes, sendProfile 0 (replicated n) source = some bytes ∧
      ∀ m, Holds m 0 bytes → (decodeProfile m).val = .error pmErrIpc := by
  have hc : (0 : Int) ≤ 0 ∧ (0 : Int) ≤ limitCtxnum := by decide
  rw [← need_replicated] at hn
  refine ⟨_, if_pos hn, fun m h => ?_⟩
  refine decodeProfile_rejects (sendProfile_image hc (if_pos hn) h) hc (hn.trans needMax_le) ?_
  rwa [replicated, length_replicate]

-- The smallest number of entries that is not accepted.
theorem decodeProfile_sendProfile_not :
    ∃ bytes, sendProfile 0 (replicated 89478485) 99 = some bytes ∧
      ∀ m, Holds m 0 bytes → (decodeProfile m).val = .error pmErrIpc :=
  replicated_rejected (by decide) (by decide)

end Profile

end PduProfile
