import PcpModel.PduResult.Check
import PcpModel.PduResult.Encode

-- The decoder gives back what the encoder has written.
namespace PduResult

open Memory Memory.Prog List CInt

theorem htonl_be32 (h : Holds m a (htonl n)) : (be32 m a : Int) = uint n := by
  have := h.be32_eq
  simp only [uint] at *
  omega

theorem htonl_ofWord (h : Holds m a (htonl n)) (hl : -2147483648 ≤ n) (hu : n < 2147483648) :
    ofWord (be32 m a) = n := by
  have := htonl_be32 h
  simp only [ofWord, uint] at *
  omega

theorem htonl_int32 {n : Int32} (h : Holds m a (htonl n.toInt)) :
    ofWord (be32 m a) = n.toInt :=
  htonl_ofWord h n.le_toInt n.toInt_lt

theorem le_hdrLenOf (h : Holds m 0 (le n)) (hn : n < 0x80000000) : hdrLenOf m = n := by
  have := h.le32_eq
  simp only [hdrLenOf, ofWord]
  omega

def Sums.addBlocks (s : Sums) (vb : Int) (n : Nat) : Sums :=
  { s with vbsize := s.vbsize + n, vsplit := if n = 0 then s.vsplit else min s.vsplit vb }

theorem Sums.addBlocks_zero {s : Sums} : s.addBlocks vb 0 = s := by
  simp [addBlocks]

theorem Sums.addBlocks_add {s : Sums} :
    (s.addBlocks vb n).addBlocks (vb + n) k = s.addBlocks vb (n + k) := by
  simp only [addBlocks, mk.injEq, true_and]
  split <;> split <;> split <;> omega

theorem hdrLenOf_congr (h : ∀ i < 4, m' i = m i) : hdrLenOf m' = hdrLenOf m := by
  simp only [hdrLenOf, le32]
  rw [h 0 (by simp), h (0 + 1) (by simp), h (0 + 2) (by simp), h (0 + 3) (by simp)]

theorem Sums.addBlock_eq {s : Sums} (vb : Int) (h₀ : 0 ≤ s.vbsize)
    (h : s.vbsize + pduSizeBytes n < 268435455) (hn : 0 < n) :
    s.addBlock vb n = s.addBlocks vb (pduSizeBytes n) := by
  have hp : pduSizeBytes n ≠ 0 := by
    unfold pduSizeBytes
    omega
  simp only [addBlock, addBlocks, mk.injEq, true_and, hp, if_false, and_true]
  exact int_eq (by omega) (by simp only [intMax]; omega)

section Values

variable {len : Int} (hl : len < 268435455)
include hl

omit hl in
theorem ntoh_vlen {b : Block} (hb : b.Fits) (h : Holds m vb (b.bytes .network)) :
    vlen (Ntoh.valueBlock vb m).mem vb = b.vlen :=
  header_vlen (Holds.append.mp (Ntoh.valueBlock_turns hb h).holds).left b.small

omit hl in
theorem ntoh_hdrLenOf {b : Block} (hb : b.Fits) (h : Holds m vb (b.bytes .network))
    (h₀ : 4 ≤ vb) : hdrLenOf (Ntoh.valueBlock vb m).mem = hdrLenOf m :=
  hdrLenOf_congr fun i hi => (Ntoh.valueBlock_turns hb h).frame i <| by simp; omega

theorem valueOk_image {b : Block} (hb : b.Fits) (h : Holds m vb (b.bytes .network))
    (ha : blockAddr m vp = vb) (hm : hdrLenOf m = len) (h₀ : 24 ≤ vp) (h₁ : vp + 8 ≤ vb)
    (h₂ : vb + b.vlen ≤ len) : ValueOk len vp m := by
  have hv := ntoh_vlen hb h
  have hh := ntoh_hdrLenOf hb h (by omega)
  have hs : size (len - vb) = len - vb := size_eq (by omega) (by omega)
  have h₄ : 4 ≤ b.vlen := by unfold Block.vlen; omega
  subst ha
  constructor
  case room => rw [size_eq (by omega) (by omega)]; omega
  case vlen_hdr => rw [hh]; omega
  all_goals omega

theorem checkValues_turns {s : Sums} (hm : hdrLenOf m = len)
    (hv : ∀ v ∈ vs, v.Fits) (hp : ∀ v ∈ vs, ¬v.value.isLval)
    (h : Holds m vp (valuesBytes vb vs)) (hb : Holds m vb (blocksBytes .network vs))
    (h₀ : 24 ≤ vp) (h₁ : vp + 8 * vs.length ≤ vb) (h₂ : vb + (blocksBytes .network vs).length ≤ len)
    (h₃ : vb % 4 = 0) (h₄ : 0 ≤ s.vbsize) (h₅ : s.vbsize ≤ vb) :
    Turns (checkValues len vs.length vp s) m vb (blocksBytes .host vs)
      (some (s.addBlocks vb (blocksBytes .host vs).length)) := by
  induction vs generalizing vp vb s m
  case nil => exact Sums.addBlocks_zero.symm ▸ Turns.pure .nil
  case cons v vs hi =>
    obtain ⟨inst, x | b⟩ := v
    case lval => simp [Value.isLval] at hp
    case pval =>
      simp only [valuesBytes, Holds.append, length_append, htonl_length, Nat.cast_ofNat,
        Nat.reduceAdd] at h
      obtain ⟨⟨-, hw⟩, hr⟩ := h
      rw [blocksBytes_cons, Holds.append, Value.bytes_length] at hb
      rw [blocksBytes_cons, length_append, Value.bytes_length] at h₂
      rw [length_cons] at h₁
      simp only [Value.vneed, Value.word] at *
      have hn : b.vlen ≤ pduSizeBytes b.vlen := by unfold pduSizeBytes; omega
      have ha : blockAddr m vp = vb := by
        rw [blockAddr, htonl_ofWord hw (by omega) (by omega)]
        omega
      have hf := hv _ mem_cons_self b rfl
      have hbn := (Holds.append.mp hb.left).left
      have ok := valueOk_image hl hf hbn ha hm h₀ (by omega) (by omega)
      have t := Turns.append hb.left (Ntoh.valueBlock_turns hf hbn) (by simp)
      have hk := ntoh_vlen hf hbn
      have hs := s.addBlock_eq (n := b.vlen) vb h₄ (by omega) (by unfold Block.vlen; omega)
      have he := checkValues_succ_eq (n := vs.length) (s := s) ok
      simp only [ha, hk, hs] at he
      have hd : ∀ {c : Int} {k : List UInt8}, c + k.length ≤ vb ∨ vb + pduSizeBytes b.vlen ≤ c →
          Holds m c k → Holds (Ntoh.valueBlock vb m).mem c k := fun hd h =>
        t.beside h <| by simpa [← add_padding] using hd
      have t' := hi
        (s := s.addBlocks vb (pduSizeBytes b.vlen))
        ((ntoh_hdrLenOf hf hbn (by omega)).trans hm)
        (fun v h => hv v <| mem_cons_of_mem _ h) (fun v h => hp v <| mem_cons_of_mem _ h)
        (hd (by simp; omega) hr) (hd (by simp) hb.right) (by omega) (by omega) (by omega)
        (by unfold pduSizeBytes; omega) (by simp only [Sums.addBlocks]; omega)
        (by simp only [Sums.addBlocks]; omega)
      rw [Sums.addBlocks_add] at t'
      have hz := t.seq t' (by simp [← add_padding])
        ((congrArg Outcome.val he).trans t'.val) (by rw [he])
      rw [blocksBytes_cons, length_append, Value.bytes_length]
      exact hz

end Values

def ValueSet.newNeed (s : ValueSet) : Nat :=
  if s.vlist.length > 0 then 16 + 16 * s.vlist.length else 32

def Sums.addVlists (s : Sums) (ss : List ValueSet) : Sums :=
  { s with
    vsize := s.vsize + (ss.map (·.need)).sum
    nvsize := s.nvsize + (ss.map (·.newNeed)).sum }

theorem ValueSet.setSize_eq (t : ValueSet) : setSize t.numval.toInt = t.need := by
  have := t.count
  unfold setSize need
  split <;> split <;> omega

theorem ValueSet.newSize_eq (t : ValueSet) : newSize t.numval.toInt = t.newNeed := by
  have := t.count
  unfold newSize newNeed
  split <;> split <;> omega

theorem ValueSet.newNeed_le (t : ValueSet) : t.newNeed ≤ 4 * t.need := by
  unfold newNeed need
  split <;> omega

structure Sums.Small (s : Sums) (vb : Int) : Prop where
  vsize : 0 ≤ s.vsize
  nvsize : 0 ≤ s.nvsize ∧ s.nvsize ≤ 4 * s.vsize
  vbsize : 0 ≤ s.vbsize ∧ s.vbsize ≤ vb

theorem Sums.addSet_eq {s : Sums} (hs : s.Small vb)
    (h : s.vsize + t.need < 268435455) : s.addSet t.numval.toInt = s.addVlists [t] := by
  have hn := t.newNeed_le
  have h₂ := hs.nvsize
  have hv := @addSet_vsize s t.numval.toInt
  have hw := @addSet_nvsize s t.numval.toInt
  rw [t.setSize_eq, int_eq (by omega) (by simp only [intMax]; omega)] at hv
  rw [t.newSize_eq, int_eq (by omega) (by simp only [intMax]; omega)] at hw
  ext
  case nvsize => simpa [addVlists] using hw
  case vsize => simpa [addVlists] using hv
  all_goals
    unfold addSet
    split <;> rfl

theorem ValueSet.blockCount_eq (t : ValueSet) :
    0 < t.vlist.length ∧ blockCount t.numval.toInt t.valfmt.toInt = t.vlist.length ∧
      (∀ v ∈ t.vlist, ¬v.value.isLval) ∨
    blockCount t.numval.toInt t.valfmt.toInt = 0 ∧ blocksBytes .host t.vlist = [] := by
  have hc := t.count
  have hf : t.valfmt.toInt = 0 ↔ t.valfmt = 0 := Int32.toInt_inj (y := 0)
  unfold blockCount
  by_cases hn : t.numval.toInt ≤ 0
  · have hl : t.vlist = [] := length_eq_zero_iff.mp <| by omega
    exact .inr ⟨by simp [hn], by simp [hl, blocksBytes]⟩
  by_cases h₀ : t.valfmt = 0
  · refine .inr ⟨by simp [h₀], flatMap_eq_nil_iff.mpr fun v hv => ?_⟩
    have hi := (t.insitu v hv).mpr h₀
    obtain ⟨_, x | b⟩ := v
    · rfl
    · simp [Value.isLval] at hi
  · refine .inl ⟨by omega, by simp [hn, hf, h₀, hc], fun v hv => ?_⟩
    rwa [t.insitu v hv]

theorem ValueSet.holds_bytes {t : ValueSet} (h : Holds m (24 + s.vsize) (t.bytes vb)) :
    be32 m (24 + s.vsize) = t.pmid.toNat ∧ setNumval s m = t.numval.toInt ∧
    (0 < t.numval.toInt → setValfmt s m = t.valfmt.toInt) ∧
    Holds m (24 + s.vsize + 12) (valuesBytes vb t.vlist) := by
  have hc := t.count
  have hp := t.pmid.toNat_lt
  simp only [bytes, Holds.append, length_append, be_length, htonl_length] at h
  obtain ⟨⟨hi, hn⟩, h⟩ := h
  refine ⟨by rw [hi.be32_eq]; omega, htonl_int32 hn, fun h₀ => ?_, ?_⟩
  · rw [if_pos h₀, Holds.append] at h
    exact htonl_int32 h.left
  · by_cases h₀ : 0 < t.numval.toInt
    · rw [if_pos h₀, Holds.append] at h
      simpa [add_assoc] using h.right
    · have hl : t.vlist = [] := length_eq_zero_iff.mp <| by omega
      simp [hl, valuesBytes]

theorem setsBlocks_length : (setsBlocks o ss).length = (ss.map (·.vneed)).sum := by
  simp only [setsBlocks, length_flatMap]
  congr 1
  exact map_congr_left fun t _ => blocksBytes_length

theorem ValueSet.vneed_aligned (t : ValueSet) : t.vneed % 4 = 0 := by
  have h (l : List PmValue) : (l.map (·.value.vneed)).sum % 4 = 0 := by
    induction l
    case nil => rfl
    case cons v l hi =>
      have : v.value.vneed % 4 = 0 := by
        cases v.value
        · rfl
        · simp [Value.vneed, pduSizeBytes]
      rw [map_cons, sum_cons]
      omega
  exact h t.vlist

theorem Sums.addVlists_cons {s : Sums} :
    ((s.addVlists [t]).addBlocks vb n).addVlists ss = (s.addVlists (t :: ss)).addBlocks vb n := by
  simp [addVlists, addBlocks, add_assoc]

theorem Sums.Small.addVlists {s : Sums} (h : s.Small vb) :
    ((s.addVlists [t]).addBlocks vb n).Small (vb + n) := by
  have ⟨h₁, h₂, h₃⟩ := h
  have := t.newNeed_le
  constructor <;> simp [Sums.addVlists, Sums.addBlocks] <;> omega

section Sets

variable {len : Int} (hl : len < 268435455)
include hl

theorem setOk_image {t : ValueSet} (hm : hdrLenOf m = len)
    (hn : setNumval s m = t.numval.toInt) (h₀ : 0 ≤ s.vsize)
    (h : 24 + s.vsize + t.need ≤ len) : SetOk len s m := by
  have hc := t.count
  have hs : size (len - (24 + s.vsize)) = len - (24 + s.vsize) :=
    size_eq (by omega) (by omega)
  unfold ValueSet.need at h
  constructor
  · rw [hs]
    split at h <;> omega
  · rw [hm]
    split at h <;> omega
  · intro hp
    rw [if_pos (by omega)] at h
    simp only [intMax]
    omega

theorem checkBlocks_turns (hm : hdrLenOf m = len)
    (hv : t.Fits) (h : Holds m (24 + s.vsize) (t.bytes vb))
    (hb : Holds m vb (blocksBytes .network t.vlist)) (hs : s.Small vb)
    (h₁ : 24 + s.vsize + t.need ≤ vb) (h₂ : vb + t.vneed ≤ len) (h₃ : vb % 4 = 0) :
    Turns (checkBlocks len s m) m vb (blocksBytes .host t.vlist)
      (some ((s.addVlists [t]).addBlocks vb t.vneed)) := by
  have h₀ := hs.vsize
  have hvb := hs.vbsize
  have ⟨_, hn, hf, hw⟩ := t.holds_bytes h
  have hc : blockCount t.numval.toInt (setValfmt s m) =
      blockCount t.numval.toInt t.valfmt.toInt := by
    by_cases hp : 0 < t.numval.toInt
    · rw [hf hp]
    · simp [blockCount, not_lt.mp hp]
  have hlen : (blocksBytes .network t.vlist).length = t.vneed := blocksBytes_length
  have hlen' : (blocksBytes .host t.vlist).length = t.vneed := blocksBytes_length
  rw [checkBlocks, hn, hc, s.addSet_eq hs (by omega)]
  rcases t.blockCount_eq with ⟨hz, he, hp⟩ | ⟨he, hp⟩
  · rw [ValueSet.need, if_pos hz] at h₁
    rw [he, ← hlen']
    exact checkValues_turns hl hm hv hp hw hb (by omega) (by omega) (by omega) h₃ hvb.left hvb.right
  · rw [hp] at hlen' ⊢
    rw [he, ← hlen', length_nil, Sums.addBlocks_zero]
    exact .pure .nil

theorem checkSets_turns (hm : hdrLenOf m = len)
    (hv : ∀ t ∈ ss, t.Fits) (h : Holds m (24 + s.vsize) (setsBytes vb ss))
    (hb : Holds m vb (setsBlocks .network ss)) (hs : s.Small vb)
    (h₁ : 24 + s.vsize + (ss.map (·.need)).sum ≤ vb)
    (h₂ : vb + (ss.map (·.vneed)).sum ≤ len) (h₃ : vb % 4 = 0) :
    Turns (checkSets len ss.length s) m vb (setsBlocks .host ss)
      (some ((s.addVlists ss).addBlocks vb (ss.map (·.vneed)).sum)) := by
  induction ss generalizing vb s m
  case nil =>
    have : (s.addVlists []).addBlocks vb 0 = s := by simp [Sums.addVlists, Sums.addBlocks]
    exact this.symm ▸ Turns.pure .nil
  case cons t ss hi =>
    rw [setsBytes, Holds.append] at h
    simp only [map_cons, sum_cons] at h₁ h₂ ⊢
    have hb := Holds.append.mp hb
    rw [blocksBytes_length] at hb
    have ok := setOk_image hl hm (t.holds_bytes h.left).right.left hs.vsize (by omega)
    have ht := checkBlocks_turns hl hm (hv t mem_cons_self) h.left hb.left hs (by omega)
      (by omega) h₃
    have hlen : (blocksBytes .host t.vlist).length = t.vneed := blocksBytes_length
    have h₀ := hs.vsize
    have ha := t.vneed_aligned
    have hd {c : Int} {k : List UInt8} (hd : c + k.length ≤ vb ∨ vb + t.vneed ≤ c)
        (hk : Holds m c k) : Holds (checkBlocks len s m m).mem c k :=
      ht.beside hk <| by rwa [hlen]
    have hvs : ((s.addVlists [t]).addBlocks vb t.vneed).vsize = s.vsize + t.need := by
      simp [Sums.addVlists, Sums.addBlocks]
    have ht' := hi
      ((hdrLenOf_congr fun i hi => ht.frame i <| by simp; omega).trans hm)
      (fun t ht => hv t <| mem_cons_of_mem _ ht)
      (hd (by rw [hvs, setsBytes_length]; omega) (by simpa [hvs, add_assoc] using h.right))
      (hd (.inr le_rfl) hb.right) hs.addVlists (by rw [hvs]; omega) (by omega) (by omega)
    rw [Sums.addVlists_cons, Sums.addBlocks_add] at ht'
    have he := checkSets_succ_eq (n := ss.length) ok ht.val
    exact ht.seq ht' (by rw [hlen]) ((congrArg Outcome.val he).trans ht'.val)
      (by rw [length_cons, he])

end Sets

section Same

variable (newbuf : Bytes)

structure SameValue (v : PmValue) (w : NewValue) : Prop where
  inst : w.inst = v.inst.toInt
  value : match v.value with
    | .lval x => w.value = x.toInt
    | .pval b => Holds newbuf w.value (b.bytes .host)

structure SameSet (s : ValueSet) (t : NewSet) : Prop where
  pmid : t.pmid = s.pmid.toNat
  numval : t.numval = s.numval.toInt
  values : 0 < s.numval.toInt → t.valfmt = some s.valfmt.toInt ∧
    List.Forall₂ (SameValue newbuf) s.vlist t.vlist

end Same

structure Same (r : PmResult) (d : Decoded) : Prop where
  sec : d.sec = CInt.uint r.sec
  usec : d.usec = CInt.uint r.usec
  numpmid : d.numpmid = r.vset.length
  vset : List.Forall₂ (SameSet d.newbuf) r.vset d.vset

section Read

variable {offset : Int} (hl : -268435455 ≤ offset) (hu : offset ≤ 1073741820)
include hl hu

theorem readValue_same (hv : v.value.isLval ↔ valfmt = 0)
    (h : Holds m vp (htonl v.inst.toInt ++ htonl (v.value.word vb)))
    (hb : Holds newbuf (vb + offset) (v.value.bytes .host)) (h₀ : 0 ≤ vb) (h₁ : vb < 268435455)
    (h₂ : vb % 4 = 0) : SameValue newbuf v (readValue offset valfmt vp m).val := by
  have ⟨hi, hw⟩ := Holds.append.mp h
  simp only [htonl_length, Nat.cast_ofNat] at hw
  obtain ⟨inst, x | b⟩ := v
  · have hf : valfmt = 0 := hv.mp rfl
    have : (readValue offset valfmt vp m).val =
        ⟨ofWord (be32 m vp), ofWord (be32 m (vp + 4))⟩ := by
      simp [readValue, hf, ntohl]
    rw [this]
    exact ⟨htonl_int32 hi, htonl_int32 hw⟩
  · have hf : valfmt ≠ 0 := by simpa [Value.isLval] using hv
    have : (readValue offset valfmt vp m).val =
        ⟨ofWord (be32 m vp), int (4 * be32 m (vp + 4) + offset)⟩ := by
      simp [readValue, hf, ntohl]
    have hx : (4 * be32 m (vp + 4) + offset : Int) = vb + offset := by
      rw [htonl_be32 hw]
      simp only [Value.word, uint]
      omega
    rw [this, hx, int_eq (by omega) (by simp only [intMax]; omega)]
    exact ⟨htonl_int32 hi, (Holds.append.mp hb).left⟩

theorem readValues_same {vs : List PmValue}
    (hv : ∀ v ∈ vs, v.value.isLval ↔ valfmt = 0) (h : Holds m vp (valuesBytes vb vs))
    (hb : Holds newbuf (vb + offset) (blocksBytes .host vs)) (h₀ : 0 ≤ vb)
    (h₁ : vb + (blocksBytes .host vs).length < 268435455) (h₂ : vb % 4 = 0) :
    Forall₂ (SameValue newbuf) vs (readValues offset valfmt vs.length vp m).val := by
  induction vs generalizing vp vb
  case nil => exact .nil
  case cons v vs hi =>
    rw [blocksBytes_cons, length_append, Value.bytes_length] at h₁
    have hb := Holds.append.mp hb
    have h := Holds.append.mp h
    have ha : v.value.vneed % 4 = 0 := by
      cases v.value <;> simp [Value.vneed, pduSizeBytes]
    simp only [readValues, length_cons, Prog.bind_val, readValue_mem]
    refine .cons ?_ ?_
    · exact readValue_same hl hu (hv v mem_cons_self) h.left hb.left h₀ (by omega) h₂
    · refine hi (fun v h => hv v <| mem_cons_of_mem _ h) h.right
        ?_ (by omega) (by omega) (by omega)
      have := hb.right
      rwa [Value.bytes_length, show vb + offset + v.value.vneed = vb + v.value.vneed + offset by
        omega] at this

omit hl hu in
theorem readVlist_pmid : (readVlist offset vsize pmid numval m).val.1.pmid = pmid := by
  unfold readVlist
  by_cases h : numval ≤ 0 <;> simp [h]

omit hl hu in
theorem readVlist_pos (h : 0 < numval) : (readVlist offset vsize pmid numval m).val.1 =
    let valfmt := ofWord (be32 m (24 + vsize + 8))
    ⟨pmid, numval, some valfmt,
      (readValues offset valfmt numval.toNat (24 + vsize + 12) m).val⟩ := by
  simp [readVlist, not_le.mpr h, ntohl]

theorem readSets_same (vb : Int) {s : Sums}
    (h : Holds m (24 + s.vsize) (setsBytes vb ss))
    (hb : Holds newbuf (vb + offset) (setsBlocks .host ss)) (hs : s.Small vb)
    (h₁ : vb + (ss.map (·.vneed)).sum < 268435455) (h₂ : vb % 4 = 0)
    (h₃ : 24 + s.vsize + (ss.map (·.need)).sum ≤ vb) :
    Forall₂ (SameSet newbuf) ss (readSets offset ss.length s.vsize m).val := by
  induction ss generalizing vb s
  case nil => exact .nil
  case cons t ss hi =>
    simp only [map_cons, sum_cons] at h₁ h₃
    have hb := Holds.append.mp hb
    have h := Holds.append.mp h
    have ⟨hp, hn, hf, hw⟩ := t.holds_bytes h.left
    rw [length_cons, readSets_cons fun _ _ => rfl, hn,
      s.addSet_eq hs (by have := hs.vsize; omega)]
    have hlen : (blocksBytes .host t.vlist).length = t.vneed := blocksBytes_length
    have h₀ : 0 ≤ vb := hs.vbsize.left.trans hs.vbsize.right
    refine .cons ⟨readVlist_pmid.trans hp, readVlist_numval, fun h₄ => ?_⟩ ?_
    · rw [readVlist_pos h₄, show ofWord (be32 m (24 + s.vsize + 8)) = _ from hf h₄, ← t.count]
      refine ⟨rfl, readValues_same hl hu (fun v hv => ?_) hw hb.left h₀ (by omega) h₂⟩
      rw [t.insitu v hv]
      exact (Int32.toInt_inj).symm
    · have hv : ((s.addVlists [t]).addBlocks vb t.vneed).vsize = s.vsize + t.need := by
        simp [Sums.addVlists, Sums.addBlocks]
      have ha := t.vneed_aligned
      refine hi (vb + t.vneed) (s := (s.addVlists [t]).addBlocks vb t.vneed) ?_ ?_
        hs.addVlists (by omega) (by omega) (by omega)
      · rw [hv, ← add_assoc]
        simpa using h.right
      · have := hb.right
        rwa [hlen, show vb + offset + t.vneed = vb + t.vneed + offset by omega] at this

end Read

theorem PmResult.sums (r : PmResult) :
    8 * r.vset.length + 24 ≤ r.need ∧ (r.vset.map (·.newNeed)).sum ≤ 4 * (r.need - 24) := by
  have h (l : List ValueSet) : 8 * l.length ≤ (l.map (·.need)).sum ∧
      (l.map (·.newNeed)).sum ≤ 4 * (l.map (·.need)).sum := by
    induction l
    case nil => simp
    case cons t l hi =>
      have := t.newNeed_le
      have : 8 ≤ t.need := by unfold ValueSet.need; split <;> omega
      simp only [map_cons, sum_cons, length_cons]
      omega
  have := h r.vset
  unfold need
  omega

section Decode

variable {r : PmResult} (hr : r.need + r.vneed < 268435455)
include hr

theorem Image.hdrLenOf (h : Image r m) : hdrLenOf m = (r.need + r.vneed : Nat) :=
  le_hdrLenOf h.len (by omega)

theorem Image.numpmidOf (h : Image r m) : numpmidOf m = r.vset.length := by
  have := r.sums
  exact htonl_ofWord h.numpmid (by omega) (by omega)

theorem Image.headerOk (h : Image r m) : HeaderOk m := by
  have := r.sums
  constructor
  case room => rw [h.hdrLenOf hr, size_eq (by omega) (by omega)]; omega
  case nonneg => rw [h.numpmidOf hr]; omega
  case le => rw [h.hdrLenOf hr, h.numpmidOf hr]; omega
  case overflow => rw [h.numpmidOf hr]; simp only [intMax]; omega

def finalSums (r : PmResult) : Sums :=
  (Sums.addVlists ⟨0, 0, 0, (r.need + r.vneed : Nat)⟩ r.vset).addBlocks r.need r.vneed

omit hr in
theorem zero_small {vb : Int} (h : 0 ≤ vb) : (⟨0, 0, 0, len⟩ : Sums).Small vb :=
  ⟨le_rfl, ⟨le_rfl, le_rfl⟩, ⟨le_rfl, h⟩⟩

theorem Image.checkAll_turns (h : Image r m) (hv : ∀ t ∈ r.vset, t.Fits) :
    Turns (checkAll m) m r.need (setsBlocks .host r.vset) (some (finalSums r)) := by
  have ha := r.need_aligned
  have hn : (24 + (0 : Int) + (r.vset.map (·.need)).sum) = r.need := by simp [PmResult.need]
  rw [checkAll, h.numpmidOf hr, h.hdrLenOf hr]
  refine checkSets_turns (by omega) (h.hdrLenOf hr) hv h.vset h.blocks (zero_small (by omega))
    hn.le ?_ (by omega)
  simp [PmResult.vneed]

omit hr in
theorem finalSums_fields : (finalSums r).vsize = r.need - 24 ∧ (finalSums r).vbsize = r.vneed ∧
    (finalSums r).nvsize = (r.vset.map (·.newNeed)).sum ∧ (finalSums r).vsplit = r.need := by
  simp only [finalSums, Sums.addVlists, Sums.addBlocks, PmResult.need]
  refine ⟨by omega, by omega, by omega, ?_⟩
  split <;> omega

theorem finalSums_accepted :
    (finalSums r).Accepted (r.need + r.vneed : Nat) (r.need + r.vneed : Nat) := by
  have hs := r.sums
  obtain ⟨hv, hb, hn, hp⟩ := @finalSums_fields r
  unfold Sums.Accepted
  rw [size_eq (by omega) (by omega), size_eq (by omega) (by omega),
    int_eq (by omega) (by simp only [intMax]; omega),
    int_eq (by omega) (by simp only [intMax]; omega),
    int_eq (by omega) (by simp only [intMax]; omega)]
  simp only [intMax]
  omega

omit hr in
theorem copyBlocks_holds (newbuf : Bytes) (h : Holds m r.need (setsBlocks .host r.vset)) :
    Holds (copyBlocks newbuf (finalSums r) m).val (finalSums r).nvsize
      (setsBlocks .host r.vset) := by
  obtain ⟨hv, hb, -, -⟩ := @finalSums_fields r
  have hl : (setsBlocks .host r.vset).length = r.vneed := setsBlocks_length
  have ha := r.need_aligned
  unfold copyBlocks
  by_cases h₀ : (finalSums r).vbsize = 0
  · have : setsBlocks .host r.vset = [] := length_eq_zero_iff.mp <| by omega
    simp [this]
  · rw [if_neg h₀]
    have hd : 24 + 4 * ((finalSums r).vsize / 4) = r.need := by omega
    simp only [hd]
    exact h.copy <| by omega

theorem decodeResult_image (h : Image r m) (hv : ∀ t ∈ r.vset, t.Fits) :
    ∃ d, (decodeResult newbuf m).val = some d ∧ Same r d := by
  have hs := r.sums
  have hf := @finalSums_fields r
  have ha := r.need_aligned
  have ht := h.checkAll_turns hr hv
  have hl := h.hdrLenOf hr
  have hh : hdrLenOf (checkAll m m).mem = hdrLenOf m :=
    hdrLenOf_congr fun i hi => ht.frame i <| by simp; omega
  have hacc : (finalSums r).Accepted (hdrLenOf m) (hdrLenOf (checkAll m m).mem) := by
    rw [hh, hl]
    exact finalSums_accepted hr
  refine ⟨decoded newbuf (numpmidOf m) (be32 m 12) (be32 m 16) (finalSums r) (checkAll m m).mem,
    ?_, htonl_be32 h.sec, htonl_be32 h.usec, h.numpmidOf hr, ?_⟩
  · exact decodeResult_val (h.headerOk hr) ht.val hacc
  · have ho : int ((finalSums r).nvsize - (finalSums r).vsize - 24) =
        (finalSums r).nvsize - r.need := by
      rw [int_eq (by omega) (by simp only [intMax]; omega)]
      omega
    have hc := copyBlocks_holds newbuf ht.holds
    simp only [decoded, h.numpmidOf hr]
    refine readSets_same (s := ⟨0, 0, 0, 0⟩) (by omega) (by omega) r.need ?_ ?_
      (zero_small (by omega)) ?_ (by omega) ?_
    · refine ht.beside h.vset (.inl ?_)
      simp [PmResult.need]
    · convert hc using 1
      omega
    · simp only [PmResult.vneed] at hr
      omega
    · simp [PmResult.need]

end Decode

-- What is encoded is decoded, if the values that are swapped lie in their blocks.
theorem decodeResult_encodeResult (r : PmResult) (m newbuf : Bytes) (hv : ∀ s ∈ r.vset, s.Fits)
    (hr : (r.need + r.vneed : Nat) < CInt.intMax / 8) :
    ∃ d, (decodeResult newbuf (encodeResult r m).mem).val = some d ∧ Same r d :=
  decodeResult_image (by simp only [intMax] at hr; omega) (encodeResult_image hv) hv

def mixedResult : PmResult where
  sec := 1
  usec := 2
  vset := [
    { pmid := 60, numval := -12357, valfmt := 0, vlist := [], count := rfl, insitu := nofun },
    { pmid := 61, numval := 1, valfmt := 0, vlist := [⟨7, .lval 42⟩], count := rfl,
      insitu := by simp [Value.isLval] },
    { pmid := 62, numval := 2, valfmt := 1,
      vlist := [
        ⟨0, .pval ⟨PmType.aggregate, .raw [1, 2, 3], by decide, by decide⟩⟩,
        ⟨1, .pval ⟨PmType.i64, .raw [1, 2, 3, 4, 5, 6, 7, 8], by decide, by decide⟩⟩],
      count := rfl, insitu := by simp [Value.isLval] }]

theorem decodeResult_encodeResult_mixed :
    (∀ s ∈ mixedResult.vset, s.Fits) ∧
    ∃ d, (decodeResult (fun _ => 0) (encodeResult mixedResult fun _ => 0).mem).val = some d ∧
      Same mixedResult d := by
  have hv : ∀ s ∈ mixedResult.vset, s.Fits := by
    simp [mixedResult, ValueSet.Fits, PmValue.Fits, Block.Fits]
    decide
  exact ⟨hv, decodeResult_encodeResult _ _ _ hv (by decide)⟩

-- A result with two blocks, where the first has the type but not the length of a 64-bit value.
def shortResult : PmResult where
  sec := 1
  usec := 2
  vset := [
    { pmid := 62, numval := 2, valfmt := 1,
      vlist := [
        ⟨0, .pval ⟨PmType.i64, .raw [], by decide, by decide⟩⟩,
        ⟨1, .pval ⟨PmType.aggregate, .raw [0, 0, 0, 0, 0, 0, 0, 0], by decide, by decide⟩⟩],
      count := rfl, insitu := by simp [Value.isLval] }]

-- The decoder swaps bytes of the second block with those of the first one, and fails.
theorem decodeResult_encodeResult_short :
    (decodeResult (fun _ => 0) (encodeResult shortResult fun _ => 0).mem).val.isNone := by
  decide +kernel

end PduResult
