import PcpModel.PduResult.Basic

-- The PDU that the encoder leaves in its buffer.
namespace PduResult

open Memory Memory.Prog List

@[simp]
theorem htonl_length : (htonl n).length = 4 :=
  rfl

def Value.word (vb : Int) : Value → Int
  | lval x => x.toInt
  | pval _ => vb / 4

def Value.bytes (o : Order) : Value → List UInt8
  | lval _ => []
  | pval b => b.bytes o ++ .replicate (padding b.vlen) '~'.toUInt8

@[simp]
theorem Value.bytes_length : ∀ {v : Value}, (v.bytes o).length = v.vneed
  | lval _ => rfl
  | pval b => by simp [bytes, vneed, ← add_padding]

def valuesBytes (vb : Int) : List PmValue → List UInt8
  | [] => []
  | v :: vs => htonl v.inst.toInt ++ htonl (v.value.word vb) ++
    valuesBytes (vb + v.value.vneed) vs

def blocksBytes (o : Order) (vs : List PmValue) : List UInt8 :=
  vs.flatMap (·.value.bytes o)

@[simp]
theorem valuesBytes_length : (valuesBytes vb vs).length = 8 * vs.length := by
  induction vs generalizing vb
  case nil => rfl
  case cons v vs hi => simp [valuesBytes, hi]; omega

theorem blocksBytes_cons : blocksBytes o (v :: vs) = v.value.bytes o ++ blocksBytes o vs :=
  flatMap_cons

theorem blocksBytes_length : (blocksBytes o vs).length = (vs.map (·.value.vneed)).sum := by
  simp [blocksBytes]

def ValueSet.bytes (vb : Int) (s : ValueSet) : List UInt8 :=
  be s.pmid.toNat ++ htonl s.numval.toInt ++
    if s.numval.toInt > 0 then htonl s.valfmt.toInt ++ valuesBytes vb s.vlist else []

@[simp]
theorem ValueSet.bytes_length {s : ValueSet} : (s.bytes vb).length = s.need := by
  have := s.count
  unfold bytes need
  split <;> split <;> simp <;> omega

def setsBytes (vb : Int) : List ValueSet → List UInt8
  | [] => []
  | s :: ss => s.bytes vb ++ setsBytes (vb + s.vneed) ss

@[simp]
theorem setsBytes_length : (setsBytes vb ss).length = (ss.map (·.need)).sum := by
  induction ss generalizing vb
  case nil => rfl
  case cons s ss hi => simp [setsBytes, hi]

def setsBlocks (o : Order) (ss : List ValueSet) : List UInt8 :=
  ss.flatMap (blocksBytes o ·.vlist)

def PmValue.Fits (v : PmValue) : Prop :=
  ∀ b, v.value = .pval b → b.Fits

def ValueSet.Fits (s : ValueSet) : Prop :=
  ∀ v ∈ s.vlist, v.Fits

theorem encodeBlock_turns (hb : b.Fits) :
    Turns (encodeBlock vbp b) m vbp (Value.bytes .network (.pval b)) () := by
  have t₁ : Turns (store vbp (b.bytes .host)) m _ _ _ := .store
  have t₂ : Turns (store (vbp + b.vlen) (.replicate (padding b.vlen) '~'.toUInt8))
    (store vbp (b.bytes .host) m).mem _ _ _ := .store
  have t₃ := Hton.valueBlock_turns hb <| t₂.beside t₁.holds (by simp)
  refine ⟨rfl, Holds.append.mpr ⟨t₃.holds, ?_⟩, ?_⟩
  · exact t₃.beside (by simpa using t₂.holds) (by simp)
  · refine .trans (.trans (t₁.frame.mono ?_) (t₂.frame.mono ?_)) (t₃.frame.mono ?_)
    all_goals
      exact span_subset (by simp) (by simp [Value.bytes]; try omega)

theorem encodeValue_fills (hv : v.Fits) (h : vp + 8 ≤ vbp) :
    Fills (encodeValue vp vbp v) m vp (htonl v.inst.toInt ++ htonl (v.value.word vbp)) vbp
      (v.value.bytes .network) (vbp + v.value.vneed) := by
  obtain ⟨inst, x | b⟩ := v
  case lval =>
    have t₁ : Turns (store vp (htonl inst.toInt)) m _ _ _ := .store
    have t₂ : Turns (store (vp + 4) (htonl x.toInt)) (store vp (htonl inst.toInt) m).mem _ _ _ :=
      .store
    have ht := t₁.bind (f := fun _ => store (vp + 4) (htonl x.toInt)) t₂ rfl
    exact ⟨(add_zero _).symm, ht.holds, .nil, ht.frame.mono Set.subset_union_left⟩
  case pval =>
    have t₁ : Turns (store vp (htonl inst.toInt)) m _ _ _ := .store
    have t₂ : Turns (encodeBlock vbp b) (store vp (htonl inst.toInt) m).mem _ _ _ :=
      encodeBlock_turns (hv b rfl)
    have t₃ : Turns (store (vp + 4) (htonl (vbp / 4)))
      (encodeBlock vbp b (store vp (htonl inst.toInt) m).mem).mem _ _ _ := .store
    refine ⟨rfl, Holds.append.mpr ⟨?_, t₃.holds⟩, t₃.beside t₂.holds (by simp; omega), ?_⟩
    · exact t₃.beside (t₂.beside t₁.holds (by simp; omega)) (by simp)
    · refine .trans (.trans (t₁.frame.mono ?_) (t₂.frame.mono ?_)) (t₃.frame.mono ?_)
      · exact .trans (span_subset_right (by simp)) Set.subset_union_left
      · exact Set.subset_union_right
      · exact .trans (span_subset (by simp) (by simp; omega)) Set.subset_union_left

theorem encodeValues_fills {vbp : Int} (hv : ∀ v ∈ vs, v.Fits)
    (h : vp + 8 * vs.length ≤ vbp) :
    Fills (encodeValues vp vbp vs) m vp (valuesBytes vbp vs) vbp (blocksBytes .network vs)
      (vbp + (blocksBytes .network vs).length) := by
  induction vs generalizing vp vbp m
  case nil => exact (add_zero vbp).symm ▸ Fills.pure
  case cons v vs hi =>
    rw [length_cons] at h
    have h₁ := encodeValue_fills (m := m) (hv v mem_cons_self) (show vp + 8 ≤ vbp by omega)
    have h₂ := hi (m := (encodeValue vp vbp v m).mem)
      (fun v hv' => hv v <| mem_cons_of_mem _ hv')
      (show vp + 8 + 8 * vs.length ≤ vbp + v.value.vneed by omega)
    have := h₁.bind (f := (encodeValues (vp + 8) · vs)) h₂ (by simp) (by simp) (by simp; omega)
    rw [encodeValues, blocksBytes_cons, length_append, Value.bytes_length,
      Nat.cast_add, ← add_assoc]
    exact this

section Set

variable {s : ValueSet} {vlp vbp : Int}

theorem encodeSet_fills_empty (hn : ¬s.numval.toInt > 0) :
    Fills (encodeSet vlp vbp s) m vlp (s.bytes vbp) vbp (blocksBytes .network s.vlist)
      (vbp + s.vneed) := by
  have hl : s.vlist = [] := length_eq_zero_iff.mp <| by rw [s.count]; omega
  have t₁ : Turns (store vlp (be s.pmid.toNat)) m _ _ _ := .store
  have t₂ : Turns (store (vlp + 4) (htonl s.numval.toInt)) (store vlp (be s.pmid.toNat) m).mem
    _ _ _ := .store
  have ht := t₁.bind (f := fun _ => store (vlp + 4) (htonl s.numval.toInt)) t₂ rfl
  simp only [encodeSet, encodeValfmt, ValueSet.bytes, ValueSet.vneed, if_neg hn, hl, encodeValues]
  exact ⟨(add_zero vbp).symm, by simpa using ht.holds, .nil,
    ht.frame.mono <| by simp⟩

theorem encodeSet_fills_values (hn : s.numval.toInt > 0) (hv : s.Fits) (h : vlp + s.need ≤ vbp) :
    Fills (encodeSet vlp vbp s) m vlp (s.bytes vbp) vbp (blocksBytes .network s.vlist)
      (vbp + s.vneed) := by
  have hc := s.count
  rw [ValueSet.need, if_pos (by omega)] at h
  have t₁ : Turns (store vlp (be s.pmid.toNat)) m _ _ _ := .store
  have t₂ : Turns (store (vlp + 8) (htonl s.valfmt.toInt)) (store vlp (be s.pmid.toNat) m).mem
    _ _ _ := .store
  have t₃ := encodeValues_fills (m := (store (vlp + 8) (htonl s.valfmt.toInt)
    (store vlp (be s.pmid.toNat) m).mem).mem) hv (show vlp + 12 + 8 * s.vlist.length ≤ vbp by omega)
  have t₄ : Turns (store (vlp + 4) (htonl s.numval.toInt)) (encodeValues (vlp + 12) vbp s.vlist
    (store (vlp + 8) (htonl s.valfmt.toInt) (store vlp (be s.pmid.toNat) m).mem).mem).mem
    _ _ _ := .store
  have hb : (blocksBytes .network s.vlist).length = s.vneed := blocksBytes_length
  simp only [encodeSet, encodeValfmt, ValueSet.bytes, if_pos hn]
  constructor
  case val => exact hb ▸ t₃.val
  case left =>
    refine Holds.append.mpr ⟨Holds.append.mpr ⟨?_, t₄.holds⟩, Holds.append.mpr ⟨?_, ?_⟩⟩
    · exact t₄.beside (t₃.beside (t₂.beside t₁.holds (by simp)) (by simp) (by simp; omega))
        (by simp)
    · exact t₄.beside (t₃.beside (by simpa using t₂.holds) (by simp; omega) (by simp; omega))
        (by simp; omega)
    · exact t₄.beside (by simpa [add_assoc] using t₃.left) (by simp)
  case right => exact t₄.beside t₃.right (by simp; omega)
  case frame =>
    refine .trans (.trans (.trans (t₁.frame.mono ?_) (t₂.frame.mono ?_)) (t₃.frame.mono ?_))
      (t₄.frame.mono ?_)
    all_goals
      intro i hi
      simp at *
      omega

theorem encodeSet_fills (hv : s.Fits) (h : vlp + s.need ≤ vbp) :
    Fills (encodeSet vlp vbp s) m vlp (s.bytes vbp) vbp (blocksBytes .network s.vlist)
      (vbp + s.vneed) := by
  by_cases hn : s.numval.toInt > 0
  · exact encodeSet_fills_values hn hv h
  · exact encodeSet_fills_empty hn

end Set

theorem encodeSets_fills {ss : List ValueSet} {vbp : Int} (hv : ∀ s ∈ ss, s.Fits)
    (h : vlp + (ss.map (·.need)).sum ≤ vbp) :
    Fills (encodeSets vlp vbp ss) m vlp (setsBytes vbp ss) vbp (setsBlocks .network ss)
      (vbp + (ss.map (·.vneed)).sum) := by
  induction ss generalizing vlp vbp m
  case nil => exact (add_zero vbp).symm ▸ Fills.pure
  case cons s ss hi =>
    rw [map_cons, sum_cons] at h
    have h₁ := encodeSet_fills (m := m) (hv s mem_cons_self)
      (show vlp + s.need ≤ vbp by omega)
    have h₂ := hi (m := (encodeSet vlp vbp s m).mem)
      (fun s hs => hv s <| mem_cons_of_mem _ hs)
      (show vlp + s.need + (ss.map (·.need)).sum ≤ vbp + s.vneed by omega)
    have := h₁.bind (f := (encodeSets (vlp + s.need) · ss)) h₂ (by simp)
      (by rw [blocksBytes_length]; rfl) (by rw [setsBytes_length]; omega)
    rw [encodeSets, map_cons, sum_cons, Nat.cast_add, ← add_assoc]
    exact this

structure Image (r : PmResult) (m : Bytes) : Prop where
  len : Holds m 0 (le (r.need + r.vneed))
  sec : Holds m 12 (htonl r.sec)
  usec : Holds m 16 (htonl r.usec)
  numpmid : Holds m 20 (htonl r.vset.length)
  vset : Holds m 24 (setsBytes r.need r.vset)
  blocks : Holds m r.need (setsBlocks .network r.vset)

theorem ValueSet.need_aligned (s : ValueSet) : s.need % 4 = 0 := by
  unfold need
  split <;> omega

theorem PmResult.need_aligned (r : PmResult) : r.need % 4 = 0 := by
  have h (l : List ValueSet) : (l.map (·.need)).sum % 4 = 0 := by
    induction l
    case nil => rfl
    case cons s l hi =>
      have := s.need_aligned
      rw [map_cons, sum_cons]
      omega
  have := h r.vset
  unfold need
  omega

theorem encodeResult_image (hv : ∀ s ∈ r.vset, s.Fits) :
    Image r (encodeResult r m).mem := by
  have hn : (4 * (r.need / 4) : Int) = r.need := by
    have := r.need_aligned
    omega
  have hf {m} := encodeSets_fills (m := m) hv <|
    show (24 : Int) + (r.vset.map (·.need)).sum ≤ r.need by
      rw [PmResult.need]
      simp
  unfold encodeResult
  rw [hn]
  have hh : (24 : Int) ≤ r.need := by
    rw [PmResult.need]
    omega
  constructor
  case len =>
    refine hf.beside ?_ (by simp) (by simp; omega)
    exact .beside_write (.beside_write (.beside_write (.beside_write .write (by simp)) (by simp))
      (by simp)) (by simp)
  case sec =>
    refine hf.beside ?_ (by simp) (by simp; omega)
    exact .beside_write (.beside_write .write (by simp)) (by simp)
  case usec =>
    refine hf.beside ?_ (by simp) (by simp; omega)
    exact .beside_write .write (by simp)
  case numpmid => exact hf.beside .write (by simp) (by simp; omega)
  case vset => exact hf.left
  case blocks => exact hf.right

end PduResult
