import PcpModel.PduResult.Basic

-- What the checks of the first pass of the decoder ensure.
namespace PduResult

open Memory Memory.Prog CInt

theorem check_some [Decidable p] {x : Prog ω (Option α)}
    (h : ((if p then pure none else x) m).val = some a) : ¬p ∧ (x m).val = some a := by
  by_cases hp : p <;> simp_all

theorem check_eq [Decidable p] {x : Prog ω (Option α)} (h : ¬p) :
    (if p then pure none else x) m = x m := by
  simp [h]

theorem else_val [Decidable p] {y : Prog ω α} (h : ¬p)
    (he : ((if p then y else x) m).val = a) : (x m).val = a := by
  simpa [h] using he

def blockAddr (m : Bytes) (pduvp : Int) : Int :=
  4 * CInt.ofWord (be32 m (pduvp + 4))

def hdrLenOf (m : Bytes) : Int :=
  CInt.ofWord (le32 m 0)

theorem hdrLenOf_bounds (m : Bytes) : -2 ^ 31 ≤ hdrLenOf m ∧ hdrLenOf m ≤ intMax :=
  ofWord_bounds (le32_lt m 0)

structure ValueOk (len pduvp : Int) (m : Bytes) : Prop where
  room : 8 ≤ CInt.size (len - pduvp)
  nonneg : 0 ≤ blockAddr m pduvp
  index : blockAddr m pduvp ≤ 4 * hdrLenOf m
  header : 4 ≤ CInt.size (len - blockAddr m pduvp)
  vlen_ge : 4 ≤ vlen (Ntoh.valueBlock (blockAddr m pduvp) m).mem (blockAddr m pduvp)
  vlen_hdr : vlen (Ntoh.valueBlock (blockAddr m pduvp) m).mem (blockAddr m pduvp) ≤
    hdrLenOf (Ntoh.valueBlock (blockAddr m pduvp) m).mem
  vlen_room : vlen (Ntoh.valueBlock (blockAddr m pduvp) m).mem (blockAddr m pduvp) ≤
    CInt.size (len - blockAddr m pduvp)

def Sums.addBlock (s : Sums) (vb : Int) (n : Nat) : Sums :=
  { s with vsplit := min s.vsplit vb, vbsize := CInt.int (s.vbsize + pduSizeBytes n) }

theorem checkBlock_eq (hm : (Ntoh.valueBlock vb m).mem = m') (h₁ : 4 ≤ vlen m' vb)
    (h₂ : vlen m' vb ≤ hdrLenOf m') (h₃ : vlen m' vb ≤ size (len - vb)) :
    checkBlock len vb s m =
      ⟨some { s with vbsize := int (s.vbsize + pduSizeBytes (vlen m' vb)) }, m',
        (Ntoh.valueBlock vb m).log ++ [⟨vb, 4⟩, ⟨0, 4⟩]⟩ := by
  have hv : Ntoh.valueBlock vb m = ⟨(), m', (Ntoh.valueBlock vb m).log⟩ := by
    rw [← hm]
  have h₂ := not_or.mpr ⟨not_lt.mpr h₁, not_lt.mpr h₂⟩
  exact bind_eq hv <| bind_eq rfl <| bind_eq rfl <| (check_eq h₂).trans <|
    (check_eq <| not_lt.mpr h₃).trans rfl

theorem checkBlock_some (hm : (Ntoh.valueBlock vb m).mem = m')
    (h : (checkBlock len vb s m).val = some s') :
    4 ≤ vlen m' vb ∧ vlen m' vb ≤ hdrLenOf m' ∧ vlen m' vb ≤ size (len - vb) := by
  rw [checkBlock, Prog.bind_val, hm] at h
  obtain ⟨h₁, h⟩ := check_some h
  have h₂ := (check_some h).left
  have ⟨h₀, h₁⟩ := not_or.mp h₁
  exact ⟨not_lt.mp h₀, not_lt.mp h₁, not_lt.mp h₂⟩

def valueLog (m : Bytes) (pduvp : Int) : List Access :=
  let vb := blockAddr m pduvp
  [⟨pduvp + 4, 4⟩, ⟨0, 4⟩] ++ ((Ntoh.valueBlock vb m).log ++ [⟨vb, 4⟩, ⟨0, 4⟩])

theorem checkValue_eq (h : ValueOk len pduvp m) :
    let vb := blockAddr m pduvp
    let swaps := Ntoh.valueBlock vb m
    checkValue len pduvp s m = ⟨some (s.addBlock vb (vlen swaps.mem vb)), swaps.mem,
      valueLog m pduvp⟩ := by
  obtain ⟨h₁, h₂, h₃, h₄, h₅, h₆, h₇⟩ := h
  have h₁ : ¬8 > size (len - pduvp) := by omega
  have h₂ : ¬(ofWord (be32 m (pduvp + 4)) < 0 ∨
      ofWord (be32 m (pduvp + 4)) > hdrLenOf m) := by grind [blockAddr]
  refine Eq.trans ((check_eq h₁).trans <| bind_eq rfl <| bind_eq rfl <| (check_eq h₂).trans <|
    (check_eq <| not_lt.mpr h₄).trans <| checkBlock_eq rfl h₅ h₆ h₇) ?_
  rfl

theorem checkValue_some (h : (checkValue len pduvp s m).val = some s') :
    ValueOk len pduvp m := by
  obtain ⟨h₁, h⟩ := check_some h
  obtain ⟨h₂, h⟩ := check_some h
  obtain ⟨h₃, h⟩ := check_some h
  have h₂ : ¬(ofWord (be32 m (pduvp + 4)) < 0 ∨
      ofWord (be32 m (pduvp + 4)) > hdrLenOf m) := h₂
  have ⟨h₄, h₅, h₆⟩ := checkBlock_some rfl h
  exact {
    room := not_lt.mp h₁
    nonneg := by grind [blockAddr]
    index := by grind [blockAddr]
    header := not_lt.mp h₃
    vlen_ge := h₄
    vlen_hdr := h₅
    vlen_room := h₆ }

theorem checkValues_succ_eq (h : ValueOk len pduvp m) :
    let vb := blockAddr m pduvp
    let m' := (Ntoh.valueBlock vb m).mem
    let r := checkValues len n (pduvp + 8) (s.addBlock vb (vlen m' vb)) m'
    checkValues len (n + 1) pduvp s m = ⟨r.val, r.mem, valueLog m pduvp ++ r.log⟩ :=
  bind_eq (checkValue_eq h) rfl

theorem checkValues_succ_some (h : (checkValues len (n + 1) pduvp s m).val = some s') :
    ValueOk len pduvp m := by
  cases hs : (checkValue len pduvp s m).val
  case none =>
    simp only [checkValues, Prog.bind_val] at h
    rw [hs] at h
    simp at h
  case some => exact checkValue_some hs

section Set

variable (len : Int) (s : Sums) (m : Bytes)

def setNumval : Int :=
  CInt.ofWord (be32 m (24 + s.vsize + 4))

def setValfmt : Int :=
  CInt.ofWord (be32 m (24 + s.vsize + 8))

structure SetOk : Prop where
  room : 8 ≤ CInt.size (len - (24 + s.vsize))
  numval : setNumval s m ≤ hdrLenOf m
  values : 0 < setNumval s m →
    12 ≤ CInt.size (len - (24 + s.vsize)) ∧ setNumval s m < (CInt.intMax - 20) / 8

def Sums.addSet (numval : Int) : Sums :=
  if numval ≤ 0 then
    { s with vsize := CInt.int (s.vsize + 8), nvsize := CInt.int (s.nvsize + 32) }
  else
    { s with
      vsize := CInt.int (CInt.int (s.vsize + 8) + 4 + numval * 8)
      nvsize := CInt.int (CInt.int (s.nvsize + 32) + (numval - 1) * 16) }

def blockCount (numval valfmt : Int) : Nat :=
  if numval ≤ 0 ∨ valfmt = 0 then 0 else numval.toNat

def checkBlocks : Prog Access (Option Sums) :=
  checkValues len (blockCount (setNumval s m) (setValfmt s m)) (24 + s.vsize + 12)
    (s.addSet (setNumval s m))

def setLog : List Access :=
  [⟨24 + s.vsize + 4, 4⟩, ⟨24 + s.vsize + 8, 4⟩, ⟨0, 4⟩]

variable {len s m}

theorem checkTail_eq (h : 0 < setNumval s m →
      12 ≤ size (len - (24 + s.vsize)) ∧ setNumval s m < (intMax - 20) / 8) :
    (if setNumval s m ≤ 0 then
      pure (some { s with vsize := int (s.vsize + 8), nvsize := int (s.nvsize + 32) })
    else if 12 > size (len - (24 + s.vsize)) then pure none
    else if setNumval s m ≥ (intMax - 20) / 8 then pure none
    else if setValfmt s m = 0 then
      pure <| some { s with
        vsize := int (int (s.vsize + 8) + 4 + setNumval s m * 8)
        nvsize := int (int (s.nvsize + 32) + (setNumval s m - 1) * 16) }
    else
      checkValues len (setNumval s m).toNat (24 + s.vsize + 12) { s with
        vsize := int (int (s.vsize + 8) + 4 + setNumval s m * 8)
        nvsize := int (int (s.nvsize + 32) + (setNumval s m - 1) * 16) } :
      Prog Access (Option Sums)) = checkBlocks len s m := by
  by_cases h₀ : setNumval s m ≤ 0
  · simp [checkBlocks, blockCount, Sums.addSet, h₀, checkValues]
  have ⟨h₁, h₂⟩ := h (not_le.mp h₀)
  rw [if_neg (not_lt.mpr h₁), if_neg (not_le.mpr h₂)]
  by_cases hv : setValfmt s m = 0 <;>
  simp [checkBlocks, blockCount, Sums.addSet, h₀, hv, checkValues]

theorem checkSet_eq (h : SetOk len s m) :
    checkSet len s m = ⟨(checkBlocks len s m m).val, (checkBlocks len s m m).mem,
      setLog s ++ (checkBlocks len s m m).log⟩ := by
  obtain ⟨h₁, h₂, h₃⟩ := h
  have hb := congrArg (·.run m) <| checkTail_eq h₃
  refine Eq.trans ((check_eq <| not_lt.mpr h₁).trans <| bind_eq rfl <| bind_eq rfl <|
    bind_eq rfl <| (check_eq <| not_lt.mpr h₂).trans hb) ?_
  rfl

theorem checkSet_some (h : (checkSet len s m).val = some s') :
    SetOk len s m := by
  obtain ⟨h₁, h⟩ := check_some h
  obtain ⟨h₂, h⟩ := check_some h
  refine ⟨not_lt.mp h₁, not_lt.mp h₂, fun h₀ => ?_⟩
  obtain ⟨h₃, h⟩ := check_some <| else_val (not_le.mpr h₀) h
  obtain ⟨h₄, -⟩ := check_some h
  exact ⟨not_lt.mp h₃, not_le.mp h₄⟩

theorem checkSets_succ_eq (h : SetOk len s m) (hb : (checkBlocks len s m m).val = some s') :
    let r := checkSets len n s' (checkBlocks len s m m).mem
    checkSets len (n + 1) s m =
      ⟨r.val, r.mem, setLog s ++ (checkBlocks len s m m).log ++ r.log⟩ :=
  bind_eq (hb ▸ checkSet_eq h) rfl

theorem checkSets_succ_some (h : (checkSets len (n + 1) s m).val = some s'') :
    SetOk len s m ∧ ∃ s', (checkBlocks len s m m).val = some s' ∧
      let r := checkSets len n s' (checkBlocks len s m m).mem
      checkSets len (n + 1) s m =
        ⟨r.val, r.mem, setLog s ++ (checkBlocks len s m m).log ++ r.log⟩ := by
  cases hs : (checkSet len s m).val
  case none =>
    simp only [checkSets, Prog.bind_val] at h
    rw [hs] at h
    simp at h
  case some s' =>
    have ok := checkSet_some hs
    rw [checkSet_eq ok] at hs
    exact ⟨ok, s', hs, checkSets_succ_eq ok hs⟩

-- The bytes of a vlist in the PDU, and of a value set in the new buffer.
def setSize (numval : Int) : Int :=
  if numval ≤ 0 then 8 else 12 + 8 * numval

def newSize (numval : Int) : Int :=
  if numval ≤ 0 then 32 else 16 + 16 * numval

theorem addSet_vsize : (Sums.addSet s numval).vsize = int (s.vsize + setSize numval) := by
  unfold Sums.addSet setSize
  split
  · rfl
  · simp only [add_assoc, int_int_add]
    congr 1
    omega

theorem addSet_nvsize : (Sums.addSet s numval).nvsize = int (s.nvsize + newSize numval) := by
  unfold Sums.addSet newSize
  split
  · rfl
  · simp only [int_int_add]
    congr 1
    omega

theorem setSize_pos : 8 ≤ setSize numval := by
  unfold setSize
  split <;> omega

end Set

structure Sums.Ints (s : Sums) : Prop where
  nvsize : -2 ^ 31 ≤ s.nvsize ∧ s.nvsize ≤ CInt.intMax
  vsize : -2 ^ 31 ≤ s.vsize ∧ s.vsize ≤ CInt.intMax
  vbsize : -2 ^ 31 ≤ s.vbsize ∧ s.vbsize ≤ CInt.intMax

theorem Sums.Ints.addSet {s : Sums} (hs : s.Ints) : (s.addSet numval).Ints := by
  unfold Sums.addSet
  split <;> exact ⟨int_bounds _, int_bounds _, hs.vbsize⟩

theorem checkValues_ints (h : (checkValues len n pduvp s m).val = some s') (hs : s.Ints) :
    s'.Ints := by
  induction n generalizing pduvp s m
  case zero => exact Option.some.inj h ▸ hs
  case succ n hi =>
    rw [checkValues_succ_eq (checkValues_succ_some h)] at h
    exact hi h ⟨hs.nvsize, hs.vsize, int_bounds _⟩

theorem checkSets_ints (h : (checkSets len n s m).val = some s') (hs : s.Ints) : s'.Ints := by
  induction n generalizing s m
  case zero => exact Option.some.inj h ▸ hs
  case succ n hi =>
    obtain ⟨_, s₁, hb, he⟩ := checkSets_succ_some h
    rw [he] at h
    exact hi h <| checkValues_ints hb hs.addSet

section Header

variable (m : Bytes)

def numpmidOf : Int :=
  CInt.ofWord (be32 m 20)

structure HeaderOk : Prop where
  room : 24 ≤ CInt.size (hdrLenOf m)
  nonneg : 0 ≤ numpmidOf m
  le : numpmidOf m ≤ hdrLenOf m
  overflow : numpmidOf m < (CInt.intMax - 32) / 8

def decodeBody (newbuf : Bytes) : Prog Access (Option Decoded) :=
  decodeSets newbuf (hdrLenOf m) (numpmidOf m) (be32 m 12) (be32 m 16)

def checkAll : Prog Access (Option Sums) :=
  checkSets (hdrLenOf m) (numpmidOf m).toNat ⟨0, 0, 0, hdrLenOf m⟩

variable {m}

theorem decodeResult_eq (h : HeaderOk m) : decodeResult newbuf m =
    ⟨(decodeBody m newbuf m).val, (decodeBody m newbuf m).mem,
      [⟨0, 4⟩, ⟨20, 4⟩, ⟨12, 4⟩, ⟨16, 4⟩] ++ (decodeBody m newbuf m).log⟩ := by
  obtain ⟨h₁, h₂, h₃, h₄⟩ := h
  have h₂ := not_or.mpr ⟨not_lt.mpr h₂, not_lt.mpr h₃⟩
  refine Eq.trans (bind_eq rfl <| (check_eq <| not_lt.mpr h₁).trans <| bind_eq rfl <|
    (check_eq h₂).trans <| (check_eq <| not_le.mpr h₄).trans <| bind_eq rfl <| bind_eq rfl rfl) ?_
  rfl

theorem decodeResult_some (h : (decodeResult newbuf m).val = some d) : HeaderOk m := by
  obtain ⟨h₁, h⟩ := check_some h
  obtain ⟨h₂, h⟩ := check_some h
  obtain ⟨h₃, -⟩ := check_some h
  have ⟨h₂, h₄⟩ := not_or.mp h₂
  exact ⟨not_lt.mp h₁, not_lt.mp h₂, not_lt.mp h₄, not_le.mp h₃⟩

theorem decodeBody_eq (h : (checkAll m m).val = some s) :
    let r := decodeSums newbuf (hdrLenOf m) (numpmidOf m) (be32 m 12) (be32 m 16) s
      (checkAll m m).mem
    decodeBody m newbuf m = ⟨r.val, r.mem, (checkAll m m).log ++ r.log⟩ := by
  have hc : checkAll m m = ⟨some s, (checkAll m m).mem, (checkAll m m).log⟩ := by rw [← h]
  exact bind_eq hc rfl

theorem decodeBody_some (h : (decodeBody m newbuf m).val = some d) :
    ∃ s, (checkAll m m).val = some s := by
  cases hs : (checkAll m m).val
  case none =>
    rw [decodeBody, decodeSets, Prog.bind_val] at h
    change (checkSets _ _ _ m).val = none at hs
    rw [hs] at h
    simp at h
  case some s => exact ⟨s, rfl⟩

end Header

theorem be32_congr (h : ∀ i, a ≤ i → i < a + 4 → m' i = m i) : be32 m' a = be32 m a := by
  simp only [be32]
  rw [h a (by omega) (by omega), h (a + 1) (by omega) (by omega),
    h (a + 2) (by omega) (by omega), h (a + 3) (by omega) (by omega)]

@[simp]
theorem readValue_mem : (readValue offset valfmt vp m).mem = m := by
  unfold readValue
  by_cases h : valfmt = 0 <;> simp [h, ntohl]

@[simp]
theorem readValues_mem : (readValues offset valfmt n vp m).mem = m := by
  induction n generalizing vp
  case zero => rfl
  case succ n hi => simp [readValues, hi]

theorem readVlist_mem : (readVlist offset vsize pmid numval m).mem = m := by
  unfold readVlist
  by_cases h : numval ≤ 0 <;> simp [h, ntohl]

theorem readSet_eq : (readSet offset vsize m).val =
    (readVlist offset vsize (be32 m (24 + vsize)) (ofWord (be32 m (24 + vsize + 4))) m).val ∧
    (readSet offset vsize m).mem = m :=
  ⟨rfl, readVlist_mem⟩

theorem readVlist_vsize : (readVlist offset s.vsize pmid numval m).val.2 =
    (Sums.addSet s numval).vsize := by
  unfold Sums.addSet readVlist
  by_cases h : numval ≤ 0 <;> simp [h]

theorem readVlist_numval : (readVlist offset vsize pmid numval m).val.1.numval = numval := by
  unfold readVlist
  by_cases h : numval ≤ 0 <;> simp [h]

theorem readVlist_values
    (h : (readVlist offset vsize pmid numval m).val.1.valfmt = some valfmt) :
    0 < numval ∧ valfmt = ofWord (be32 m (24 + vsize + 8)) ∧
    (readVlist offset vsize pmid numval m).val.1.vlist =
      (readValues offset valfmt numval.toNat (24 + vsize + 12) m).val := by
  unfold readVlist at *
  by_cases hn : numval ≤ 0
  · simp [hn] at h
  · refine ⟨not_le.mp hn, ?_⟩
    simp [hn, ntohl] at *
    simp [h]

theorem readSets_cons (hm : ∀ i < 24 + s.vsize + 8, m' i = m i) :
    (readSets offset (n + 1) s.vsize m').val =
      (readVlist offset s.vsize (be32 m' (24 + s.vsize)) (setNumval s m) m').val.1 ::
      (readSets offset n (s.addSet (setNumval s m)).vsize m').val := by
  have hn : ofWord (be32 m' (24 + s.vsize + 4)) = setNumval s m := by
    rw [setNumval, be32_congr fun i _ _ => hm i (by omega)]
  simp only [readSets, Prog.bind_val, readSet_eq, hn, readVlist_vsize]
  rfl

theorem copyBlocks_mem : (copyBlocks newbuf s m).mem = m := by
  unfold copyBlocks
  by_cases h : s.vbsize = 0 <;> simp [h]

def decoded (newbuf : Bytes) (numpmid : Int) (sec usec : Nat) (s : Sums) (m : Bytes) : Decoded :=
  ⟨sec, usec, numpmid, s.nvsize, s.vbsize, (copyBlocks newbuf s m).val,
    (readSets (CInt.int (s.nvsize - s.vsize - 24)) numpmid.toNat 0 m).val⟩

theorem decodeSums_eq (h : s.Accepted len (hdrLenOf m)) :
    (decodeSums newbuf len numpmid sec usec s m).val =
      some (decoded newbuf numpmid sec usec s m) := by
  have he : decodeSums newbuf len numpmid sec usec s m = ⟨_, _, _⟩ :=
    bind_eq rfl <| (check_eq <| not_not.mpr h).trans <| bind_eq rfl <| bind_eq rfl rfl
  rw [he, copyBlocks_mem]
  rfl

theorem decodeResult_val (h : HeaderOk m) (hs : (checkAll m m).val = some s)
    (ha : s.Accepted (hdrLenOf m) (hdrLenOf (checkAll m m).mem)) :
    (decodeResult newbuf m).val =
      some (decoded newbuf (numpmidOf m) (be32 m 12) (be32 m 16) s (checkAll m m).mem) := by
  rw [decodeResult_eq h, decodeBody_eq hs, ← decodeSums_eq ha]

theorem decodeSums_some (h : (decodeSums newbuf len numpmid sec usec s m).val = some d) :
    s.Accepted len (hdrLenOf m) ∧ d = decoded newbuf numpmid sec usec s m := by
  have ha := not_not.mp (check_some h).left
  exact ⟨ha, Option.some.inj <| h.symm.trans (decodeSums_eq ha)⟩

end PduResult
