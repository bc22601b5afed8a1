import PcpModel.PduResult.Layout

-- Which PDUs the decoder of results reads and changes without going beyond their end.
namespace PduResult

open Memory Memory.Prog List CInt

-- The words of a value set that the first pass reads are `numval` and `valfmt`.
def Item.Fits (len : Int) : Item → Prop
  | vset v _ => -28 ≤ v ∧ 24 + v + 12 ≤ len
  | block vb m => BlockFits vb m len

instance : ∀ i : Item, Decidable (i.Fits len)
  | .vset _ _ => inferInstanceAs (Decidable (_ ∧ _))
  | .block vb m => inferInstanceAs (Decidable (BlockFits vb m len))

theorem Item.Fits.inside {i : Item} (h : i.Fits len) : i.Inside len := by
  cases i
  case vset => exact ⟨h.left, by have := h.right; omega⟩
  case block => exact le_trans (by omega) (BlockFits.le h)

section Lists

variable (m : Bytes) (len vsize : Int)

def numvalAt : Int :=
  CInt.ofWord (be32 m (24 + vsize + 4))

def nextVsize : Int :=
  CInt.int (vsize + setSize (numvalAt m vsize))

def ListFits : Prop :=
  0 ≤ 24 + vsize ∧ 24 + vsize + setSize (numvalAt m vsize) ≤ len

instance : Decidable (ListFits m len vsize) :=
  inferInstanceAs (Decidable (_ ∧ _))

end Lists

-- What is looked at in the first pass fits, and so do the lists of a PDU that is accepted.
structure Contained (m : Bytes) : Prop where
  items : ∀ i ∈ (findAll m).items, i.Fits (hdrLenOf m)
  lists : ∀ r ∈ (findAll m).result, r.1.Accepted (hdrLenOf m) (hdrLenOf r.2) →
    ∀ k < (numpmidOf m).toNat, ListFits r.2 (hdrLenOf m) ((nextVsize r.2)^[k] 0)

instance : Decidable (Contained m) :=
  decidable_of_iff ((∀ i ∈ (findAll m).items, i.Fits (hdrLenOf m)) ∧
      ∀ r ∈ (findAll m).result, r.1.Accepted (hdrLenOf m) (hdrLenOf r.2) →
        ∀ k < (numpmidOf m).toNat, ListFits r.2 (hdrLenOf m) ((nextVsize r.2)^[k] 0))
    ⟨fun h => ⟨h.left, h.right⟩, fun h => ⟨h.items, h.lists⟩⟩

theorem logs_check [Decidable p] {x : Prog ω α} :
    Logs P (if p then pure a else x) m ↔ (¬p → Logs P x m) := by
  by_cases hp : p <;> simp [hp]

section

variable {len a vb : Int} {n : Nat} {s : Sums} {m : Bytes}

theorem checkValue_none (h : ¬ValueOk len a m) : (checkValue len a s m).val = none :=
  Option.eq_none_iff_forall_ne_some.mpr fun _ hs => h (checkValue_some hs)

theorem checkSet_none (h : ¬SetOk len s m) : (checkSet len s m).val = none :=
  Option.eq_none_iff_forall_ne_some.mpr fun _ hs => h (checkSet_some hs)

theorem logs_checkBlocks {P : Access → Prop} : Logs P (checkBlocks len s m) m ↔
    (0 < setNumval s m → setValfmt s m ≠ 0 → Logs P (checkValues len (setNumval s m).toNat
      (24 + s.vsize + 12) (s.addSet (setNumval s m))) m) := by
  unfold checkBlocks blockCount
  by_cases h : setNumval s m ≤ 0 ∨ setValfmt s m = 0
  case pos =>
    rw [if_pos h]
    refine iff_of_true logs_pure fun h₀ hv => absurd h ?_
    exact not_or.mpr ⟨not_le.mpr h₀, hv⟩
  case neg =>
    rw [if_neg h, imp_iff_right (not_le.mp (not_or.mp h).left), imp_iff_right (not_or.mp h).right]

variable (hl : 24 ≤ len) (hu : len ≤ CInt.intMax)
include hl

theorem within_header {b : Int} (h₀ : 0 ≤ b) (h : b ≤ 20) : Access.Within ⟨b, 4⟩ len :=
  ⟨h₀, by simp only [Nat.cast_ofNat]; omega⟩

theorem logs_checkBlock (h : 0 ≤ vb) :
    Logs (·.Within len) (checkBlock len vb s) m ↔ BlockFits vb m len := by
  simp only [checkBlock, logs_bind, logs_check, loadVlen, hdrLen, loadInt, logs_load, logs_pure,
    implies_true, and_true]
  rw [Ntoh.logs_valueBlock h]
  exact and_iff_left_of_imp fun hb => ⟨⟨h, hb.le⟩, within_header hl le_rfl (by simp)⟩

include hu

theorem logs_checkValue (h₀ : 0 ≤ a) (ha : a ≤ len) :
    Logs (·.Within len) (checkValue len a s) m ↔
      (Refers len a m → BlockFits (blockAddr m a) m len) := by
  simp only [intMax] at hu
  have hw := within_header hl le_rfl (by simp)
  have hs : size (len - a) = len - a := size_eq (by omega) (by omega)
  simp only [checkValue, logs_check, logs_bind, ntohl, logs_load, hdrLen, loadInt, hw,
    true_and, hs]
  let index := ofWord (be32 m (a + 4))
  have hb : blockAddr m a = 4 * index := rfl
  have hi : -2 ^ 31 ≤ index ∧ index ≤ intMax := ofWord_bounds (be32_lt m (a + 4))
  simp only [intMax] at hi
  change (_ → _ ∧ (¬(index < 0 ∨ index > hdrLenOf m) → ¬4 > size (len - blockAddr m a) →
    Logs _ (checkBlock len (blockAddr m a) _) m)) ↔ _
  constructor
  · rintro h ⟨h₁, h₂, h₃, h₄⟩
    refine (logs_checkBlock hl h₂).mp ((h (by omega)).right (by omega) ?_)
    rw [size]
    omega
  · intro h h₁
    refine ⟨⟨by simp only; omega, by simp only [Nat.cast_ofNat]; omega⟩, fun h₂ h₃ => ?_⟩
    have h₂ : 0 ≤ blockAddr m a ∧ blockAddr m a ≤ 4 * hdrLenOf m := by omega
    refine (logs_checkBlock hl h₂.left).mpr (h ⟨by omega, h₂.left, h₂.right, ?_⟩)
    rw [size] at h₃
    omega

theorem logs_checkValues (h₀ : 0 ≤ a) (ha : 0 < n → a ≤ len) :
    Logs (·.Within len) (checkValues len n a s) m ↔
      ∀ i ∈ (findValues len n a s m).items, i.Fits len := by
  induction n generalizing a s m
  case zero => simp [checkValues, findValues]
  case succ n ih =>
    have ha := ha (Nat.succ_pos n)
    rw [checkValues, logs_bind, logs_checkValue hl hu h₀ ha, findValues]
    by_cases hr : Refers len a m
    case neg =>
      rw [checkValue_none fun h => hr (h.refers hu h₀ ha), if_neg hr]
      exact iff_of_true ⟨fun h => absurd h hr, logs_pure⟩ (forall_mem_nil _)
    case pos =>
      rw [imp_iff_right hr, if_pos hr, Found.cons, forall_mem_cons]
      refine and_congr_right fun hf => ?_
      have ok := valueOk_iff hu h₀ hr (by have := hf.le; omega)
      by_cases hb : BlockOk len (blockAddr m a) (swapBlock (blockAddr m a) m)
      case neg =>
        rw [checkValue_none fun h => hb (ok.mp h), if_neg hb]
        exact iff_of_true logs_pure (forall_mem_nil _)
      case pos =>
        rw [checkValue_eq (ok.mpr hb), if_pos hb, Ntoh.valueBlock_mem]
        exact ih (by omega) fun _ => hr.left

theorem logs_checkSet (hs : s.Ints) : Logs (·.Within len) (checkSet len s) m ↔
    (Starts len s.vsize → (-28 ≤ s.vsize ∧ 24 + s.vsize + 12 ≤ len) ∧
      (SetPasses len s m → Logs (·.Within len) (checkBlocks len s m) m)) := by
  have hv := hs.vsize
  simp only [intMax] at hu hv
  have hw := within_header hl le_rfl (by simp)
  simp only [checkSet, logs_check, logs_bind, ntohl, logs_load, hdrLen, loadInt, hw,
    true_and]
  have hadd : 0 < setNumval s m → s.addSet (setNumval s m) = { s with
      vsize := int (int (s.vsize + 8) + 4 + setNumval s m * 8)
      nvsize := int (int (s.nvsize + 32) + (setNumval s m - 1) * 16) } :=
    fun h => if_neg (not_le.mpr h)
  change (_ → _ ∧ _ ∧ (¬setNumval s m > hdrLenOf m → ¬setNumval s m ≤ 0 → _ →
    ¬setNumval s m ≥ _ → ¬setValfmt s m = 0 → Logs _ (checkValues len (setNumval s m).toNat
      (24 + s.vsize + 12) { s with
        vsize := int (int (s.vsize + 8) + 4 + setNumval s m * 8)
        nvsize := int (int (s.nvsize + 32) + (setNumval s m - 1) * 16) }) m)) ↔ _
  rw [logs_checkBlocks]
  simp only [Access.Within, Nat.cast_ofNat, Starts, SetPasses]
  constructor
  · intro h ht
    obtain ⟨h₁, h₂, h⟩ := h (by rw [size]; omega)
    refine ⟨by omega, fun hp h₀ hv => hadd h₀ ▸ h (not_lt.mpr hp.left) (not_le.mpr h₀) ?_ ?_ hv⟩
    · have := (hp.right h₀).left
      rw [size]
      omega
    · exact not_le.mpr (hp.right h₀).right
  · intro h ht
    rw [size] at ht
    obtain ⟨h₁, h⟩ := h (by omega)
    refine ⟨by omega, by omega, fun h₃ h₀ h₄ h₅ hv => ?_⟩
    exact hadd (by omega) ▸ h ⟨by omega, fun _ => ⟨by omega, by omega⟩⟩ (by omega) hv

theorem logs_checkSets (hs : s.Ints) : Logs (·.Within len) (checkSets len n s) m ↔
    ∀ i ∈ (findSets len n s m).items, i.Fits len := by
  induction n generalizing s m
  case zero => simp [checkSets, findSets]
  case succ n ih =>
    rw [checkSets, logs_bind, logs_checkSet hl hu hs, findSets]
    by_cases ht : Starts len s.vsize
    case neg =>
      rw [checkSet_none fun h => ht (h.starts hu hs), if_neg ht]
      exact iff_of_true ⟨fun h => absurd h ht, logs_pure⟩ (forall_mem_nil _)
    case pos =>
      rw [imp_iff_right ht, if_pos ht, Found.cons, forall_mem_cons, and_assoc]
      refine and_congr_right fun hv => ?_
      obtain ⟨h₁, h₂⟩ := hv
      have ok := setOk_iff (m := m) hu h₁ (by omega)
      by_cases hp : SetPasses len s m
      case neg =>
        rw [checkSet_none fun h => hp (ok.mp h).right, if_neg hp]
        exact iff_of_true ⟨fun h => absurd h hp, logs_pure⟩ (forall_mem_nil _)
      case pos =>
        rw [imp_iff_right hp, if_pos hp, checkSet_eq (ok.mpr ⟨ht, hp⟩), Found.bind]
        have hb : Logs (·.Within len) (checkBlocks len s m) m ↔
            ∀ i ∈ (findBlocks len s m).items, i.Fits len :=
          logs_checkValues hl hu (by omega) fun _ => h₂
        have hag (h : ∀ i ∈ (findBlocks len s m).items, i.Fits len) :=
          checkBlocks_agrees hu h₁ hp fun i hm => (h i hm).inside
        cases hf : (findBlocks len s m).result
        case none =>
          simp only [hf, Agrees] at hag ⊢
          rw [hb, and_iff_left_of_imp fun h => ?_]
          rw [hag h]
          exact logs_pure
        case some r =>
          simp only [hf, Agrees] at hag ⊢
          rw [hb, forall_mem_append]
          refine and_congr_right fun h => ?_
          rw [(hag h).left, (hag h).right]
          exact ih (checkValues_ints (hag h).left hs.addSet)

end

section Read

variable {len vp vsize : Int} {m : Bytes}

theorem logs_readValue : Logs (·.Within len) (readValue offset valfmt vp) m ↔
    0 ≤ vp ∧ vp + 8 ≤ len := by
  have hr : (readValue offset valfmt vp m).log = [⟨vp, 4⟩, ⟨vp + 4, 4⟩] := by
    unfold readValue
    by_cases h : valfmt = 0 <;> simp [h, ntohl]
  simp only [Logs, hr, forall_mem_cons, not_mem_nil, false_implies, implies_true, and_true,
    Access.Within, Nat.cast_ofNat]
  omega

theorem logs_readValues : Logs (·.Within len) (readValues offset valfmt n vp) m ↔
    n = 0 ∨ 0 ≤ vp ∧ vp + 8 * n ≤ len := by
  induction n generalizing vp
  case zero => simp [readValues]
  case succ n hi =>
    simp only [readValues, logs_bind, readValue_mem, logs_readValue, hi, logs_pure, and_true]
    omega

theorem logs_readVlist : Logs (·.Within len) (readVlist offset vsize pmid numval) m ↔
    (0 < numval → 0 ≤ 24 + vsize + 8 ∧ 24 + vsize + setSize numval ≤ len) := by
  simp only [readVlist, logs_check, logs_bind, ntohl, logs_load, load_apply, logs_readValues,
    logs_pure, and_true]
  simp only [Access.Within, Nat.cast_ofNat, setSize]
  split <;> omega

theorem logs_readSet : Logs (·.Within len) (readSet offset vsize) m ↔ ListFits m len vsize := by
  simp only [readSet, logs_bind, ntohl, logs_load, load_apply, logs_readVlist, ListFits]
  change _ ∧ _ ∧ (0 < numvalAt m vsize → _ ∧ _ + _ + setSize (numvalAt m vsize) ≤ _) ↔ _
  simp only [Access.Within, Nat.cast_ofNat, setSize]
  split <;> omega

theorem readSet_next (offset : Int) : (readSet offset vsize m).val.2 = nextVsize m vsize :=
  (readVlist_vsize (s := ⟨0, vsize, 0, 0⟩)).trans addSet_vsize

theorem logs_readSets : Logs (·.Within len) (readSets offset n vsize) m ↔
    ∀ k < n, ListFits m len ((nextVsize m)^[k] vsize) := by
  induction n generalizing vsize
  case zero => simp [readSets]
  case succ n hi =>
    simp only [readSets, logs_bind, logs_readSet, readSet_eq, logs_pure, and_true]
    rw [Nat.forall_lt_succ_left]
    simp only [Function.iterate_zero, id_eq, Function.iterate_succ_apply, ← hi]
    rw [← readSet_next offset, readSet_eq.left]

end Read

section Sums

variable {len : Int} {s : Sums} {m : Bytes}

theorem Sums.Accepted.logs_copyBlocks (h : s.Accepted len hlen) (hs : s.Ints) :
    Logs (·.Within len) (copyBlocks newbuf s) m := by
  refine logs_check.mpr fun _ => logs_load.mpr ?_
  obtain ⟨_, hv, hb⟩ := hs
  obtain ⟨_, hvs, hbs, _, hn⟩ := h
  rw [size] at hvs hbs
  simp only [intMax] at *
  rw [int_eq (n := 24 + s.vsize) (by omega) (by simp [intMax]; omega),
    int_eq (by omega) (by simp [intMax]; omega)] at hn
  simp only [Access.Within]
  omega

theorem logs_decodeSums (hl : 24 ≤ len) (hs : s.Ints) :
    Logs (·.Within len) (decodeSums newbuf len numpmid sec usec s) m ↔
      (s.Accepted len (hdrLenOf m) →
        ∀ k < numpmid.toNat, ListFits m len ((nextVsize m)^[k] 0)) := by
  have hw := within_header hl le_rfl (by simp)
  simp only [decodeSums, logs_bind, logs_check, hdrLen, loadInt, logs_load, hw, true_and,
    not_not, logs_pure, and_true]
  refine imp_congr_right fun h => ?_
  rw [and_iff_right (h.logs_copyBlocks hs), copyBlocks_mem]
  exact logs_readSets

end Sums

theorem logs_decodeBody (hl : 24 ≤ hdrLenOf m) :
    Logs (·.Within (hdrLenOf m)) (decodeBody m newbuf) m ↔ Contained m := by
  have hu := (hdrLenOf_bounds m).right
  have hz : (⟨0, 0, 0, hdrLenOf m⟩ : Sums).Ints := by constructor <;> simp [intMax]
  have hw : Logs (·.Within (hdrLenOf m)) (checkAll m) m ↔
      ∀ i ∈ (findAll m).items, i.Fits (hdrLenOf m) := logs_checkSets hl hu hz
  have hag (h : ∀ i ∈ (findAll m).items, i.Fits (hdrLenOf m)) :
      Agrees (checkAll m m) (findAll m).result :=
    checkSets_agrees hu hz fun i hi => (h i hi).inside
  change Logs _ (checkAll m >>= _) m ↔ _
  rw [logs_bind, hw]
  cases hf : (findAll m).result
  case none =>
    simp only [hf, Agrees] at hag
    constructor
    · exact fun h => ⟨h.left, by simp [hf]⟩
    · intro h
      refine ⟨h.items, ?_⟩
      rw [hag h.items]
      exact logs_pure
  case some r =>
    simp only [hf, Agrees] at hag
    have hi (h : ∀ i ∈ (findAll m).items, i.Fits (hdrLenOf m)) : r.1.Ints :=
      checkSets_ints (hag h).left hz
    constructor
    · rintro ⟨h, hs⟩
      rw [(hag h).left, (hag h).right] at hs
      refine ⟨h, fun r' hr => ?_⟩
      obtain rfl := Option.some.inj (hf.symm.trans hr)
      exact (logs_decodeSums hl (hi h)).mp hs
    · intro h
      refine ⟨h.items, ?_⟩
      rw [(hag h.items).left, (hag h.items).right]
      exact (logs_decodeSums hl (hi h.items)).mpr (h.lists r hf)

-- No access of the decoder leaves the PDU exactly if what its bytes refer to is in it.
theorem decodeResult_within_iff (newbuf : Bytes) (m : Bytes) (h : 12 ≤ hdrLenOf m) :
    (∀ a ∈ (decodeResult newbuf m).log, a.Within (hdrLenOf m)) ↔ (HeaderOk m → Contained m) := by
  have hu := (hdrLenOf_bounds m).right
  simp only [intMax] at hu
  have hs : size (hdrLenOf m) = hdrLenOf m := size_eq (by omega) (by omega)
  change Logs (·.Within (hdrLenOf m)) (decodeResult newbuf) m ↔ _
  constructor
  · intro hw ok
    have hl := ok.room
    rw [Logs, decodeResult_eq ok] at hw
    exact (logs_decodeBody (by omega)).mp fun a ha => hw a (mem_append_right _ ha)
  · intro hc
    simp only [decodeResult, logs_bind, logs_check, hdrLen, loadInt, ntohl, logs_load]
    refine ⟨⟨le_rfl, by simp only [Nat.cast_ofNat]; omega⟩, fun h₁ => ?_⟩
    have hl : 24 ≤ hdrLenOf m := hs ▸ not_lt.mp h₁
    have hw {b : Int} := @within_header _ hl b
    refine ⟨hw (by simp) le_rfl, fun h₂ h₃ => ⟨hw (by simp) (by simp), hw (by simp) (by simp), ?_⟩⟩
    obtain ⟨h₂, h₄⟩ := not_or.mp h₂
    exact (logs_decodeBody hl).mpr
      (hc ⟨not_lt.mp h₁, not_lt.mp h₂, not_lt.mp h₄, not_le.mp h₃⟩)

def insituPdu : Bytes :=
  write (fun _ => 0) 0 <| le 44 ++ le 0x7001 ++ le 0 ++ be 1 ++ be 0 ++ be 1 ++
    be 60 ++ be 1 ++ be 0 ++ be 7 ++ be 42

theorem decodeResult_within_iff_insitu :
    12 ≤ hdrLenOf insituPdu ∧ ∀ a ∈ (decodeResult (fun _ => 0) insituPdu).log,
      a.Within (hdrLenOf insituPdu) := by
  have hc : Contained insituPdu := by decide +kernel
  exact ⟨by decide +kernel, (decodeResult_within_iff _ _ (by decide +kernel)).mpr fun _ => hc⟩

def emptyPdu : Bytes :=
  write (fun _ => 0) 0 <| le 32 ++ le 0x7001 ++ le 0 ++ be 1 ++ be 0 ++ be 1 ++ be 60 ++ be 0

-- The decoder accepts the PDU, but reads the word behind it.
theorem decodeResult_reads_behind :
    hdrLenOf emptyPdu = 32 ∧ (decodeResult (fun _ => 0) emptyPdu).val.isSome ∧
    ¬∀ a ∈ (decodeResult (fun _ => 0) emptyPdu).log, a.Within 32 := by
  decide +kernel

end PduResult
