import PcpModel.PduResult.Check

-- Where the value sets and the blocks of a PDU are, by its bytes.
namespace PduResult

open Memory Memory.Prog List CInt

section Swaps

-- The length in the first word of a block or of an event parameter, which follows the type.
def netVlen (m : Bytes) (a : Int) : Nat :=
  0x10000 * (m (a + 1)).toNat + 0x100 * (m (a + 2)).toNat + (m (a + 3)).toNat

-- The address behind an event parameter, and the bytes after its swaps.
def nextParam (p : Int × Bytes) : Int × Bytes :=
  (p.1 + 4 + pduSizeBytes (netVlen p.2 (p.1 + 4)),
    rev (rev (rev p.2 p.1 4) (p.1 + 4) 4) (p.1 + 8) (paramWidth (p.2 (p.1 + 4))))

def ParamFits (len : Int) (p : Int × Bytes) : Prop :=
  p.1 + 8 + paramWidth (p.2 (p.1 + 4)) ≤ len

def nparams (p : Int × Bytes) : Nat :=
  if be32 p.2 (p.1 + 8) ≥ 0x80000000 then 0 else (CInt.ofWord (be32 p.2 (p.1 + 12))).toNat

def recordHead (p : Int × Bytes) : Int × Bytes :=
  (p.1 + 16, rev (rev (rev (rev p.2 p.1 4) (p.1 + 4) 4) (p.1 + 8) 4) (p.1 + 12) 4)

def nextRecord (p : Int × Bytes) : Int × Bytes :=
  nextParam^[nparams p] (recordHead p)

def RecordFits (len : Int) (p : Int × Bytes) : Prop :=
  p.1 + 16 ≤ len ∧ ∀ k < nparams p, ParamFits len (nextParam^[k] (recordHead p))

variable (vb : Int) (m : Bytes)

def nrecords : Nat :=
  (CInt.ofWord (be32 m (vb + 4))).toNat

def eventHead : Int × Bytes :=
  (vb + 8, rev (rev m vb 4) (vb + 4) 4)

def swapBlock : Bytes :=
  if m vb = PmType.event then (nextRecord^[nrecords vb m] (eventHead vb m)).2
  else rev (rev m vb 4) (vb + 4) (blockWidth (m vb))

-- The words of a block that are swapped by its type are in the PDU.
def BlockFits (len : Int) : Prop :=
  if m vb = PmType.event then
    vb + 8 ≤ len ∧ ∀ k < nrecords vb m, RecordFits len (nextRecord^[k] (eventHead vb m))
  else
    vb + 4 + blockWidth (m vb) ≤ len

instance : DecidablePred (ParamFits len) := fun _ => inferInstanceAs (Decidable (_ ≤ _))

instance : DecidablePred (RecordFits len) := fun _ => inferInstanceAs (Decidable (_ ∧ _))

instance : Decidable (BlockFits vb m len) := by
  unfold BlockFits
  infer_instance

variable {vb m}

theorem BlockFits.le (h : BlockFits vb m len) : vb + 4 ≤ len := by
  unfold BlockFits at h
  split at h <;> omega

section Rev

variable {a b i : Int} {n : Nat}

theorem rev_beside (h : i < a ∨ a + n ≤ i) : rev m a n i = m i :=
  if_neg (by omega)

theorem rev_zero : rev m a 0 = m := by
  funext i
  exact rev_beside (by omega)

theorem rev_four : rev m a 4 a = m (a + 3) ∧ rev m a 4 (a + 1) = m (a + 2) ∧
    rev m a 4 (a + 2) = m (a + 1) ∧ rev m a 4 (a + 3) = m a := by
  refine ⟨?_, ?_, ?_, ?_⟩
  all_goals
    rw [rev, if_pos (by omega)]
    congr 1
    omega

theorem vtype_rev : vtype (rev m a 4) a = m a :=
  rev_four.right.right.right

theorem vlen_rev : vlen (rev m a 4) a = netVlen m a := by
  simp only [vlen, netVlen, rev_four]

theorem le32_rev : le32 (rev m a 4) a = be32 m a := by
  simp only [le32, be32, rev_four]

theorem vlen_congr (h : ∀ i, a ≤ i → i < a + 4 → m' i = m i) : vlen m' a = vlen m a := by
  simp only [vlen]
  rw [h a (by omega) (by omega), h (a + 1) (by omega) (by omega), h (a + 2) (by omega) (by omega)]

variable (h : b + 4 ≤ a ∨ a + n ≤ b)
include h

theorem vlen_beside : vlen (rev m a n) b = vlen m b :=
  vlen_congr fun i _ _ => rev_beside (by omega)

theorem netVlen_beside : netVlen (rev m a n) b = netVlen m b := by
  simp only [netVlen]
  repeat rw [rev_beside (by omega)]

theorem le32_beside : le32 (rev m a n) b = le32 m b := by
  simp only [le32]
  repeat rw [rev_beside (by omega)]

theorem be32_beside : be32 (rev m a n) b = be32 m b :=
  be32_congr fun i _ _ => rev_beside (by omega)

end Rev

end Swaps

namespace Ntoh

variable {m : Bytes} {a vb : Int}

theorem swapValue_mem : (swapValue a n m).mem = rev m a n := by
  unfold swapValue
  split
  case isTrue h => rw [h, rev_zero, pure_mem]
  case isFalse => rfl

theorem logs_swapValue {len : Int} (ha : 0 ≤ a) (hl : a ≤ len) :
    Logs (·.Within len) (swapValue a n) m ↔ a + n ≤ len := by
  unfold swapValue
  split
  case isTrue h => simpa [h] using hl
  case isFalse => simp [Access.Within, ha]

theorem param_vtype : vtype (rev (rev m a 4) (a + 4) 4) (a + 4) = m (a + 4) := by
  rw [vtype_rev, rev_beside (by omega)]

theorem param_eq (a : Int) (m : Bytes) :
    nextParam (a, m) = ((param a m).val, (param a m).mem) := by
  have hl : vlen (rev (rev (rev m a 4) (a + 4) 4) (a + 8) (paramWidth (m (a + 4)))) (a + 4) =
      netVlen m (a + 4) := by
    rw [vlen_beside (by omega), vlen_rev, netVlen_beside (by omega)]
  simp [nextParam, param, loadVtype, loadVlen, swapValue_mem, param_vtype, hl]

theorem logs_param {len : Int} (a : Int) (m : Bytes) (ha : 0 ≤ a) :
    Logs (·.Within len) (param a) m ↔ ParamFits len (a, m) := by
  have hw : Logs (·.Within len) (param a) m ↔
      (0 ≤ a ∧ a + 4 ≤ len) ∧ (0 ≤ a + 4 ∧ a + 4 + 4 ≤ len) ∧
      Logs (·.Within len) (swapValue (a + 8) (paramWidth (m (a + 4))))
        (rev (rev m a 4) (a + 4) 4) := by
    simp only [param, loadVtype, loadVlen, logs_bind, logs_swap, logs_load, logs_pure,
      Access.Within, swap_apply, load_apply, param_vtype, and_true, Nat.cast_ofNat]
    tauto
  rw [hw, ParamFits]
  constructor
  case mp =>
    rintro ⟨-, h, hs⟩
    exact (logs_swapValue (by omega) (by omega)).mp hs
  case mpr =>
    intro h
    exact ⟨by omega, by omega, (logs_swapValue (by omega) (by omega)).mpr h⟩

theorem param_nonneg (a : Int) (m : Bytes) (ha : 0 ≤ a) : 0 ≤ (param a m).val := by
  have h : (nextParam (a, m)).1 = (param a m).val := by rw [param_eq]
  rw [← h, nextParam]
  omega

-- The flags and the number of parameters of a record, after the swaps of its head.
theorem record_words : le32 (recordHead (a, m)).2 (a + 8) = be32 m (a + 8) ∧
    le32 (recordHead (a, m)).2 (a + 12) = be32 m (a + 12) := by
  constructor
  · rw [recordHead, le32_beside (by omega), le32_rev, be32_beside (by omega),
      be32_beside (by omega)]
  · rw [recordHead, le32_rev, be32_beside (by omega), be32_beside (by omega),
      be32_beside (by omega)]

theorem record_apply : record a m =
    let r := walk param (nparams (a, m)) (a + 16) (recordHead (a, m)).2
    ⟨r.val, r.mem, [⟨a, 4⟩, ⟨a + 4, 4⟩, ⟨a + 8, 4⟩, ⟨a + 12, 4⟩, ⟨a + 8, 4⟩, ⟨a + 12, 4⟩] ++
      r.log⟩ := by
  have hn : nparams (a, m) = if (decide (le32 (recordHead (a, m)).2 (a + 8) ≥ 0x80000000)) = true
      then 0 else (ofWord (le32 (recordHead (a, m)).2 (a + 12))).toNat := by
    rw [record_words.left, record_words.right, nparams]
    simp only [decide_eq_true_eq]
  rw [hn]
  rfl

theorem record_eq (a : Int) (m : Bytes) :
    nextRecord (a, m) = ((record a m).val, (record a m).mem) := by
  rw [record_apply, nextRecord, recordHead, walk_next param_eq]

theorem logs_record {len : Int} (a : Int) (m : Bytes) (ha : 0 ≤ a) :
    Logs (·.Within len) (record a) m ↔ RecordFits len (a, m) := by
  have hw := logs_walk (P := (·.Within len)) (n := nparams (a, m)) (a := a + 16)
    (m := (recordHead (a, m)).2) param_eq logs_param param_nonneg (by omega)
  simp only [Logs] at hw ⊢
  rw [record_apply]
  simp only [mem_append, or_imp, forall_and, hw, RecordFits]
  refine and_congr ?_ .rfl
  simp [Access.Within]
  omega

theorem record_nonneg (a : Int) (m : Bytes) (ha : 0 ≤ a) : 0 ≤ (record a m).val := by
  have hw : ∀ n b m', 0 ≤ b → 0 ≤ (walk param n b m').val := by
    intro n
    induction n
    case zero => exact fun _ _ h => h
    case succ n hi => exact fun b m' h => hi _ _ (param_nonneg b m' h)
  rw [record_apply]
  exact hw _ _ _ (by omega)

theorem vbuf_event : vtype (rev m vb 4) vb = m vb :=
  vtype_rev

theorem nrecords_eq : (ofWord (le32 (eventHead vb m).2 (vb + 4))).toNat = nrecords vb m := by
  rw [eventHead, le32_rev, nrecords, be32_beside (by omega)]

theorem eventArray_apply : eventArray vb (rev m vb 4) =
    let r := walk record (nrecords vb m) (vb + 8) (eventHead vb m).2
    ⟨(), r.mem, [⟨vb + 4, 4⟩, ⟨vb + 4, 4⟩] ++ (r.log ++ [])⟩ := by
  rw [← nrecords_eq]
  rfl

theorem valueBlock_mem : (valueBlock vb m).mem = swapBlock vb m := by
  have hv : (valueBlock vb m).mem = (vbuf vb (m vb) (rev m vb 4)).mem := by
    rw [← vbuf_event (m := m)]
    rfl
  rw [hv, vbuf, swapBlock]
  split
  case isTrue => rw [eventArray_apply, eventHead, walk_next record_eq]
  case isFalse => exact swapValue_mem

theorem logs_valueBlock {len : Int} (h : 0 ≤ vb) :
    Logs (·.Within len) (valueBlock vb) m ↔ BlockFits vb m len := by
  have hv : Logs (·.Within len) (valueBlock vb) m ↔
      (0 ≤ vb ∧ vb + 4 ≤ len) ∧ Logs (·.Within len) (vbuf vb (m vb)) (rev m vb 4) := by
    rw [← vbuf_event (m := m)]
    simp only [valueBlock, logs_bind, logs_swap, logs_load, loadVtype, swap_apply, load_apply,
      Access.Within, Nat.cast_ofNat]
    tauto
  rw [hv, vbuf, BlockFits]
  split
  case isTrue =>
    have hw := logs_walk (P := (·.Within len)) (n := nrecords vb m) (a := vb + 8)
      (m := (eventHead vb m).2) record_eq logs_record record_nonneg (by omega)
    simp only [Logs] at hw ⊢
    rw [eventArray_apply]
    simp only [mem_append, or_imp, forall_and, hw, append_nil]
    rw [← and_assoc]
    refine and_congr ?_ .rfl
    simp [Access.Within]
    omega
  case isFalse =>
    constructor
    · rintro ⟨h, hs⟩
      exact (logs_swapValue (by omega) (by omega)).mp hs
    · intro hs
      exact ⟨by omega, (logs_swapValue (by omega) (by omega)).mpr hs⟩

end Ntoh

-- What the first pass looks at: a value set, by the size of those before it, and a block, with the
-- bytes as they are then.
inductive Item
  | vset (vsize numval : Int)
  | block (vb : Int) (m : Bytes)

structure Found where
  items : List Item
  result : Option (Sums × Bytes)

namespace Found

def corrupt : Found :=
  ⟨[], none⟩

def cons (i : Item) (f : Found) : Found :=
  { f with items := i :: f.items }

def bind (f : Found) (g : Sums → Bytes → Found) : Found :=
  match f.result with
  | none => f
  | some (s, m) => ⟨f.items ++ (g s m).items, (g s m).result⟩

end Found

section Find

variable (len : Int)

-- The block of a value is looked at. Where it starts behind the end, the number of bytes that are
-- left is taken for a large one.
def Refers (a : Int) (m : Bytes) : Prop :=
  a + 8 ≤ len ∧ 0 ≤ blockAddr m a ∧ blockAddr m a ≤ 4 * hdrLenOf m ∧
    (blockAddr m a + 4 ≤ len ∨ len < blockAddr m a)

def BlockOk (vb : Int) (m : Bytes) : Prop :=
  4 ≤ vlen m vb ∧ vlen m vb ≤ hdrLenOf m ∧ vb + vlen m vb ≤ len

def Starts (vsize : Int) : Prop :=
  24 + vsize + 8 ≤ len ∨ len < 24 + vsize

def SetPasses (s : Sums) (m : Bytes) : Prop :=
  setNumval s m ≤ hdrLenOf m ∧ (0 < setNumval s m →
    24 + s.vsize + 12 ≤ len ∧ setNumval s m < (CInt.intMax - 20) / 8)

instance : Decidable (Refers len a m) := inferInstanceAs (Decidable (_ ∧ _))
instance : Decidable (BlockOk len vb m) := inferInstanceAs (Decidable (_ ∧ _))
instance : Decidable (Starts len vsize) := inferInstanceAs (Decidable (_ ∨ _))
instance : Decidable (SetPasses len s m) := inferInstanceAs (Decidable (_ ∧ _))

def findValues : Nat → Int → Sums → Bytes → Found
  | 0, _, s, m => ⟨[], some (s, m)⟩
  | n + 1, a, s, m =>
    let vb := blockAddr m a
    let m' := swapBlock vb m
    if Refers len a m then
      .cons (.block vb m) <|
        if BlockOk len vb m' then findValues n (a + 8) (s.addBlock vb (vlen m' vb)) m'
        else .corrupt
    else
      .corrupt

def findBlocks (s : Sums) (m : Bytes) : Found :=
  findValues len (blockCount (setNumval s m) (setValfmt s m)) (24 + s.vsize + 12)
    (s.addSet (setNumval s m)) m

def findSets : Nat → Sums → Bytes → Found
  | 0, s, m => ⟨[], some (s, m)⟩
  | n + 1, s, m =>
    if Starts len s.vsize then
      .cons (.vset s.vsize (setNumval s m)) <|
        if SetPasses len s m then (findBlocks len s m).bind (findSets n) else .corrupt
    else
      .corrupt

end Find

-- The first pass over a PDU.
def findAll (m : Bytes) : Found :=
  findSets (hdrLenOf m) (numpmidOf m).toNat ⟨0, 0, 0, hdrLenOf m⟩ m

def Item.Inside (len : Int) : Item → Prop
  | vset v _ => -28 ≤ v ∧ 24 + v ≤ len
  | block vb _ => vb ≤ len

-- The decoder ends as the bytes say.
def Agrees (r : Outcome Access (Option Sums)) : Option (Sums × Bytes) → Prop
  | none => r.val = none
  | some (s, m) => r.val = some s ∧ r.mem = m

section

variable {len a : Int} {n : Nat} {s : Sums} {m : Bytes} (hu : len ≤ CInt.intMax)
include hu

theorem ValueOk.refers (h₀ : 0 ≤ a) (ha : a ≤ len) (h : ValueOk len a m) : Refers len a m := by
  obtain ⟨h₁, h₂, h₃, h₄, -⟩ := h
  simp only [intMax] at hu
  rw [size_eq (by omega) (by omega)] at h₁
  refine ⟨by omega, h₂, h₃, ?_⟩
  by_cases hb : blockAddr m a ≤ len
  · rw [size_eq (by omega) (by omega)] at h₄
    omega
  · omega

theorem valueOk_iff (h₀ : 0 ≤ a) (hr : Refers len a m) (hv : blockAddr m a ≤ len) :
    ValueOk len a m ↔ BlockOk len (blockAddr m a) (swapBlock (blockAddr m a) m) := by
  obtain ⟨h₁, h₂, h₃, h₄⟩ := hr
  simp only [intMax] at hu
  rw [BlockOk, ← Ntoh.valueBlock_mem]
  have hs : size (len - blockAddr m a) = len - blockAddr m a := size_eq (by omega) (by omega)
  constructor
  · intro h
    have := h.vlen_room
    exact ⟨h.vlen_ge, h.vlen_hdr, by omega⟩
  · rintro ⟨h₅, h₆, h₇⟩
    refine ⟨?_, h₂, h₃, by omega, h₅, h₆, by omega⟩
    rw [size_eq (by omega) (by omega)]
    omega

theorem setOk_iff (hv : -28 ≤ s.vsize) (hl : 24 + s.vsize ≤ len) :
    SetOk len s m ↔ Starts len s.vsize ∧ SetPasses len s m := by
  simp only [intMax] at hu
  have hs : size (len - (24 + s.vsize)) = len - (24 + s.vsize) := size_eq (by omega) (by omega)
  rw [Starts, SetPasses]
  constructor
  · rintro ⟨h₁, h₂, h₃⟩
    refine ⟨by omega, h₂, fun h => ⟨?_, (h₃ h).right⟩⟩
    have := (h₃ h).left
    omega
  · rintro ⟨h₁, h₂, h₃⟩
    refine ⟨by omega, h₂, fun h => ⟨?_, (h₃ h).right⟩⟩
    have := (h₃ h).left
    omega

theorem SetOk.starts (hs : s.Ints) (h : SetOk len s m) : Starts len s.vsize := by
  have hv := hs.vsize
  have h₁ := h.room
  simp only [intMax] at hu
  unfold Starts
  by_cases hl : 24 + s.vsize ≤ len
  · rw [size_eq (by omega) (by omega)] at h₁
    omega
  · omega

theorem checkValues_agrees (h₀ : 0 ≤ a) (ha : 0 < n → a ≤ len)
    (hi : ∀ i ∈ (findValues len n a s m).items, i.Inside len) :
    Agrees (checkValues len n a s m) (findValues len n a s m).result := by
  induction n generalizing a s m
  case zero => exact ⟨rfl, rfl⟩
  case succ n ih =>
    have ha := ha (Nat.succ_pos n)
    have hn (h : ¬ValueOk len a m) : (checkValues len (n + 1) a s m).val = none :=
      Option.eq_none_iff_forall_ne_some.mpr fun _ hs => h (checkValues_succ_some hs)
    rw [findValues] at hi ⊢
    split at hi
    case isFalse hr =>
      rw [if_neg hr]
      exact hn fun h => hr (h.refers hu h₀ ha)
    case isTrue hr =>
      rw [if_pos hr]
      obtain ⟨hv, hi⟩ := forall_mem_cons.mp hi
      have ok := valueOk_iff hu h₀ hr hv
      split at hi
      case isFalse hb =>
        rw [if_neg hb]
        exact hn fun h => hb (ok.mp h)
      case isTrue hb =>
        rw [if_pos hb, checkValues_succ_eq (ok.mpr hb), Ntoh.valueBlock_mem]
        exact ih (by omega) (fun _ => hr.left) hi

theorem checkBlocks_agrees (hv : -28 ≤ s.vsize) (hp : SetPasses len s m)
    (hi : ∀ i ∈ (findBlocks len s m).items, i.Inside len) :
    Agrees (checkBlocks len s m m) (findBlocks len s m).result := by
  refine checkValues_agrees hu (by omega) (fun h => ?_) hi
  unfold blockCount at h
  have := hp.right
  split at h <;> omega

theorem checkSets_agrees (hs : s.Ints) (hi : ∀ i ∈ (findSets len n s m).items, i.Inside len) :
    Agrees (checkSets len n s m) (findSets len n s m).result := by
  induction n generalizing s m
  case zero => exact ⟨rfl, rfl⟩
  case succ n ih =>
    have hn (h : ¬SetOk len s m) : (checkSets len (n + 1) s m).val = none :=
      Option.eq_none_iff_forall_ne_some.mpr fun _ hs => h (checkSets_succ_some hs).left
    rw [findSets] at hi ⊢
    split at hi
    case isFalse ht =>
      rw [if_neg ht]
      exact hn fun h => ht (h.starts hu hs)
    case isTrue ht =>
      rw [if_pos ht]
      obtain ⟨⟨hv, hl⟩, hi⟩ := forall_mem_cons.mp hi
      have ok := setOk_iff hu (m := m) hv hl
      split at hi
      case isFalse hp =>
        rw [if_neg hp]
        exact hn fun h => hp (ok.mp h).right
      case isTrue hp =>
        rw [if_pos hp]
        have hb : ∀ i ∈ (findBlocks len s m).items, i.Inside len := by
          intro i hm
          refine hi i ?_
          unfold Found.bind
          split
          · exact hm
          · exact mem_append_left _ hm
        have hag := checkBlocks_agrees hu hv hp hb
        rw [Found.cons, Found.bind] at *
        split
        case h_1 he =>
          rw [he] at hag ⊢
          refine Option.eq_none_iff_forall_ne_some.mpr fun _ hs => ?_
          obtain ⟨-, s', hb', -⟩ := checkSets_succ_some hs
          exact absurd (hb'.symm.trans hag) nofun
        case h_2 s' m' he =>
          rw [he] at hag hi
          have hx := checkSets_succ_eq (n := n) (ok.mpr ⟨ht, hp⟩) hag.left
          rw [hx, hag.right]
          exact ih (checkValues_ints hag.left hs.addSet) fun i hm => hi i (mem_append_right _ hm)

end

end PduResult
