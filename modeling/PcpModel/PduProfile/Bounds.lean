import Mathlib.Tactic.Positivity
import PcpModel.PduProfile.Basic
import PcpModel.PduResult.Check

-- Which PDUs the decoder of profiles reads without going beyond their end.
namespace PduProfile

open Memory Decoder Pcp
open PduResult (hdrLenOf hdrLenOf_bounds)

variable {m : Bytes} {len : Int}

def headAt (m : Bytes) (p : Int) : Head where
  indom := .ofNat (be32 m p)
  state := .ofInt (CInt.ofWord (be32 m (p + 4)))
  numinst := CInt.ofWord (be32 m (p + 8))

def instanceAt (m : Bytes) (p : Int) : Int32 :=
  .ofInt (CInt.ofWord (be32 m p))

theorem decodeHead_val (h : p < len) :
    (decodeHead len p m).val = .ok (headAt m p, p + (16 : Nat)) := by
  rw [decodeHead, require_bind_val h]
  rfl

theorem decodeHead_error (h : p ≥ len) : ∃ e, (decodeHead len p m).val = .error e :=
  ⟨_, by rw [decodeHead, require_bind_val_not (not_lt.mpr h)]⟩

theorem decodeHead_logs (h : 0 ≤ p) : Logs (·.Within len) (decodeHead len p) m ↔
    (p < len → p + 12 ≤ len) := by
  simp only [decodeHead, ntohl, logs_require_bind, logs_read_bind, logs_pure, Access.Within,
    and_true]
  omega

theorem decodeInstance_val (h : p < len) :
    (decodeInstance len p m).val = .ok (instanceAt m p, p + (4 : Nat)) := by
  rw [decodeInstance, require_bind_val h]
  rfl

theorem decodeInstance_error (h : p ≥ len) : ∃ e, (decodeInstance len p m).val = .error e :=
  ⟨_, by rw [decodeInstance, require_bind_val_not (not_lt.mpr h)]⟩

theorem decodeInstance_logs (h : 0 ≤ p) : Logs (·.Within len) (decodeInstance len p) m ↔
    (p < len → p + 4 ≤ len) := by
  simp only [decodeInstance, ntohl, logs_require_bind, logs_read_bind, logs_pure, Access.Within,
    and_true]
  omega

-- No record that starts before the end is cut by it.
def Whole (len p : Int) (size used n : Nat) : Prop :=
  ∀ k < n, p + size * k < len → p + size * k + used ≤ len

theorem Whole.logs {step : Int → Decoder Access Int (α × Int)} {size used : Nat} {g : Int → α}
    (hs : ∀ a < len, (step a m).val = .ok (g a, a + size))
    (he : ∀ a ≥ len, ∃ e, (step a m).val = .error e)
    (hl : ∀ a ≥ 0, Logs (·.Within len) (step a) m ↔ (a < len → a + used ≤ len)) (hp : 0 ≤ p) :
    Logs (·.Within len) (records step n p) m ↔ Whole len p size used n := by
  simp only [logs_records, Option.mem_def, reach_sized hs he, and_imp]
  have hk₀ (k : Nat) : 0 ≤ p + size * k := by positivity
  constructor
  case mp =>
    intro h k hk hlt
    -- The records before one that starts before the end start before the end, too.
    have hj : ∀ j < k, p + size * j < len := by
      intro j hj
      have : (size * j : Int) ≤ size * k := by gcongr
      omega
    exact (hl _ (hk₀ k)).mp (h k hk _ rfl hj) hlt
  case mpr =>
    rintro h k hk _ rfl -
    exact (hl _ (hk₀ k)).mpr (h k hk)

theorem Whole.of_le (h : len ≤ p) : Whole len p size used n := by
  intro k _ hlt
  have : (0 : Int) ≤ size * k := by positivity
  omega

-- Records that follow others are reached only if those all start before the end.
theorem Whole.add : Whole len p size used (a + b) ↔
    Whole len p size used a ∧
      ((∀ k < a, p + size * k < len) → Whole len (p + size * a) size used b) := by
  have hk (k : Nat) : p + size * a + size * k = p + size * (a + k : Nat) := by
    push_cast
    ring
  constructor
  case mp =>
    intro h
    refine ⟨fun k hk => h k (by omega), fun _ k hb => ?_⟩
    rw [hk]
    exact h (a + k) (by omega)
  case mpr =>
    intro ⟨h, hb⟩ k hab hlt
    by_cases ha : k < a
    case pos => exact h k ha hlt
    case neg =>
      obtain ⟨j, rfl⟩ := Nat.exists_eq_add_of_le (not_lt.mp ha)
      refine hk j ▸ hb (fun i hi => ?_) j (by omega) (hk j ▸ hlt)
      have : (size * i : Int) ≤ size * (a + j : Nat) := by gcongr; omega
      omega

def Head.Valid (len : Int) (h : Head) : Prop :=
  0 ≤ h.numinst ∧ h.numinst < limitInstances ∧ h.numinst < len

instance : Decidable (Head.Valid len h) :=
  inferInstanceAs (Decidable (_ ∧ _))

-- The number of instances of the entries that come before the first invalid one.
def words (len : Int) : List Head → Nat
  | [] => 0
  | h :: hs => if h.Valid len then h.numinst.toNat + words len hs else 0

theorem decodeList_val {h : Head} (hv : h.Valid len)
    (hs : ∀ k < h.numinst.toNat, p + (4 : Nat) * k < len) : ∃ l,
    (decodeList len h.numinst p m).val = .ok (l, p + (4 : Nat) * (h.numinst.toNat : Nat)) := by
  by_cases h₀ : h.numinst > 0
  case pos =>
    have hr := records_sized (fun _ => decodeInstance_val) hs (m := m)
    exact ⟨_, by rw [decodeList, if_pos h₀, require_bind_val hv.right, bind_val_ok hr, pure_val]⟩
  case neg =>
    rw [decodeList, if_neg h₀, require_bind_val hv.left]
    simp [Int.toNat_eq_zero.mpr (not_lt.mp h₀)]

theorem decodeList_invalid {h : Head} (hl : 0 < len) (hv : ¬h.Valid len) :
    (decodeList len h.numinst p m).val = .error pmErrIpc := by
  by_cases h₀ : h.numinst > 0
  case pos =>
    rw [decodeList, if_pos h₀, require_bind_val_not fun hn => hv ⟨h₀.le, hn⟩]
  case neg =>
    have hn : ¬0 ≤ h.numinst := by
      intro hn
      have : (0 : Int) < limitInstances := by decide
      exact hv ⟨hn, by omega, by omega⟩
    rw [decodeList, if_neg h₀, require_bind_val_not hn]

theorem decodeList_short {h : Head} (hv : h.Valid len)
    (hs : ¬∀ k < h.numinst.toNat, p + (4 : Nat) * k < len) :
    ∃ e, (decodeList len h.numinst p m).val = .error e := by
  have h₀ : h.numinst > 0 := by
    by_contra h₀
    simp [Int.toNat_eq_zero.mpr (not_lt.mp h₀)] at hs
  obtain ⟨e, he⟩ := records_sized_error (fun _ => decodeInstance_val)
    (fun _ => decodeInstance_error) hs
  exact ⟨e, by rw [decodeList, if_pos h₀, require_bind_val hv.right, bind_val_error he]⟩

theorem decodeList_logs {h : Head} (hp : 0 ≤ p) (hv : h.Valid len) :
    Logs (·.Within len) (decodeList len h.numinst p) m ↔ Whole len p 4 4 h.numinst.toNat := by
  by_cases h₀ : h.numinst > 0
  case pos =>
    rw [decodeList, if_pos h₀, logs_require_bind, imp_iff_right hv.right, logs_bind_pure,
      Whole.logs (fun _ => decodeInstance_val) (fun _ => decodeInstance_error)
        (fun _ => decodeInstance_logs) hp]
  case neg =>
    simp [decodeList, if_neg h₀, Int.toNat_eq_zero.mpr (not_lt.mp h₀), Whole]

theorem decodeList_logs_invalid {h : Head} (hv : ¬h.Valid len) :
    Logs (·.Within len) (decodeList len h.numinst p) m := by
  by_cases h₀ : h.numinst > 0
  case pos =>
    rw [decodeList, if_pos h₀, logs_require_bind]
    exact fun hn => absurd ⟨h₀.le, hn⟩ hv
  case neg => simp [decodeList, if_neg h₀]

theorem decodeLists_logs (hp : 0 ≤ p) (hl : 0 < len) :
    Logs (·.Within len) (decodeLists len hs p) m ↔ Whole len p 4 4 (words len hs) := by
  induction hs generalizing p
  case nil => simp [decodeLists, words, Whole]
  case cons h hs hi =>
    rw [decodeLists, words, logs_bind]
    split
    case isTrue hv =>
      rw [decodeList_logs hp hv, Whole.add]
      refine and_congr_right fun _ => ?_
      by_cases hr : ∀ k < h.numinst.toNat, p + (4 : Nat) * k < len
      case pos =>
        obtain ⟨l, hd⟩ := decodeList_val hv hr (m := m)
        rw [imp_iff_right hr, ← hi (by positivity)]
        simp [hd]
      case neg =>
        obtain ⟨e, hd⟩ := decodeList_short hv hr (m := m)
        exact iff_of_true (by simp [hd]) fun h => absurd h hr
    case isFalse hv =>
      simp [decodeList_logs_invalid hv, decodeList_invalid hl hv, Whole]

section Profile

variable (m : Bytes)

def ctxnumOf : Int :=
  CInt.ofWord (be32 m 12)

def numprofOf : Int :=
  CInt.ofWord (be32 m 20)

def headsOf : List Head :=
  (List.range (numprofOf m).toNat).map fun k => headAt m (28 + (16 : Nat) * (k : Nat))

-- The end of the PDU is neither within an entry nor within an instance.
@[mk_iff]
structure Uncut : Prop where
  header : 4 ≤ hdrLenOf m
  passes : 28 ≤ hdrLenOf m → 0 ≤ ctxnumOf m ∧ ctxnumOf m ≤ limitCtxnum → 0 < numprofOf m →
    numprofOf m < limitProfile ∧ numprofOf m < hdrLenOf m →
    Whole (hdrLenOf m) 28 16 12 (numprofOf m).toNat ∧
      Whole (hdrLenOf m) (28 + (16 : Nat) * (numprofOf m).toNat) 4 4
        (words (hdrLenOf m) (headsOf m))

variable {m}

theorem decodeEntries_logs (hl : 28 ≤ len) :
    Logs (·.Within len) (decodeEntries len (numprofOf m)) m ↔ (0 < numprofOf m →
      numprofOf m < limitProfile ∧ numprofOf m < len →
      Whole len 28 16 12 (numprofOf m).toNat ∧
        Whole len (28 + (16 : Nat) * (numprofOf m).toNat) 4 4 (words len (headsOf m))) := by
  rw [decodeEntries]
  split
  case isFalse h => simp [h]
  case isTrue h =>
    rw [imp_iff_right h, logs_require_bind]
    refine imp_congr_right fun _ => ?_
    rw [logs_bind, Whole.logs (fun _ => decodeHead_val) (fun _ => decodeHead_error)
      (fun _ => decodeHead_logs) (by decide)]
    refine and_congr_right fun _ => ?_
    by_cases hr : ∀ k < (numprofOf m).toNat, 28 + (16 : Nat) * k < len
    case pos =>
      rw [records_sized (fun _ => decodeHead_val) hr]
      simp only [Except.ok.injEq, forall_eq']
      exact decodeLists_logs (by positivity) (by omega)
    case neg =>
      -- Nothing is left for the second pass if the first one came to the end.
      obtain ⟨e, he⟩ := records_sized_error (fun _ => decodeHead_val) (fun _ => decodeHead_error) hr
        (m := m)
      simp only [not_forall] at hr
      obtain ⟨k, hk, hr⟩ := hr
      exact iff_of_true (by simp [he]) (Whole.of_le (by omega))

-- The decoder stays in the PDU exactly if no record that it decodes is cut by the end.
theorem decodeProfile_within :
    (∀ a ∈ (decodeProfile m).log, a.Within (hdrLenOf m)) ↔ Uncut m := by
  change Logs (·.Within (hdrLenOf m)) decodeProfile m ↔ _
  have hlen : CInt.ofWord (le32 m 0) = hdrLenOf m := rfl
  have hb := (hdrLenOf_bounds m).right
  rw [decodeProfile, logs_read_bind, hlen, logs_require_bind, uncut_iff]
  have h₀ : (⟨0, 4⟩ : Access).Within (hdrLenOf m) ↔ 4 ≤ hdrLenOf m := by simp [Access.Within]
  rw [h₀]
  refine and_congr_right fun h₄ => ?_
  rw [CInt.size_eq (by omega) (by simp only [CInt.intMax] at hb; omega)]
  refine imp_congr_right fun h₂₈ => ?_
  simp only [ntohl, logs_read_bind, logs_require_bind, logs_bind_pure]
  have hw (a : Int) (ha : 0 ≤ a) (ha' : a + 4 ≤ 28) : (⟨a, 4⟩ : Access).Within (hdrLenOf m) := by
    simp only [Access.Within, Nat.cast_ofNat]
    omega
  rw [and_iff_right (hw 12 (by decide) (by decide))]
  refine imp_congr_right fun _ => ?_
  rw [and_iff_right (hw 16 (by decide) (by decide)), and_iff_right (hw 20 (by decide) (by decide))]
  change (0 ≤ numprofOf m → Logs _ (decodeEntries _ (numprofOf m)) m) ↔ _
  rw [decodeEntries_logs h₂₈]
  exact ⟨fun h h₀ => h h₀.le h₀, fun h _ => h⟩

def cutPdu : Bytes
  | 0 => 30
  | 23 => 1
  | _ => 0

theorem decodeProfile_beyond :
    ¬∀ a ∈ (decodeProfile cutPdu).log, a.Within (hdrLenOf cutPdu) := by
  decide

end Profile

end PduProfile
