import PcpModel.PduResult.Endian
import PcpModel.Pmapi.Header

-- The check of packed event records, and their unpacking (events.c).
namespace Events

open Memory PduResult Pcp

-- The block starts at the address 0, and its first word has its length and its type.
section Layout

variable (m : Bytes) (a : Nat)

def blockLen : Nat :=
  vlen m 0

def loadInt : Int :=
  CInt.ofWord (le32 m a)

def erFlags : Nat :=
  le32 m (a + 8 : Nat)

def erNparams : Int :=
  loadInt m (a + 12)

def epLen : Nat :=
  vlen m (a + 4 : Nat)

def epType : Nat :=
  (vtype m (a + 4 : Nat)).toNat

def eaNrecords : Int :=
  loadInt m 4

def missed : Nat :=
  0x80000000

def nextParam : Nat :=
  a + 4 + pduSizeBytes (epLen m a)

end Layout

variable (m : Bytes)

namespace Check

def param (base : Nat) : Except Int Nat :=
  if base + 8 > blockLen m then
    .error pmErrToobig
  else if nextParam m base > blockLen m then
    .error pmErrToobig
  else
    .ok (nextParam m base)

def params : Nat → Nat → Except Int Nat
  | 0, base => .ok base
  | n + 1, base => do params n (← param m base)

def nparams (base : Nat) : Except Int Int :=
  if erFlags m base ≥ missed then
    if erFlags m base = missed then .ok 0 else .error pmErrConv
  else
    .ok (erNparams m base)

def record (base : Nat) : Except Int Nat := do
  if base + 16 > blockLen m then
    .error pmErrToobig
  else
    params m (← nparams m base).toNat (base + 16)

def records : Nat → Nat → Except Int Nat
  | 0, base => .ok base
  | n + 1, base => do records n (← record m base)

end Check

-- __pmCheckEventRecords, for a value set that has values which are blocks.
def checkEventRecords : Except Int Unit := do
  if (vtype m 0).toNat ≠ PmType.event.toNat then
    .error pmErrType
  else if blockLen m < 8 then
    .error pmErrToosmall
  else if eaNrecords m < 0 then
    .error pmErrToosmall
  else
    let _ ← Check.records m (eaNrecords m).toNat 8

-- The values of the metrics event.flags and event.missed, and those of parameters.
inductive Value
  | flags (n : Nat)
  | missed (n : Int)
  | param (pmid type : Nat) (vbuf : List UInt8)

structure Result where
  sec : Nat
  usec : Nat
  vset : List Value

-- Undefined if bytes are read outside of the block or if a size or a count is negative.
abbrev Unpack := ExceptT Int Option

namespace Unpack

def undefined : Unpack α :=
  .mk none

def valueSize (base : Nat) : Option Int :=
  match epType m base with
  | 0 | 1 | 4 => some 4
  | 2 | 3 | 5 => some 8
  | 6 | 7 | 8 => some (epLen m base - 4)
  | _ => none

def param (base : Nat) : Unpack Value :=
  if base + 8 > blockLen m then
    undefined
  else
    match valueSize m base with
    | none => throw pmErrType
    | some vsize =>
      if vsize < 0 ∨ base + 8 + vsize > blockLen m then
        undefined
      else
        let vbuf := (List.range vsize.toNat).map fun i => m (base + 8 + i : Nat)
        return .param (le32 m base) (epType m base) vbuf

def value (r p base : Nat) : Unpack (Value × Nat) := do
  if p = 0 ∧ erFlags m r ≠ 0 then
    return (.flags (erFlags m r), base)
  else if p = 1 ∧ erFlags m r ≥ missed then
    return (.missed (erNparams m r), base)
  else
    return (← param m base, nextParam m base)

def values (r : Nat) : Nat → Nat → Nat → Unpack (List Value × Nat)
  | 0, _, base => return ([], base)
  | n + 1, p, base => do
    let (v, base) ← value m r p base
    let (vset, base) ← values r n (p + 1) base
    return (v :: vset, base)

def numpmid (r : Nat) : Int :=
  if erFlags m r = 0 then
    erNparams m r
  else if erFlags m r ≥ missed then
    2
  else
    CInt.int (erNparams m r + 1)

def record (r : Nat) : Unpack (Result × Nat) := do
  if r + 16 > blockLen m ∨ numpmid m r < 0 then
    undefined
  else
    let (vset, base) ← values m r (numpmid m r).toNat 0 (r + 16)
    return ({ sec := le32 m r, usec := le32 m (r + 4 : Nat), vset }, base)

def records : Nat → Nat → Unpack (List Result)
  | 0, _ => return []
  | n + 1, base => do
    let (rp, base) ← record m base
    return rp :: (← records n base)

end Unpack

def unpackEventRecords : Unpack (List Result) :=
  match checkEventRecords m with
  | .error sts => throw sts
  | .ok _ => Unpack.records m (eaNrecords m).toNat 8

def count (r : Nat) : Nat :=
  if erFlags m r ≥ missed then 0 else (erNparams m r).toNat

def paramsAt : Nat → Nat → List Nat
  | 0, _ => []
  | n + 1, base => base :: paramsAt n (nextParam m base)

def skip : Nat → Nat → Nat
  | 0, base => base
  | n + 1, base => skip n (nextParam m base)

def recordsAt : Nat → Nat → List Nat
  | 0, _ => []
  | n + 1, base => base :: recordsAt n (skip m (count m base) (base + 16))

def ParamFits (base : Nat) : Prop :=
  match epType m base with
  | 0 | 1 | 4 => base + 12 ≤ blockLen m
  | 2 | 3 | 5 => base + 16 ≤ blockLen m
  | 6 | 7 | 8 => 4 ≤ epLen m base
  | _ => False

def RecordFits (r : Nat) : Prop :=
  (erFlags m r < missed → (if erFlags m r = 0 then 0 else -1) ≤ erNparams m r) ∧
    ∀ base ∈ paramsAt m (count m r) (r + 16), ParamFits m base

instance : DecidablePred (ParamFits m) := by
  intro base
  unfold ParamFits
  split <;> infer_instance

instance : DecidablePred (RecordFits m) := fun _ => inferInstanceAs (Decidable (_ ∧ _))

variable {m}

namespace Check

theorem param_ok (h : param m base = .ok b) :
    base + 8 ≤ blockLen m ∧ nextParam m base ≤ blockLen m ∧ b = nextParam m base := by
  unfold param at h
  split at h
  · contradiction
  · split at h
    · contradiction
    · cases h
      exact ⟨by omega, by omega, rfl⟩

theorem params_ok (h : params m n base = .ok b) :
    b = skip m n base ∧ (0 < n → base + 4 * n < blockLen m) ∧
    ∀ a ∈ paramsAt m n base, a + 8 ≤ blockLen m ∧ nextParam m a ≤ blockLen m := by
  induction n generalizing base
  case zero =>
    cases h
    exact ⟨rfl, by simp, by simp [paramsAt]⟩
  case succ n ih =>
    cases hp : param m base
    case error => simp [params, hp, bind, Except.bind] at h
    case ok a =>
      obtain ⟨h₁, h₂, rfl⟩ := param_ok hp
      obtain ⟨rfl, hl, ha⟩ := ih (by simpa [params, hp, bind, Except.bind] using h)
      refine ⟨rfl, fun _ => ?_, ?_⟩
      · have hb : base + 4 ≤ nextParam m base := Nat.le_add_right ..
        by_cases hn : 0 < n
        · have := hl hn
          omega
        · omega
      · intro a hm
        rcases List.mem_cons.mp hm with rfl | hm
        · exact ⟨h₁, h₂⟩
        · exact ha a hm

theorem nparams_ok (h : nparams m r = .ok n) : n.toNat = count m r := by
  unfold nparams at h
  unfold count
  split at h
  case isTrue hf =>
    split at h
    · cases h
      simp [hf]
    · contradiction
  case isFalse hf =>
    cases h
    simp [hf]

theorem record_ok (h : record m r = .ok b) :
    r + 16 ≤ blockLen m ∧ params m (count m r) (r + 16) = .ok b := by
  unfold record at h
  split at h
  · contradiction
  · cases hn : nparams m r
    case error => simp [hn, bind, Except.bind] at h
    case ok n => exact ⟨by omega, by simpa [hn, bind, Except.bind, nparams_ok hn] using h⟩

end Check

namespace Unpack

def Returns (x : Unpack α) (a : α) : Prop :=
  x.run = some (.ok a)

@[simp]
theorem pure_returns : Returns (pure a) b ↔ a = b := by
  simp [Returns]

@[simp]
theorem bind_returns {f : α → Unpack β} :
    Returns (x >>= f) b ↔ ∃ a, Returns x a ∧ Returns (f a) b := by
  simp only [Returns, ExceptT.run_bind]
  cases hx : x.run
  case none => simp
  case some r =>
    cases r
    case error => simp
    case ok a => simp

@[simp]
theorem undefined_returns : ¬Returns (undefined : Unpack α) b := by
  simp [Returns, undefined]

@[simp]
theorem throw_returns : ¬Returns (throw sts : Unpack α) b := by
  simp [Returns]

theorem paramFits_iff (hn : nextParam m base ≤ blockLen m) : ParamFits m base ↔
    ∃ vsize, valueSize m base = some vsize ∧ 0 ≤ vsize ∧ base + 8 + vsize ≤ blockLen m := by
  have hl : epLen m base ≤ pduSizeBytes (epLen m base) := by
    unfold pduSizeBytes
    omega
  simp only [nextParam] at hn
  unfold ParamFits valueSize
  split <;> simp <;> omega

theorem param_returns (hb : base + 8 ≤ blockLen m) (hn : nextParam m base ≤ blockLen m) :
    (∃ v, Returns (param m base) v) ↔ ParamFits m base := by
  rw [paramFits_iff hn]
  unfold param
  rw [if_neg (by omega)]
  cases valueSize m base
  case none => simp
  case some vsize =>
    by_cases h : vsize < 0 ∨ base + 8 + vsize > blockLen m
    · simp [h]
      omega
    · simp [h]
      omega

theorem values_returns (hf : erFlags m r < missed) (hp : erFlags m r = 0 ∨ 0 < p)
    (hc : ∀ a ∈ paramsAt m n base, a + 8 ≤ blockLen m ∧ nextParam m a ≤ blockLen m) :
    ((∃ x, Returns (values m r n p base) x) ↔ ∀ a ∈ paramsAt m n base, ParamFits m a) ∧
      ∀ x, Returns (values m r n p base) x → x.2 = skip m n base := by
  induction n generalizing p base
  case zero => simp [values, paramsAt, skip]
  case succ n ih =>
    have hv : value m r p base = do return (← param m base, nextParam m base) := by
      unfold value
      rw [if_neg (by omega), if_neg (by omega)]
    have hc' := List.forall_mem_cons.mp hc
    obtain ⟨hi, hs⟩ := ih (p := p + 1) (.inr (by omega)) hc'.right
    constructor
    · rw [paramsAt, List.forall_mem_cons, ← param_returns hc'.left.left hc'.left.right, ← hi]
      simp only [values, hv, bind_returns, pure_returns]
      constructor
      · rintro ⟨_, _, ⟨v, h, rfl⟩, x, h', -⟩
        exact ⟨⟨v, h⟩, x, h'⟩
      · rintro ⟨⟨v, h⟩, x, h'⟩
        exact ⟨_, _, ⟨v, h, rfl⟩, x, h', rfl⟩
    · simp only [values, hv, bind_returns, pure_returns]
      rintro _ ⟨_, ⟨v, h, rfl⟩, x, h', rfl⟩
      exact hs x h'

theorem blockLen_lt : blockLen m < 0x1000000 := by
  have h₀ := (m 0).toNat_lt
  have h₁ := (m (0 + 1)).toNat_lt
  have h₂ := (m (0 + 2)).toNat_lt
  unfold blockLen vlen
  omega

theorem le_loadInt (a : Nat) : -0x80000000 ≤ loadInt m a := by
  unfold loadInt CInt.ofWord
  split <;> omega

theorem int_nparams (hl : 0 < count m r → r + 16 + 4 * count m r < blockLen m)
    (hf : erFlags m r < missed) : CInt.int (erNparams m r + 1) = erNparams m r + 1 := by
  have hb := blockLen_lt (m := m)
  have hi : -0x80000000 ≤ erNparams m r := le_loadInt (r + 12)
  have hc : count m r = (erNparams m r).toNat := if_neg (by omega)
  refine CInt.int_eq (by omega) ?_
  unfold CInt.intMax
  omega

theorem values_missed (base : Nat) (hf : missed ≤ erFlags m r) : Returns (values m r 2 0 base)
    ([.flags (erFlags m r), .missed (erNparams m r)], base) := by
  have h₀ : erFlags m r ≠ 0 := by
    unfold missed at hf
    omega
  simp [values, value, h₀, hf]

theorem values_flags (h₀ : erFlags m r ≠ 0) : Returns (values m r (n + 1) 0 base) x ↔
    ∃ y, Returns (values m r n 1 base) y ∧ x = (.flags (erFlags m r) :: y.1, y.2) := by
  have hv : value m r 0 base = pure (.flags (erFlags m r), base) := if_pos ⟨rfl, h₀⟩
  simp only [values, hv, bind_returns, pure_returns]
  constructor
  · rintro ⟨_, rfl, y, h, rfl⟩
    exact ⟨y, h, rfl⟩
  · rintro ⟨y, h, rfl⟩
    exact ⟨_, rfl, y, h, rfl⟩

theorem values_numpmid (hl : 0 < count m r → r + 16 + 4 * count m r < blockLen m)
    (hp : ∀ a ∈ paramsAt m (count m r) (r + 16), a + 8 ≤ blockLen m ∧ nextParam m a ≤ blockLen m) :
    ((0 ≤ numpmid m r ∧ ∃ x, Returns (values m r (numpmid m r).toNat 0 (r + 16)) x) ↔
        RecordFits m r) ∧
      ∀ x, Returns (values m r (numpmid m r).toNat 0 (r + 16)) x →
        x.2 = skip m (count m r) (r + 16) := by
  by_cases hf : missed ≤ erFlags m r
  · have h₀ : erFlags m r ≠ 0 := by
      unfold missed at hf
      omega
    have hc : count m r = 0 := if_pos hf
    have hn : numpmid m r = 2 := by simp [numpmid, h₀, hf]
    have hv := values_missed (r + 16) hf
    simp only [hn, hc, RecordFits, paramsAt, skip]
    refine ⟨iff_of_true ⟨by decide, _, hv⟩ ⟨fun h => absurd h (by omega), by simp⟩, fun x hx => ?_⟩
    cases hv.symm.trans hx
    rfl
  · have hf : erFlags m r < missed := by omega
    have hc : count m r = (erNparams m r).toNat := if_neg (by omega)
    by_cases h₀ : erFlags m r = 0
    · have hn : numpmid m r = erNparams m r := if_pos h₀
      obtain ⟨he, hs⟩ := values_returns (p := 0) hf (.inl h₀) hp
      simp only [hn, RecordFits, h₀, ← hc, he]
      exact ⟨by simp [show 0 < missed by decide], hs⟩
    · have hn : numpmid m r = erNparams m r + 1 := by
        simp [numpmid, h₀, show ¬missed ≤ erFlags m r by omega, int_nparams hl hf]
      have hr : RecordFits m r ↔ -1 ≤ erNparams m r ∧
          ∀ base ∈ paramsAt m (count m r) (r + 16), ParamFits m base := by
        simp [RecordFits, h₀, hf]
      rw [hr, hn]
      by_cases h₁ : erNparams m r < 0
      · -- There is nothing to unpack, not even the flags.
        have ht : (erNparams m r + 1).toNat = 0 := by omega
        have hz : count m r = 0 := by omega
        simp [ht, hz, values, paramsAt, skip]
        omega
      · have ht : (erNparams m r + 1).toNat = count m r + 1 := by omega
        obtain ⟨he, hs⟩ := values_returns (p := 1) hf (.inr (by omega)) hp
        simp only [ht, values_flags h₀, ← he]
        constructor
        · constructor
          · rintro ⟨-, _, y, h, rfl⟩
            exact ⟨by omega, y, h⟩
          · rintro ⟨-, y, h⟩
            exact ⟨by omega, _, y, h, rfl⟩
        · rintro _ ⟨y, h, rfl⟩
          exact hs y h

theorem record_returns (hc : Check.record m r = .ok b) :
    ((∃ x, Returns (record m r) x) ↔ RecordFits m r) ∧
      ∀ x, Returns (record m r) x → x.2 = b := by
  obtain ⟨hr, hc⟩ := Check.record_ok hc
  obtain ⟨rfl, hl, hp⟩ := Check.params_ok hc
  obtain ⟨he, hs⟩ := values_numpmid hl hp
  by_cases hn : numpmid m r < 0
  · have : ¬RecordFits m r := fun h => absurd (he.mpr h).left (by omega)
    simp [record, hn, this]
  · have hx : ¬(r + 16 > blockLen m ∨ numpmid m r < 0) := by omega
    rw [and_iff_right (by omega)] at he
    simp only [record, hx, if_false, bind_returns, pure_returns, ← he]
    constructor
    · constructor
      · rintro ⟨_, x, h, -⟩
        exact ⟨x, h⟩
      · rintro ⟨x, h⟩
        exact ⟨_, x, h, rfl⟩
    · rintro _ ⟨x, h, rfl⟩
      exact hs x h

theorem records_returns (hc : Check.records m n base = .ok b) :
    (∃ rs, Returns (records m n base) rs ∧ rs.length = n) ↔
      ∀ r ∈ recordsAt m n base, RecordFits m r := by
  induction n generalizing base
  case zero => simp [records, recordsAt]
  case succ n ih =>
    cases hr : Check.record m base
    case error => simp [Check.records, hr, bind, Except.bind] at hc
    case ok b' =>
      have hc : Check.records m n b' = .ok b := by
        simpa [Check.records, hr, bind, Except.bind] using hc
      obtain ⟨he, hs⟩ := record_returns hr
      obtain rfl := (Check.params_ok (Check.record_ok hr).right).left
      rw [recordsAt, List.forall_mem_cons, ← he, ← ih hc]
      simp only [records, bind_returns, pure_returns]
      constructor
      · rintro ⟨_, ⟨x, h, rs, h', rfl⟩, hl⟩
        exact ⟨⟨x, h⟩, rs, hs x h ▸ h', by simpa using hl⟩
      · rintro ⟨⟨x, h⟩, rs, h', hl⟩
        exact ⟨_, ⟨x, h, rs, hs x h ▸ h', rfl⟩, by simpa using hl⟩

end Unpack

theorem checkEventRecords_ok (h : checkEventRecords m = .ok ()) : 0 ≤ eaNrecords m ∧
    ∃ b, Check.records m (eaNrecords m).toNat 8 = .ok b := by
  unfold checkEventRecords at h
  split at h
  · contradiction
  · split at h
    · contradiction
    · split at h
      · contradiction
      · cases hr : Check.records m (eaNrecords m).toNat 8
        case error => simp [hr, bind, Except.bind] at h
        case ok b => exact ⟨by omega, b, rfl⟩

theorem unpackEventRecords_iff (h : checkEventRecords m = .ok ()) :
    (∃ rs, (unpackEventRecords m).run = some (.ok rs) ∧ rs.length = eaNrecords m) ↔
      ∀ r ∈ recordsAt m (eaNrecords m).toNat 8, RecordFits m r := by
  obtain ⟨hn, b, hc⟩ := checkEventRecords_ok h
  have hu : unpackEventRecords m = Unpack.records m (eaNrecords m).toNat 8 := by
    simp [unpackEventRecords, h]
  rw [hu, ← Unpack.records_returns hc]
  refine exists_congr fun rs => and_congr_right fun _ => ?_
  omega

def block (l : List UInt8) : Bytes :=
  Memory.write (fun _ => 0) 0 l

def oneRecord (l : List UInt8) : Bytes :=
  block ([.ofNat (16 + l.length), 0, 0, 9, 1, 0, 0, 0] ++ List.replicate 8 0 ++ l)

theorem unpackEventRecords_one :
    let m := oneRecord [0, 0, 0, 0, 1, 0, 0, 0, 1, 0, 0, 0, 8, 0, 0, 0, 7, 0, 0, 0]
    ∃ rs, (unpackEventRecords m).run = some (.ok rs) ∧ rs.length = eaNrecords m := by
  intro m
  have h : checkEventRecords m = .ok () := by decide +kernel
  exact (unpackEventRecords_iff h).mpr (by decide +kernel)

-- A negative number of parameters, a value behind the end, a short string, a type not supported.
theorem unpackEventRecords_unfit :
    (∀ l ∈ [[0, 0, 0, 0, 255, 255, 255, 255], [0, 0, 0, 0, 1, 0, 0, 0, 1, 0, 0, 0, 4, 0, 0, 2],
        [0, 0, 0, 0, 1, 0, 0, 0, 1, 0, 0, 0, 0, 0, 0, 6]],
      checkEventRecords (oneRecord l) = .ok () ∧ (unpackEventRecords (oneRecord l)).run = none) ∧
    let m := oneRecord [0, 0, 0, 0, 1, 0, 0, 0, 1, 0, 0, 0, 8, 0, 0, 9, 7, 0, 0, 0]
    checkEventRecords m = .ok () ∧ (unpackEventRecords m).run = some (.error pmErrType) := by
  refine ⟨?_, rfl, rfl⟩
  simp only [List.forall_mem_cons]
  exact ⟨⟨rfl, rfl⟩, ⟨rfl, rfl⟩, ⟨rfl, rfl⟩, nofun⟩

end Events
