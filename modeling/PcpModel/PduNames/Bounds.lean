import PcpModel.PduNames.Basic
import PcpModel.PduResult.Check

-- Which PDUs the decoder of names reads without going beyond their end.
namespace PduNames

open Memory Decoder CInt Nat Pcp
open PduResult (hdrLenOf hdrLenOf_bounds pduSizeBytes)

variable {m : Bytes} {len : Int} {statuslist : Bool} {layout : Layout} {numnames : Nat}
variable {nstrbytes : Int} {s : Pos}

section Records

variable (m : Bytes) (head : Nat) (first : Int)

-- The length of the name is the last word of the head of a record.
def lengthAt (a : Int) : Int :=
  CInt.ofWord (be32 m (a + head - 4))

-- Where the records start, by the lengths that are in the PDU.
def startOf : Nat → Int
  | 0 => first
  | k + 1 => startOf k + head + pduSizeBytes (lengthAt m head (startOf k)).toNat

def lengthOf (k : Nat) : Int :=
  lengthAt m head (startOf m head first k)

-- The record runs past the end.
def Past (len : Int) (k : Nat) : Prop :=
  len < startOf m head first k + head ∨
    len < startOf m head first k + head + lengthOf m head first k

theorem le_startOf (k : Nat) : first ≤ startOf m head first k := by
  induction k
  case zero => exact le_rfl
  case succ k hi =>
    rw [startOf]
    omega

end Records

def namelenAt (m : Bytes) (layout : Layout) (s : Pos) : Int :=
  lengthAt m layout.head s.np

structure Inv (numnames : Nat) (nstrbytes : Int) (k : Nat) (s : Pos) : Prop where
  number : s.i = k
  offset : 0 ≤ s.j ∧ s.j ≤ CInt.intMax
  dest : numnames * 8 ≤ s.dest ∧ s.dest ≤ namesize numnames nstrbytes

structure Fits (m : Bytes) (len : Int) (layout : Layout) (numnames : Nat) (nstrbytes : Int)
    (s : Pos) : Prop where
  head : layout.head + 4 ≤ CInt.size (len - s.np)
  source : CInt.size (layout.head + namelenAt m layout s) ≤ CInt.size (len - s.np)
  dest : 0 ≤ namelenAt m layout s ∧
    CInt.int (namelenAt m layout s + 1) ≤ namesize numnames nstrbytes - s.dest

theorem Layout.head_bounds (l : Layout) : 4 ≤ l.head ∧ l.head ≤ 8 := by
  cases l <;> decide

theorem namelen_bind_val {f : Int → Decoder Use Int α} :
    ((ntohl (s.np + layout.head - 4) >>= f) m).val = (f (namelenAt m layout s) m).val :=
  read_bind_val

theorem namelen_bind_logs {f : Int → Decoder Use Int α} :
    Logs P (ntohl (s.np + layout.head - 4) >>= f) m ↔
      P (.pdu ⟨s.np + layout.head - 4, 4⟩) ∧ Logs P (f (namelenAt m layout s)) m :=
  logs_read_bind

theorem Fits.bounds (h : Fits m len layout numnames nstrbytes s) (hs : 0 ≤ s.j) (hn : s.np ≤ len)
    (hl : len ≤ intMax) :
    s.np + layout.head + 4 ≤ len ∧ s.np + layout.head + namelenAt m layout s ≤ len ∧
      s.dest + namelenAt m layout s + 1 ≤ namesize numnames nstrbytes := by
  obtain ⟨h₁, h₂, h₀, h₃⟩ := h
  have hc : namelenAt m layout s ≤ intMax := (ofWord_bounds (be32_lt ..)).right
  simp only [intMax, Pos.np] at *
  rw [size_eq (by omega) (by omega)] at h₁ h₂
  rw [size_eq (by omega) (by omega)] at h₂
  rw [int_eq (by omega) (by simp only [intMax]; omega)] at h₃
  omega

theorem decodeStatus_val (statuslist : Bool) (layout : Layout) (numnames : Nat) (s : Pos)
    (m : Bytes) : ∃ status, (decodeStatus statuslist layout numnames s m).val = .ok status := by
  rw [decodeStatus]
  split
  case isTrue => exact ⟨_, rfl⟩
  case isFalse => exact ⟨_, rfl⟩

theorem decodeStatus_logs (hi : s.i < numnames) (hs : 0 ≤ s.j) (hn : s.np + 4 ≤ len) :
    Logs (·.Within len) (decodeStatus statuslist layout numnames s) m := by
  rw [decodeStatus]
  split
  case isFalse => exact logs_pure
  case isTrue =>
    simp only [ntohl, logs_read_bind, logs_tell_bind, logs_pure, Use.Within, Access.Within, Pos.np,
      and_true] at *
    omega

def Pos.next (m : Bytes) (layout : Layout) (s : Pos) : Pos where
  i := s.i + 1
  j := CInt.int (s.j + layout.head + pduSizeBytes (namelenAt m layout s).toNat)
  dest := s.dest + namelenAt m layout s + 1

theorem decodeName_val (h : Fits m len layout numnames nstrbytes s)
    (hs : (decodeStatus statuslist layout numnames s m).val = .ok status) :
    (decodeName len statuslist layout numnames nstrbytes s m).val =
      .ok (⟨status, string m (s.np + layout.head) (namelenAt m layout s).toNat⟩,
        s.next m layout) := by
  rw [decodeName, tell_bind_val, require_bind_val h.head, namelen_bind_val,
    require_bind_val h.source, require_bind_val h.dest, bind_val_ok hs]
  rfl

theorem decodeName_error (h : ¬Fits m len layout numnames nstrbytes s) :
    (decodeName len statuslist layout numnames nstrbytes s m).val = .error pmErrIpc := by
  rw [decodeName, tell_bind_val]
  by_cases h₁ : layout.head + 4 ≤ size (len - s.np)
  case neg => rw [require_bind_val_not h₁]
  case pos =>
    rw [require_bind_val h₁, namelen_bind_val]
    by_cases h₂ : size (layout.head + namelenAt m layout s) ≤ size (len - s.np)
    case neg => rw [require_bind_val_not h₂]
    case pos => rw [require_bind_val h₂, require_bind_val_not fun h₃ => h ⟨h₁, h₂, h₃⟩]

theorem decodeName_logs (hi : Inv numnames nstrbytes k s) (hk : k < numnames)
    (hl : 0 ≤ len ∧ len ≤ intMax) :
    Logs (·.Within len) (decodeName len statuslist layout numnames nstrbytes s) m ↔
      s.np ≤ len := by
  obtain ⟨hn, hj, hd⟩ := hi
  have hb := layout.head_bounds
  rw [decodeName, logs_tell_bind, logs_require_bind, namelen_bind_logs, logs_require_bind,
    logs_require_bind]
  constructor
  case mp =>
    intro ⟨_, h⟩
    by_contra hp
    -- The number of bytes that are left wraps around.
    have hs : layout.head + 4 ≤ size (len - s.np) := by
      simp only [CInt.size, intMax, Pos.np] at *
      omega
    have hw := (h hs).left
    simp only [Use.Within, Access.Within] at hw
    omega
  case mpr =>
    intro hp
    have hw : 24 ≤ s.np := by unfold Pos.np; omega
    refine ⟨?_, fun h₁ => ⟨?_, fun h₂ h₃ => ?_⟩⟩
    · simp only [Use.Within, Access.Within, namesize, cast_ofNat] at *
      omega
    · rw [size_eq (by omega) (by simp only [intMax] at hl; omega)] at h₁
      simp only [Use.Within, Access.Within]
      omega
    · have hf := Fits.bounds ⟨h₁, h₂, h₃⟩ hj.left hp hl.right
      rw [logs_bind]
      refine ⟨decodeStatus_logs (by omega) hj.left (by omega), fun status _ => ?_⟩
      simp only [logs_read_bind, logs_tell_bind, logs_pure, and_true, Use.Within, Access.Within]
      omega

theorem Inv.next (hi : Inv numnames nstrbytes k s) (hn : s.np ≤ len) (hl : len ≤ intMax)
    (h : Fits m len layout numnames nstrbytes s) :
    Inv numnames nstrbytes (k + 1) (s.next m layout) ∧
      (s.next m layout).j = s.j + layout.head + pduSizeBytes (namelenAt m layout s).toNat := by
  have hf := h.bounds hi.offset.left hn hl
  have h₀ := h.dest.left
  have hj : (s.next m layout).j = _ :=
    int_eq
      (by have := hi.offset; omega)
      (by simp only [Pos.np, pduSizeBytes] at *; omega)
  refine ⟨⟨?_, ?_, ?_⟩, hj⟩
  case _ => exact congrArg (· + 1) hi.number
  case _ =>
    have := hi.offset
    simp only [Pos.np, pduSizeBytes] at *
    omega
  case _ =>
    have := hi.dest
    simp only [Pos.next]
    omega

-- The characters of the first names, with their terminators.
def charsOf (m : Bytes) (layout : Layout) : Nat → Int
  | 0 => 0
  | k + 1 => charsOf m layout k + (lengthOf m layout.head 24 k + 1)

-- The record and its name are in the PDU, and there is room for the name in the block. At least
-- four bytes are expected for a name.
structure Whole (m : Bytes) (len : Int) (layout : Layout) (nstrbytes : Int) (k : Nat) : Prop where
  head : startOf m layout.head 24 k + layout.head + 4 ≤ len
  source : startOf m layout.head 24 k + layout.head + lengthOf m layout.head 24 k ≤ len
  sign : 0 ≤ lengthOf m layout.head 24 k
  dest : charsOf m layout (k + 1) ≤ nstrbytes

def place (m : Bytes) (layout : Layout) (numnames k : Nat) : Pos where
  i := k
  j := startOf m layout.head 24 k - 24
  dest := numnames * 8 + charsOf m layout k

theorem place_np : (place m layout numnames k).np = startOf m layout.head 24 k := by
  simp only [Pos.np, place]
  omega

theorem namelenAt_place :
    namelenAt m layout (place m layout numnames k) = lengthOf m layout.head 24 k := by
  rw [namelenAt, place_np, lengthOf]

theorem Past.not_whole (h : Past m layout.head 24 len k) : ¬Whole m len layout nstrbytes k := by
  intro hw
  have := hw.head
  have := hw.source
  rcases h with h | h <;> omega

theorem place_inv (hl : len ≤ intMax) (hn : 0 ≤ nstrbytes)
    (hw : ∀ j < k, Whole m len layout nstrbytes j) :
    Inv numnames nstrbytes k (place m layout numnames k) := by
  have h₀ := le_startOf m layout.head 24 k
  refine ⟨rfl, ⟨by simp only [place]; omega, ?_⟩, ?_⟩
  case _ =>
    cases k
    case zero => simp only [place, startOf, intMax]; omega
    case succ k =>
      have hs := (hw k (lt_succ_self k)).source
      have h₁ := (hw k (lt_succ_self k)).sign
      simp only [place, startOf, lengthOf, pduSizeBytes] at *
      omega
  case _ =>
    have hc : 0 ≤ charsOf m layout k ∧ charsOf m layout k ≤ nstrbytes := by
      clear h₀
      induction k
      case zero => exact ⟨le_rfl, hn⟩
      case succ k hi =>
        have h₁ := (hw k (lt_succ_self k)).sign
        refine ⟨?_, (hw k (lt_succ_self k)).dest⟩
        rw [charsOf]
        have := hi fun j hj => hw j (lt_succ_of_lt hj)
        omega
    simp only [place, namesize]
    omega

theorem fits_place (hl : len ≤ intMax) (hn : startOf m layout.head 24 k ≤ len) :
    Fits m len layout numnames nstrbytes (place m layout numnames k) ↔
      Whole m len layout nstrbytes k := by
  have h₀ := le_startOf m layout.head 24 k
  have hj : 0 ≤ (place m layout numnames k).j := by simp only [place]; omega
  constructor
  case mp =>
    intro h
    obtain ⟨h₁, h₂, h₃⟩ := h.bounds hj (place_np ▸ hn) hl
    have h₄ := h.dest.left
    rw [namelenAt_place] at h₂ h₃ h₄
    rw [place_np] at h₁ h₂
    refine ⟨h₁, h₂, h₄, ?_⟩
    simp only [place, namesize, charsOf] at h₃ ⊢
    omega
  case mpr =>
    intro ⟨h₁, h₂, h₃, h₄⟩
    have hb := layout.head_bounds
    simp only [intMax] at hl
    refine ⟨?_, ?_, ?_⟩ <;> simp only [place_np, namelenAt_place]
    · rw [size_eq (by omega) (by omega)]
      omega
    · rw [size_eq (by omega) (by omega), size_eq (by omega) (by omega)]
      omega
    · rw [int_eq (by omega) (by simp only [intMax]; omega)]
      simp only [place, namesize, charsOf] at h₄ ⊢
      omega

theorem decodeName_place (hl : len ≤ intMax) (hn : 0 ≤ nstrbytes) (k : Nat)
    (hw : ∀ j < k, Whole m len layout nstrbytes j) (hk : Whole m len layout nstrbytes k) :
    ∃ n, (decodeName len statuslist layout numnames nstrbytes (place m layout numnames k) m).val =
      .ok (n, place m layout numnames (k + 1)) := by
  have hs : startOf m layout.head 24 k ≤ len := by have := hk.head; omega
  have hf : Fits m len layout numnames nstrbytes (place m layout numnames k) :=
    (fits_place hl hs).mpr hk
  obtain ⟨status, hst⟩ := decodeStatus_val statuslist layout numnames (place m layout numnames k) m
  have hj := ((place_inv hl hn hw).next (place_np ▸ hs) hl hf).right
  have he : (place m layout numnames k).next m layout = place m layout numnames (k + 1) := by
    rw [Pos.mk.injEq]
    refine ⟨rfl, hj.trans ?_, ?_⟩
    · rw [namelenAt_place]
      simp only [place, startOf, lengthOf]
      omega
    · rw [Pos.next, namelenAt_place]
      simp only [place, charsOf]
      omega
  exact ⟨_, he ▸ decodeName_val hf hst⟩

theorem decodeName_torn (hl : len ≤ intMax) (hn : startOf m layout.head 24 k ≤ len)
    (hw : ¬Whole m len layout nstrbytes k) :
    (decodeName len statuslist layout numnames nstrbytes (place m layout numnames k) m).val =
      .error pmErrIpc :=
  decodeName_error fun hf => hw ((fits_place hl hn).mp hf)

theorem first_place (m : Bytes) (layout : Layout) :
    first numnames = place m layout numnames 0 := by
  simp [first, place, startOf, charsOf]

theorem decodeNames_logs (hl : 0 ≤ len ∧ len ≤ intMax) (hn : 0 ≤ nstrbytes) :
    Logs (·.Within len) (records (decodeName len statuslist layout numnames nstrbytes) numnames
      (first numnames)) m ↔
    ∀ k < numnames, (∀ j < k, Whole m len layout nstrbytes j) →
      startOf m layout.head 24 k ≤ len := by
  rw [first_place m layout]
  refine logs_records_place (decodeName_place hl.right hn) (fun k _ => decodeName_torn hl.right) ?_
  intro k hk hw
  rw [decodeName_logs (place_inv hl.right hn hw) hk hl, place_np]

section List

variable (m : Bytes) (statuslist : Bool)

def numnamesOf : Int :=
  CInt.ofWord (be32 m 20)

def numstatusOf : Int :=
  CInt.ofWord (be32 m 16)

def nstrbytesOf : Int :=
  CInt.ofWord (be32 m 12)

structure Accepted : Prop where
  header : 24 ≤ hdrLenOf m
  nonempty : numnamesOf m ≠ 0
  signs : 0 ≤ numnamesOf m ∧ 0 ≤ nstrbytesOf m
  limits : numnamesOf m ≤ hdrLenOf m ∧ nstrbytesOf m ≤ hdrLenOf m
  numstatus : numstatusOf m = 0 ∨ numstatusOf m = numnamesOf m
  namesize : numnamesOf m < (CInt.intMax - nstrbytesOf m) / 8
  statussize : statuslist ∧ numstatusOf m > 0 → numstatusOf m < CInt.intMax / 4

def decodeNameOf : Pos → Decoder Use Int (Name × Pos) :=
  decodeName (hdrLenOf m) statuslist (layoutOf (numstatusOf m)) (numnamesOf m).toNat (nstrbytesOf m)

def WholeAt (k : Nat) : Prop :=
  Whole m (hdrLenOf m) (layoutOf (numstatusOf m)) (nstrbytesOf m) k

def headOf : Nat :=
  (layoutOf (numstatusOf m)).head

-- No record that comes after whole ones starts after the end of the PDU.
def Ends : Prop :=
  Accepted m statuslist → ∀ k < (numnamesOf m).toNat, (∀ j < k, WholeAt m j) →
    startOf m (headOf m) 24 k ≤ hdrLenOf m

structure Safe : Prop where
  within : ∀ u ∈ (decodeNameList statuslist m).log, u.Within (hdrLenOf m)
  fails : Accepted m statuslist → ∀ k < (numnamesOf m).toNat, Past m (headOf m) 24 (hdrLenOf m) k →
    (decodeNameList statuslist m).val = .error pmErrIpc

variable {m statuslist}

theorem decodeNameList_val (h : 24 ≤ hdrLenOf m) : (decodeNameList statuslist m).val =
    (decodeRecords (hdrLenOf m) statuslist (numnamesOf m) (numstatusOf m)
      (nstrbytesOf m) m).val := by
  have hl : ofWord (le32 m 0) = hdrLenOf m := rfl
  have hu := (hdrLenOf_bounds m).right
  simp only [intMax] at hu
  have hs : 24 ≤ size (hdrLenOf m) := by rwa [size_eq (by omega) (by omega)]
  rw [decodeNameList, read_bind_val, hl, require_bind_val hs]
  rfl

theorem decodeNameList_accepted (h : Accepted m statuslist) : (decodeNameList statuslist m).val =
    (records (decodeNameOf m statuslist) (numnamesOf m).toNat
      (first (numnamesOf m).toNat) m).val.map fun r => ⟨r.1.map (·.name),
        if statuslist ∧ numstatusOf m > 0 then some (r.1.map (·.status)) else none⟩ := by
  rw [decodeNameList_val h.header, decodeRecords, if_neg h.nonempty, require_bind_val h.signs,
    require_bind_val h.limits, require_bind_val h.numstatus, require_bind_val h.namesize,
    require_bind_val h.statussize, bind_pure_val]
  rfl

theorem decodeRecords_logs (h : 24 ≤ hdrLenOf m) :
    Logs (·.Within (hdrLenOf m)) (decodeRecords (hdrLenOf m) statuslist (numnamesOf m)
      (numstatusOf m) (nstrbytesOf m)) m ↔ Ends m statuslist := by
  have hlen : 0 ≤ hdrLenOf m ∧ hdrLenOf m ≤ intMax := ⟨by omega, (hdrLenOf_bounds m).right⟩
  rw [decodeRecords]
  constructor
  case mp =>
    intro hh ha
    rw [if_neg ha.nonempty, logs_require_bind, logs_require_bind, logs_require_bind,
      logs_require_bind, logs_require_bind, logs_bind_pure] at hh
    have hh := hh ha.signs ha.limits ha.numstatus ha.namesize ha.statussize
    exact (decodeNames_logs hlen ha.signs.right).mp hh
  case mpr =>
    intro he
    split
    case isTrue => exact logs_pure
    case isFalse h₀ =>
      simp only [logs_require_bind, logs_bind_pure]
      intro h₁ h₂ h₃ h₄ h₅
      exact (decodeNames_logs hlen h₁.right).mpr (he ⟨h, h₀, h₁, h₂, h₃, h₄, h₅⟩)

theorem decodeNameList_logs (h : 12 ≤ hdrLenOf m) :
    Logs (·.Within (hdrLenOf m)) (decodeNameList statuslist) m ↔ Ends m statuslist := by
  have hl : ofWord (le32 m 0) = hdrLenOf m := rfl
  have hu := (hdrLenOf_bounds m).right
  simp only [intMax] at hu
  have hw (a : Int) (h₀ : 0 ≤ a) (ha : a + 4 ≤ hdrLenOf m) :
      (Use.pdu ⟨a, 4⟩).Within (hdrLenOf m) := by
    simp only [Use.Within, Access.Within, cast_ofNat]
    omega
  rw [decodeNameList, logs_read_bind, hl, logs_require_bind, size_eq (by omega) (by omega),
    and_iff_right (hw 0 (by decide) (by omega))]
  by_cases h₂₄ : 24 ≤ hdrLenOf m
  case neg => exact iff_of_true (fun h => absurd h h₂₄) fun ha => absurd ha.header h₂₄
  case pos =>
    rw [imp_iff_right h₂₄, ntohl, logs_read_bind, and_iff_right (hw 20 (by decide) (by omega)),
      ntohl, logs_read_bind, and_iff_right (hw 16 (by decide) (by omega)), ntohl, logs_read_bind,
      and_iff_right (hw 12 (by decide) (by omega))]
    exact decodeRecords_logs h₂₄

theorem decodeNameList_safe (h : 12 ≤ hdrLenOf m) : Safe m statuslist ↔ Ends m statuslist := by
  constructor
  case mp => exact fun hs => (decodeNameList_logs h).mp hs.within
  case mpr =>
    refine fun he => ⟨(decodeNameList_logs h).mpr he, fun ha k hk hp => ?_⟩
    have hl := (hdrLenOf_bounds m).right
    rw [decodeNameList_accepted ha, first_place m (layoutOf (numstatusOf m)), decodeNameOf,
      records_error_place (decodeName_place hl ha.signs.right) (fun k _ => decodeName_torn hl)
        (he ha) hk hp.not_whole]
    rfl

end List

end PduNames
