import Mathlib.Algebra.Order.BigOperators.Group.List
import Mathlib.Algebra.Order.Group.Nat
import PcpModel.Events.Packed

namespace Events.Pack

open Memory PduResult List CInt Run Nat Unpack

def Param.size (p : Param) : Nat :=
  8 + pduSizeBytes p.vbuf.length

def Record.size (r : Record) : Nat :=
  16 + (r.params.map Param.size).sum

def size (rs : List Record) : Nat :=
  8 + (rs.map Record.size).sum

def Record.InTime (r : Record) : Prop :=
  CInt.int r.sec = r.sec ∧ CInt.int r.usec = r.usec

instance : DecidablePred Record.InTime := fun _ => inferInstanceAs (Decidable (_ ∧ _))

def Fits (rs : List Record) : Prop :=
  size rs < 0x1000000 ∧ ∀ r ∈ rs, r.InTime

instance : DecidablePred Fits := fun _ => inferInstanceAs (Decidable (_ ∧ _))

def Param.value (p : Param) : Value :=
  .param p.pmid.toNat p.type.toNat p.vbuf

def Record.values (r : Record) : List Value :=
  match r.body with
  | .event flags params =>
    (if flags = 0 then [] else [.flags flags.toNat]) ++ params.map Param.value
  | .missed n => [.flags missed, .missed n.toInt]

def Record.Unpacked (r : Record) (rp : Result) : Prop :=
  CInt.ofWord rp.sec = r.sec ∧ CInt.ofWord rp.usec = r.usec ∧ rp.vset = r.values

def RoundTrips (m : Bytes) (rs : List Record) : Prop :=
  checkEventRecords m = .ok () ∧
    ∃ rps, (unpackEventRecords m).run = some (.ok rps) ∧ List.Forall₂ Record.Unpacked rs rps

def Param.Short (p : Param) : Prop :=
  4 + p.vbuf.length < 0x1000000

namespace Param

variable {p : Param} {base : Nat}

theorem vlen_of_short (hp : p.Short) : p.vlen = p.vbuf.length := by
  refine p.vlen_eq ?_
  simp only [Short, intMax] at *
  omega

theorem need_of_short (hp : p.Short) : p.need = p.size := by
  rw [need_eq, vlen_of_short hp, size, Int.toNat_natCast]

theorem need_le_size : p.need ≤ p.size := by
  have := p.vlen_le
  rw [need_eq, size, pduSizeBytes, pduSizeBytes]
  omega

theorem Supported.cases (h : p.Supported) :
    p.vbuf.length = 4 ∧ (p.type = 0 ∨ p.type = 1 ∨ p.type = 4) ∨
      p.vbuf.length = 8 ∧ (p.type = 2 ∨ p.type = 3 ∨ p.type = 5) ∨ p.type = 6 ∨ p.type = 7 := by
  obtain h | h | h := h
  · obtain ⟨n, hn⟩ := Option.isSome_iff_exists.mp h
    have hl := p.sized n hn
    rw [sizeof] at hn
    split at hn
    case isTrue ht =>
      cases hn
      exact .inl ⟨hl, ht⟩
    case isFalse =>
      split at hn
      case isTrue ht =>
        cases hn
        exact .inr <| .inl ⟨hl, ht⟩
      case isFalse => contradiction
  · exact .inr <| .inr <| .inl h
  · exact .inr <| .inr <| .inr h

variable (h : Matches m base p.cells) (hp : p.Short)
include h hp

theorem holds_of_cells : Holds m base (le p.pmid.toNat) ∧
    Holds m (base + 4 : Nat) (header p.type (4 + p.vbuf.length)) ∧
    Holds m (base + 8 : Nat) p.vbuf := by
  have := (Matches.append.mp h).left
  rw [Matches.known, bytes, vlen_of_short hp, Int.toNat_natCast] at this
  simpa [Holds.append, add_assoc] using this

theorem le32_of_cells : le32 m base = p.pmid.toNat := by
  rw [(holds_of_cells h hp).left.le32_eq]
  exact mod_eq_of_lt p.pmid.toNat_lt

theorem epLen_of_cells : epLen m base = 4 + p.vbuf.length :=
  header_vlen (holds_of_cells h hp).right.left hp

theorem epType_of_cells : epType m base = p.type.toNat :=
  congrArg _ <| header_vtype (holds_of_cells h hp).right.left

theorem nextParam_of_cells : nextParam m base = base + p.size := by
  rw [nextParam, epLen_of_cells h hp, size, pduSizeBytes, pduSizeBytes]
  omega

theorem vbuf_of_cells :
    (range p.vbuf.length).map (fun i => m (base + 8 + i : Nat)) = p.vbuf := by
  have hv := (holds_of_cells h hp).right.right
  refine ext_getElem (by simp) fun i _ hi => ?_
  simp [← hv i hi]

theorem check : Check.param m base = .ok b ↔ b = base + p.size ∧ b ≤ blockLen m := by
  have : 8 ≤ p.size := Nat.le_add_right ..
  rw [Check.param, nextParam_of_cells h hp]
  split
  · simp
    omega
  · split
    · simp
      omega
    · simp
      omega

theorem valueSize_of_cells (hs : p.Supported) : valueSize m base = some (p.vbuf.length : Int) := by
  rw [valueSize, epType_of_cells h hp, epLen_of_cells h hp]
  obtain ⟨hl, ht | ht | ht⟩ | ⟨hl, ht | ht | ht⟩ | ht | ht := hs.cases
  all_goals simp [*]

theorem unpack (hs : p.Supported) (hb : base + p.size ≤ blockLen m) :
    Returns (param m base) p.value := by
  have : 8 + p.vbuf.length ≤ p.size := by
    simp only [size, pduSizeBytes]
    omega
  rw [param, if_neg (by omega), valueSize_of_cells h hp hs]
  simp only
  rw [if_neg (by omega), le32_of_cells h hp, epType_of_cells h hp]
  simp only [pure_returns, Int.toNat_natCast, vbuf_of_cells h hp, value]

end Param

section Params

variable {base : Nat} {ps : List Param}

theorem check_params (h : Matches m base (ps.flatMap Param.cells)) (hp : ∀ p ∈ ps, p.Short)
    (hb : base ≤ blockLen m) :
    Check.params m ps.length base = .ok b ↔
      b = base + (ps.map Param.size).sum ∧ b ≤ blockLen m := by
  induction ps generalizing base
  case nil =>
    simp [Check.params]
    omega
  case cons p ps ih =>
    obtain ⟨h₁, h₂⟩ := Matches.append.mp h
    obtain ⟨hp, hps⟩ := forall_mem_cons.mp hp
    have hc b := Param.check h₁ hp (b := b)
    rw [Param.cells_length, Param.need_of_short hp] at h₂
    simp only [length_cons, Check.params, map_cons]
    cases hk : Check.param m base
    case error =>
      have := hc (base + p.size)
      simp [hk, bind, Except.bind] at this ⊢
      omega
    case ok b' =>
      obtain ⟨rfl, hb⟩ := (hc b').mp hk
      simp [bind, Except.bind, ih h₂ hps hb, add_assoc]

theorem unpack_params (h : Matches m base (ps.flatMap Param.cells)) (hp : ∀ p ∈ ps, p.Short)
    (hs : ∀ p ∈ ps, p.Supported) (hb : base + (ps.map Param.size).sum ≤ blockLen m)
    (hf : erFlags m r < missed) (hn : erFlags m r = 0 ∨ 0 < n) :
    Returns (values m r ps.length n base)
      (ps.map Param.value, base + (ps.map Param.size).sum) := by
  induction ps generalizing base n
  case nil => simp [values]
  case cons p ps ih =>
    obtain ⟨h₁, h₂⟩ := Matches.append.mp h
    obtain ⟨hp, hps⟩ := forall_mem_cons.mp hp
    obtain ⟨hs, hss⟩ := forall_mem_cons.mp hs
    rw [Param.cells_length, Param.need_of_short hp] at h₂
    simp only [map_cons, sum_cons] at hb
    have hv : Returns (value m r n base) (p.value, base + p.size) := by
      rw [value, if_neg (by omega), if_neg (by omega)]
      rw [bind_returns, Param.nextParam_of_cells h₁ hp]
      exact ⟨_, Param.unpack h₁ hp hs (by omega), pure_returns.mpr rfl⟩
    have := ih (n := n + 1) h₂ hps hss (by omega) (by omega)
    simp only [length_cons, values, bind_returns]
    exact ⟨_, hv, _, this, by simp [add_assoc]⟩

end Params

namespace Record

-- The count in the header is an `int`.
def Counted (r : Record) : Prop :=
  CInt.int r.nparams = r.nparams

def Short (r : Record) : Prop :=
  ∀ p ∈ r.params, p.Short

variable {r : Record} {a : Nat}

theorem flags_lt (r : Record) : r.flags < 0x100000000 := by
  obtain ⟨_, _, body⟩ := r
  cases body
  case event flags _ => exact flags.toNat_lt
  case missed => exact show missed < 0x100000000 by decide

theorem params_length_le (r : Record) : 16 + 8 * r.params.length ≤ r.size := by
  have : r.params.length * 8 ≤ (r.params.map Param.size).sum := by
    simpa using card_nsmul_le_sum (r.params.map Param.size) 8 (by simp [Param.size])
  rw [size]
  omega

theorem cells_length (hs : r.Short) : r.cells.length = r.size := by
  have : r.params.map (fun p => p.cells.length) = r.params.map Param.size :=
    map_congr_left fun p hp => by rw [Param.cells_length, Param.need_of_short (hs p hp)]
  rw [cells, size, length_append, length_map, head_length, length_flatMap, this]

theorem counted_of_le (h : r.cells.length ≤ intMax) : r.Counted := by
  obtain ⟨sec, usec, body⟩ := r
  cases body
  case event flags params =>
    have : params.length * 8 ≤ (params.map fun p => p.cells.length).sum := by
      simpa using card_nsmul_le_sum (params.map fun p => p.cells.length) 8
        (by simp [Param.need_eq])
    simp only [cells, length_append, length_flatMap, Record.params] at h
    exact int_eq (by simp only [nparams]; omega) (by simp only [nparams]; omega)
  case missed n =>
    have h₁ := n.le_toInt
    have h₂ := n.toInt_lt
    exact int_eq h₁ (Int.le_of_lt_add_one h₂)

theorem params_length_lt (hb : a + r.size ≤ blockLen m) : r.params.length < 0x1000000 := by
  have := blockLen_lt (m := m)
  have := r.params_length_le
  omega

section Header

variable (h : Matches m a r.cells)
include h

theorem holds_of_cells : Holds m a (word r.sec) ∧ Holds m (a + 4 : Nat) (word r.usec) ∧
    Holds m (a + 8 : Nat) (le r.flags) ∧ Holds m (a + 12 : Nat) (word r.nparams) ∧
    Matches m (a + 16 : Nat) (r.params.flatMap Param.cells) := by
  simpa [cells, head, front, Matches.append, Holds.append, and_assoc, add_assoc]
    using h

theorem erFlags_of_cells : erFlags m a = r.flags := by
  rw [erFlags, (holds_of_cells h).right.right.left.le32_eq]
  exact mod_eq_of_lt r.flags_lt

theorem erNparams_of_cells (hc : r.Counted) : erNparams m a = r.nparams := by
  rw [erNparams, word_loadInt (holds_of_cells h).right.right.right.left, hc]

theorem count_of_cells (hr : r.Proper) (hc : r.Counted) :
    Check.nparams m a = .ok (r.params.length : Int) := by
  rw [Check.nparams, erFlags_of_cells h, erNparams_of_cells h hc]
  obtain ⟨_, _, body⟩ := r
  cases body
  case event => exact if_neg (not_le.mpr hr.left)
  case missed => rfl

theorem check (hr : r.Proper) (hc : r.Counted) (hs : r.Short) :
    Check.record m a = .ok b ↔ b = a + r.size ∧ b ≤ blockLen m := by
  rw [Check.record, size]
  split
  · simp
    omega
  · rw [count_of_cells h hr hc]
    simp only [bind, Except.bind, Int.toNat_natCast]
    rw [check_params (holds_of_cells h).right.right.right.right hs (by omega), add_assoc]

theorem unpack_values (hr : r.Proper) (hc : r.Counted) (hs : r.Short)
    (hb : a + r.size ≤ blockLen m) : 0 ≤ Unpack.numpmid m a ∧
      Unpack.Returns (Unpack.values m a (Unpack.numpmid m a).toNat 0 (a + 16))
        (r.values, a + r.size) := by
  have hf := erFlags_of_cells h
  have hn := erNparams_of_cells h hc
  have hm := (holds_of_cells h).right.right.right.right
  have hl := params_length_lt hb
  rw [size, ← add_assoc] at hb
  obtain ⟨sec, usec, body⟩ := r
  cases body
  case missed n =>
    replace hf : erFlags m a = missed := hf
    have hv := Unpack.values_missed (a + 16) hf.ge
    rw [hf, hn] at hv
    have h₂ : Unpack.numpmid m a = 2 := by simp [Unpack.numpmid, hf, missed]
    rw [h₂]
    exact ⟨by decide, hv⟩
  case event flags params =>
    replace hf : erFlags m a = flags.toNat := hf
    replace hn : erNparams m a = params.length := hn
    replace hl : params.length < 0x1000000 := hl
    have hv n := unpack_params (n := n) hm hs hr.right hb (hf.trans_lt hr.left)
    rw [Unpack.numpmid, hf, hn]
    by_cases h₀ : flags = 0
    · subst h₀
      simpa [values, size, Record.params, add_assoc] using hv 0 (.inl hf)
    · have h₀' : flags.toNat ≠ 0 := by simpa [← UInt32.toNat_inj] using h₀
      have hi : int (params.length + 1) = (params.length + 1 : Nat) :=
        int_eq (by omega) (by rw [intMax]; omega)
      rw [if_neg h₀', if_neg (not_le.mpr hr.left), hi]
      refine ⟨by omega, (Unpack.values_flags (hf ▸ h₀')).mpr ⟨_, hv 1 (.inr one_pos), ?_⟩⟩
      simp [values, h₀, hf, size, add_assoc, Record.params]

theorem unpack (hr : r.Proper) (hc : r.Counted) (hs : r.Short) (ht : r.InTime)
    (hb : a + r.size ≤ blockLen m) :
    ∃ rp, Unpack.Returns (Unpack.record m a) (rp, a + r.size) ∧ r.Unpacked rp := by
  obtain ⟨hn, hv⟩ := unpack_values h hr hc hs hb
  obtain ⟨h₁, h₂, -⟩ := holds_of_cells h
  have : 16 ≤ r.size := Nat.le_add_right ..
  simp only [Unpack.record, if_neg (show ¬(a + 16 > blockLen m ∨ Unpack.numpmid m a < 0) by omega),
    Unpack.bind_returns]
  refine ⟨_, ⟨_, hv, rfl⟩, ?_, ?_, rfl⟩
  · rw [word_le32 h₁, ofWord_uint, ht.left]
  · rw [word_le32 h₂, ofWord_uint, ht.right]

end Header

end Record

section Records

variable {base : Nat} {rs : List Record}

theorem check_records (h : Matches m base (cells rs))
    (hr : ∀ r ∈ rs, r.Proper ∧ r.Counted ∧ r.Short) (hb : base ≤ blockLen m) :
    Check.records m rs.length base = .ok b ↔
      b = base + (rs.map Record.size).sum ∧ b ≤ blockLen m := by
  induction rs generalizing base
  case nil =>
    simp [Check.records]
    omega
  case cons r rs ih =>
    obtain ⟨h₁, h₂⟩ := Matches.append.mp h
    obtain ⟨⟨hp, hc, hs⟩, hrs⟩ := forall_mem_cons.mp hr
    have hk b := Record.check h₁ hp hc hs (b := b)
    rw [Record.cells_length hs] at h₂
    simp only [length_cons, Check.records, map_cons]
    cases hr : Check.record m base
    case error =>
      have := hk (base + r.size)
      simp [hr, bind, Except.bind] at this ⊢
      omega
    case ok b' =>
      obtain ⟨rfl, hb⟩ := (hk b').mp hr
      simp [bind, Except.bind, ih h₂ hrs hb, add_assoc]

theorem unpack_records (h : Matches m base (cells rs))
    (hr : ∀ r ∈ rs, r.Proper ∧ r.Counted ∧ r.Short) (ht : ∀ r ∈ rs, r.InTime)
    (hb : base + (rs.map Record.size).sum ≤ blockLen m) :
    ∃ rps, Returns (records m rs.length base) rps ∧
      Forall₂ Record.Unpacked rs rps := by
  induction rs generalizing base
  case nil => exact ⟨[], pure_returns.mpr rfl, .nil⟩
  case cons r rs ih =>
    obtain ⟨h₁, h₂⟩ := Matches.append.mp h
    obtain ⟨⟨hp, hc, hs⟩, hrs⟩ := forall_mem_cons.mp hr
    obtain ⟨ht, hts⟩ := forall_mem_cons.mp ht
    rw [Record.cells_length hs] at h₂
    simp only [map_cons, sum_cons] at hb
    obtain ⟨rp, hu, hq⟩ := Record.unpack h₁ hp hc hs ht (by omega)
    obtain ⟨rps, hus, hqs⟩ := ih h₂ hrs hts (by omega)
    refine ⟨rp :: rps, ?_, .cons hq hqs⟩
    simp only [length_cons, records, bind_returns]
    exact ⟨_, hu, _, hus, rfl⟩

end Records

def Value.Narrow : Value → Prop
  | .param _ _ vbuf => 4 + vbuf.length < 0x1000000
  | _ => True

structure Narrow (rp : Result) : Prop where
  sec : rp.sec < 0x100000000
  usec : rp.usec < 0x100000000
  vset : ∀ v ∈ rp.vset, Value.Narrow v

theorem epLen_lt (base : Nat) : epLen m base < 0x1000000 := by
  have h₀ := (m (base + 4 : Nat)).toNat_lt
  have h₁ := (m ((base + 4 : Nat) + 1)).toNat_lt
  have h₂ := (m ((base + 4 : Nat) + 2)).toNat_lt
  unfold epLen vlen
  omega

theorem valueSize_lt (h : valueSize m base = some n) : 4 + n < 0x1000000 := by
  have := epLen_lt (m := m) base
  unfold valueSize at h
  split at h <;> cases h <;> omega

theorem param_narrow (h : Returns (param m base) v) : Value.Narrow v := by
  unfold param at h
  split at h
  · simp at h
  · split at h
    · simp at h
    case _ vsize hs =>
      have := valueSize_lt hs
      split at h
      · simp at h
      · obtain rfl := pure_returns.mp h
        simp only [Value.Narrow, length_map, length_range]
        omega

theorem value_narrow (h : Returns (value m r n base) x) : Value.Narrow x.1 := by
  unfold value at h
  split at h
  · obtain rfl := pure_returns.mp h
    trivial
  · split at h
    · obtain rfl := pure_returns.mp h
      trivial
    · obtain ⟨v, hv, h⟩ := bind_returns.mp h
      obtain rfl := pure_returns.mp h
      exact param_narrow hv

theorem values_narrow (h : Returns (values m r k n base) x) :
    ∀ v ∈ x.1, Value.Narrow v := by
  induction k generalizing n base x
  case zero =>
    obtain rfl := pure_returns.mp h
    nofun
  case succ k ih =>
    simp only [values, bind_returns, pure_returns] at h
    obtain ⟨_, hv, _, hvs, rfl⟩ := h
    exact forall_mem_cons.mpr ⟨value_narrow hv, ih hvs⟩

theorem record_narrow (h : Returns (record m r) x) : Narrow x.1 := by
  unfold record at h
  split at h
  · simp at h
  · simp only [bind_returns, pure_returns] at h
    obtain ⟨_, hv, rfl⟩ := h
    exact ⟨le32_lt .., le32_lt .., values_narrow hv⟩

theorem records_narrow (h : Returns (records m n base) rps) :
    ∀ rp ∈ rps, Narrow rp := by
  induction n generalizing base rps
  case zero =>
    obtain rfl := pure_returns.mp h
    nofun
  case succ n ih =>
    simp only [records, bind_returns, pure_returns] at h
    obtain ⟨_, hr, _, hrs, rfl⟩ := h
    exact forall_mem_cons.mpr ⟨record_narrow hr, ih hrs⟩

theorem int_ofWord (h : n < 0x100000000) : int (ofWord n) = ofWord n := by
  refine int_eq ?_ ?_ <;> simp only [ofWord, intMax] <;> split <;> omega

namespace Record.Unpacked

theorem inTime (h : Unpacked r rp) (hn : Narrow rp) : r.InTime := by
  rw [InTime, ← h.left, ← h.right.left]
  exact ⟨int_ofWord hn.sec, int_ofWord hn.usec⟩

theorem short (h : Unpacked r rp) (hn : Narrow rp) : r.Short := by
  intro p hp
  have hv : p.value ∈ rp.vset := by
    rw [h.right.right]
    obtain ⟨_, _, body⟩ := r
    cases body
    case event => exact mem_append_right _ (mem_map_of_mem hp)
    case missed => cases hp
  exact hn.vset _ hv

theorem of_mem (h : Forall₂ Unpacked rs rps) (hn : ∀ rp ∈ rps, Narrow rp) :
    ∀ r ∈ rs, r.Short ∧ r.InTime := by
  induction h
  case nil => nofun
  case cons h _ ih =>
    obtain ⟨hn, hns⟩ := forall_mem_cons.mp hn
    exact forall_mem_cons.mpr ⟨⟨h.short hn, h.inTime hn⟩, ih hns⟩

end Record.Unpacked

theorem size_concat : size (rs ++ [r]) = size rs + r.size := by
  simp [size, add_assoc]

theorem size_push {r : Record} (h : r.Ordinary) : (r.push p).size = r.size + p.size := by
  rw [Record.size, Record.size, (Record.push_ordinary h).right.left]
  simp [add_assoc]

theorem size_add (ha : Allows rs c) : size rs ≤ size (add rs c) := by
  cases c
  case addRecord sec usec flags =>
    simp only [add]
    split
    · exact le_rfl
    · simp [size_concat]
  case addMissedRecord => simp [add, size_concat]
  case addParam p =>
    obtain ⟨r, hl, hr⟩ := ha
    obtain ⟨rs, rfl⟩ := getLast?_eq_some_iff.mp hl
    simp only [add, modifyLast_concat]
    split
    · simp only [size_concat, size_push hr]
      omega
    · exact le_rfl

theorem size_foldl (hg : Guarded (fun rs c => some (add rs c)) Allows rs calls) :
    size rs ≤ size (calls.foldl add rs) := by
  induction calls generalizing rs
  case nil => exact le_rfl
  case cons c calls ih => exact (size_add hg.left).trans (ih (hg.right _ rfl))

theorem cells_length_le (rs : List Record) : 8 + (cells rs).length ≤ size rs := by
  have hp (ps : List Param) : (ps.map fun p => p.cells.length).sum ≤ (ps.map Param.size).sum :=
    sum_le_sum fun p _ => by simpa using p.need_le_size
  have hr : (rs.map fun r => r.cells.length).sum ≤ (rs.map Record.size).sum :=
    sum_le_sum fun r _ => by
      simpa [Record.cells, Record.size] using hp r.params
  rw [cells, size, length_flatMap]
  omega

theorem short_of_size (h : size rs < 0x1000000) : ∀ r ∈ rs, r.Short := by
  intro r hr p hp
  have h₁ : r.size ≤ (rs.map Record.size).sum := le_sum_of_mem (mem_map_of_mem hr)
  have h₂ : p.size ≤ (r.params.map Param.size).sum := le_sum_of_mem (mem_map_of_mem hp)
  simp only [size, Record.size, Param.size, pduSizeBytes, Param.Short] at *
  omega

theorem except_bind_ok {x : Except Int Nat} :
    (do let _ ← x : Except Int Unit) = .ok () ↔ ∃ b, x = .ok b := by
  cases x <;> simp [bind, Except.bind, pure, Except.pure]

variable (realloc : Nat → Int)

namespace Packed

theorem checkBuf_defined (need : Nat) (h : Packed b rs) (hs : size rs + need ≤ 0x10000000) :
    ∃ b', Pack.checkBuf realloc b need = some b' := by
  have := h.bptr
  have := cells_length_le rs
  exact Pack.checkBuf_defined (by omega)

theorem newRecord_defined (sec usec : Int) (flags : Nat) (nparams : Int) (h : Packed b rs)
    (hs : size rs ≤ 0x8000000) :
    ∃ b', Pack.newRecord realloc b sec usec flags nparams = some b' := by
  obtain ⟨b', hb⟩ := h.checkBuf_defined realloc 16 (by omega)
  simp [Pack.newRecord, hb]

theorem step_defined (h : Packed b rs) (ha : Allows rs c) (hs : size (add rs c) ≤ 0x8000000) :
    ∃ b', Pack.step realloc b c = some b' := by
  have hl := (size_add ha).trans hs
  cases c
  case addRecord sec usec flags =>
    obtain ⟨b', hb⟩ := h.newRecord_defined realloc sec usec flags.toNat 0 hl
    simp only [Pack.step, Call.run, eventAddRecord]
    split
    · simp
    · simp [hb]
  case addMissedRecord sec usec n =>
    obtain ⟨b', hb⟩ := h.newRecord_defined realloc sec usec missed n.toInt hl
    simp [Pack.step, Call.run, eventAddMissedRecord, hb]
  case addParam p =>
    simp only [Pack.step, Call.run, eventAddParam]
    by_cases hp : p.Supported
    · obtain ⟨r, hr, ho⟩ := ha
      obtain ⟨rs, rfl⟩ := getLast?_eq_some_iff.mp hr
      simp only [add, hp, if_true, modifyLast_concat, size_concat, size_push ho] at hl hs
      have hn := p.need_le_size
      have hv : p.vlen = p.vbuf.length := by
        refine p.vlen_eq ?_
        simp only [Param.size, pduSizeBytes, intMax] at *
        omega
      obtain ⟨b', hb⟩ := h.checkBuf_defined realloc p.need (by simp only [size_concat]; omega)
      have hu : ¬(p.vlen < 0 ∨ p.need > intMax) := by
        rw [intMax]
        omega
      simp [hp, hu, hb]
    · simp [hp]

end Packed

theorem exec_defined (h : Packed b rs)
    (hg : Guarded (fun rs c => some (add rs c)) Allows rs calls)
    (hs : size (calls.foldl add rs) ≤ 0x8000000) :
    ∃ b', exec (step realloc) b calls = some b' := by
  induction calls generalizing b rs
  case nil => exact ⟨b, rfl⟩
  case cons c calls ih =>
    have hg' := hg.right _ rfl
    obtain ⟨b₁, h₁⟩ := h.step_defined realloc hg.left ((size_foldl hg').trans hs)
    obtain ⟨b', hb⟩ := ih (h.step hg.left h₁) hg' hs
    exact ⟨b', by simp [exec, h₁, hb]⟩

theorem exec_packed (h : Packed b rs)
    (hg : Guarded (fun rs c => some (add rs c)) Allows rs calls)
    (he : exec (step realloc) b calls = some b') : Packed b' (calls.foldl add rs) :=
  exec_follows (fun _ _ _ _ h ha hs => h.step ha hs) h hg he

namespace Packed

variable (h : Packed b rs)
include h

theorem header_holds :
    Holds (eventGetAddr b) 0 (header PmType.event (8 + (cells rs).length)) := by
  have hn : (b.bptr - b.baddr).toNat = 8 + (cells rs).length := by
    have := h.bptr
    omega
  intro i hi
  rw [zero_add, eventGetAddr, hn]
  exact Holds.write i hi

theorem array_matches :
    Holds (eventGetAddr b) (4 : Nat) (le rs.length) ∧
      Matches (eventGetAddr b) (8 : Nat) (cells rs) := by
  have hm : Matches (eventGetAddr b) (0 + 4) (layout rs) := by
    have := h.mem.beside_write (k := header PmType.event (b.bptr - b.baddr).toNat) (.inr le_rfl)
    refine this.move fun i _ => ?_
    simp only [eventGetAddr]
    simp [add_assoc]
  exact layout_known hm

theorem cells_length_le_intMax : (cells rs).length ≤ intMax := by
  have := h.bptr
  have := h.end_le
  have := h.blen
  omega

theorem counted : ∀ r ∈ rs, r.Counted := by
  intro r hr
  have hl : r.cells.length ≤ (cells rs).length := by
    rw [cells, length_flatMap]
    exact le_sum_of_mem (mem_map_of_mem hr)
  exact Record.counted_of_le (by have := h.cells_length_le_intMax; omega)

theorem eaNrecords_eq : eaNrecords (eventGetAddr b) = rs.length := by
  have hl : rs.length * 16 ≤ (cells rs).length := by
    rw [cells]
    simpa using card_nsmul_le_sum (rs.map fun r => r.cells.length) 16 (by simp [Record.cells])
  have := h.cells_length_le_intMax
  have hw := h.array_matches.left
  rw [← word_natCast] at hw
  rw [eaNrecords, word_loadInt hw]
  exact int_eq (by omega) (by omega)

theorem blockLen_eq (hs : ∀ r ∈ rs, r.Short) (hl : size rs < 0x1000000) :
    blockLen (eventGetAddr b) = size rs := by
  have hm : rs.map (fun r => r.cells.length) = rs.map Record.size :=
    map_congr_left fun r hr => Record.cells_length (hs r hr)
  have hh := h.header_holds
  rw [cells, length_flatMap, hm] at hh
  exact header_vlen hh hl

theorem checkEventRecords_iff (hs : ∀ r ∈ rs, r.Short) :
    checkEventRecords (eventGetAddr b) = .ok () ↔ size rs < 0x1000000 := by
  have hv := h.blockLen_eq hs
  have hb := blockLen_lt (m := eventGetAddr b)
  have hk b' := check_records (b := b') h.array_matches.right
    (fun r hr => ⟨h.proper r hr, h.counted r hr, hs r hr⟩)
  have h₈ : 8 ≤ size rs := Nat.le_add_right ..
  rw [checkEventRecords, header_vtype h.header_holds, if_neg (not_not.mpr rfl)]
  split
  case isTrue =>
    simp only [reduceCtorEq, false_iff]
    omega
  case isFalse =>
    rw [h.eaNrecords_eq, if_neg (by omega), Int.toNat_natCast, except_bind_ok]
    simp only [hk _ (by omega), exists_eq_left]
    rw [← size]
    omega

theorem roundTrips_iff : RoundTrips (eventGetAddr b) rs ↔ Fits rs := by
  have hu (hc : checkEventRecords (eventGetAddr b) = .ok ()) :
      unpackEventRecords (eventGetAddr b) = records (eventGetAddr b) rs.length 8 := by
    simp [unpackEventRecords, hc, h.eaNrecords_eq]
  constructor
  · rintro ⟨hc, rps, hr, hf⟩
    rw [hu hc] at hr
    have hn := records_narrow hr
    have hm := Record.Unpacked.of_mem hf hn
    exact ⟨(h.checkEventRecords_iff fun r hr => (hm r hr).left).mp hc, fun r hr => (hm r hr).right⟩
  · rintro ⟨hl, ht⟩
    have hs := short_of_size hl
    have hc := (h.checkEventRecords_iff hs).mpr hl
    obtain ⟨rps, hr, hf⟩ := unpack_records h.array_matches.right
      (fun r hr => ⟨h.proper r hr, h.counted r hr, hs r hr⟩) ht
      (h.blockLen_eq hs hl).ge
    exact ⟨hc, rps, (hu hc).symm ▸ hr, hf⟩

end Packed

theorem exec_unpacked (hb : b.Valid) (hr : eventResetArray realloc b = some b₀)
    (hg : Run.Guarded (fun rs c => some (add rs c)) Allows [] calls) :
    (∃ b', Run.exec (step realloc) b₀ calls = some b' ∧
        RoundTrips (eventGetAddr b') (calls.foldl add [])) ↔
      Fits (calls.foldl add []) := by
  have h₀ := reset_packed hb hr
  constructor
  · rintro ⟨b', he, ht⟩
    exact (exec_packed realloc h₀ hg he).roundTrips_iff.mp ht
  · intro hf
    obtain ⟨b', he⟩ := exec_defined realloc h₀ hg (by have := hf.left; omega)
    exact ⟨b', he, (exec_packed realloc h₀ hg he).roundTrips_iff.mpr hf⟩

def someCalls (s : List UInt8) : List Call :=
  [.addRecord 1 2 0, .addParam (.string 3 s), .addMissedRecord 4 5 6]

theorem someCalls_allowed :
    Guarded (fun rs c => some (add rs c)) Allows [] (someCalls s) := by
  refine ⟨trivial, ?_⟩
  rintro _ ⟨⟩
  refine ⟨⟨_, rfl, trivial⟩, ?_⟩
  rintro _ ⟨⟩
  exact ⟨trivial, fun _ _ => trivial⟩

theorem size_someCalls : size ((someCalls s).foldl add []) = 48 + pduSizeBytes s.length := by
  have : (someCalls s).foldl add [] =
      [⟨1, 2, .event 0 [.string 3 s]⟩, ⟨4, 5, .missed 6⟩] := rfl
  rw [this]
  simp [size, Record.size, Record.params, Param.size, Param.string]
  omega

theorem newArray_reset (realloc : Nat → Int) :
    ∃ b₀, eventResetArray realloc newArray = some b₀ := by
  obtain ⟨b, hb⟩ : ∃ b, checkBuf realloc newArray 8 = some b := checkBuf_defined (by decide)
  simp [eventResetArray, hb]

theorem exec_unpacked_some : ∃ b₀ b', eventResetArray Int.ofNat newArray = some b₀ ∧
    Run.exec (step Int.ofNat) b₀ (someCalls [104, 105]) = some b' ∧
    RoundTrips (eventGetAddr b') ((someCalls [104, 105]).foldl add []) := by
  obtain ⟨b₀, hr⟩ := newArray_reset Int.ofNat
  obtain ⟨b', he, ht⟩ :=
    (exec_unpacked Int.ofNat newArray_valid hr (someCalls_allowed (s := [104, 105]))).mpr
      (by decide)
  exact ⟨b₀, b', hr, he, ht⟩

theorem exec_truncated : ∃ b₀ b', eventResetArray Int.ofNat newArray = some b₀ ∧
    Run.exec (step Int.ofNat) b₀ (someCalls (List.replicate 0x1000000 65)) = some b' ∧
    ¬RoundTrips (eventGetAddr b') ((someCalls (List.replicate 0x1000000 65)).foldl add []) := by
  obtain ⟨b₀, hr⟩ := newArray_reset Int.ofNat
  have h₀ := reset_packed newArray_valid hr
  have hg := someCalls_allowed (s := replicate 0x1000000 65)
  have hs : size ((someCalls (replicate 0x1000000 65)).foldl add []) = 48 + 0x1000000 := by
    rw [size_someCalls, length_replicate, pduSizeBytes]
  obtain ⟨b', he⟩ := exec_defined Int.ofNat h₀ hg (by omega)
  refine ⟨b₀, b', hr, he, fun ht => ?_⟩
  have := ((exec_packed Int.ofNat h₀ hg he).roundTrips_iff.mp ht).left
  omega

end Events.Pack
