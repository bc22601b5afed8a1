import PcpModel.Events.Pack

namespace Events.Pack

open Memory PduResult List CInt Option

theorem le_congr (h : n % 0x100000000 = n' % 0x100000000) : le n = le n' := by
  simp only [le, be, reverse_cons, reverse_nil, nil_append, cons_append,
    cons.injEq, and_true, ← UInt8.toNat_inj, UInt8.toNat_ofNat']
  omega

theorem word_natCast (n : Nat) : word n = le n := by
  refine le_congr ?_
  simp only [uint]
  omega

@[simp]
theorem word_length : (word n).length = 4 :=
  rfl

theorem ofWord_uint (n : Int) : ofWord (uint n).toNat = int n := by
  rw [ofWord, uint, int, Int.bmod_def]
  by_cases h : n % 2 ^ 32 < 0x80000000
  · rw [if_pos (by omega)]
    omega
  · rw [if_neg (by omega)]
    omega

theorem word_le32 (h : Holds m a (word n)) : le32 m a = (uint n).toNat := by
  rw [h.le32_eq, uint]
  omega

theorem word_loadInt (h : Holds m (a : Nat) (word n)) : loadInt m a = int n := by
  rw [loadInt, word_le32 h, ofWord_uint]

theorem int_le (n : Nat) : int n ≤ n := by
  rw [int, Int.bmod_def]
  split <;> omega

theorem sizeof_eq (h : n ∈ sizeof type) : n = 4 ∨ n = 8 := by
  simp only [sizeof] at h
  grind

namespace Param

variable (p : Param)

theorem vlen_le : p.vlen ≤ p.vbuf.length := by
  unfold vlen
  split
  case _ n h => rw [p.sized n h]
  case _ =>
    split
    · exact int_le _
    · exact le_rfl

theorem vlen_eq (h : p.vbuf.length ≤ intMax) : p.vlen = p.vbuf.length := by
  unfold vlen
  split
  case _ n hn => rw [p.sized n hn]
  case _ =>
    split
    · exact int_eq (by omega) h
    · rfl

theorem need_eq : p.need = 8 + pduSizeBytes p.vlen.toNat := by
  unfold need
  split
  case _ n h =>
    obtain rfl | rfl := sizeof_eq h <;> simp [vlen, h, pduSizeBytes]
  case _ => rfl

theorem bytes_length : p.bytes.length = 8 + p.vlen.toNat := by
  have := p.vlen_le
  simp only [bytes, length_append, le_length, header_length, length_take]
  omega

theorem bytes_length_le : p.bytes.length ≤ p.need := by
  rw [bytes_length, need_eq, pduSizeBytes]
  omega

def cells : List (Option UInt8) :=
  p.bytes.map some ++ List.replicate (p.need - p.bytes.length) none

@[simp]
theorem cells_length : p.cells.length = p.need := by
  have := p.bytes_length_le
  simp only [cells, length_append, length_map, length_replicate]
  omega

end Param

namespace Record

variable (r : Record)

def flags : Nat :=
  match r.body with
  | .event flags _ => flags.toNat
  | .missed _ => missed

def nparams : Int :=
  match r.body with
  | .event _ params => params.length
  | .missed n => n.toInt

def params : List Param :=
  match r.body with
  | .event _ params => params
  | .missed _ => []

def front : List UInt8 :=
  word r.sec ++ word r.usec ++ le r.flags

def head : List UInt8 :=
  r.front ++ word r.nparams

def cells : List (Option UInt8) :=
  r.head.map some ++ r.params.flatMap Param.cells

@[simp]
theorem front_length : r.front.length = 12 :=
  rfl

@[simp]
theorem head_length : r.head.length = 16 :=
  rfl

-- The records that are added have no other flags and no other types.
def Proper : Prop :=
  match r.body with
  | .event flags params => flags.toNat < missed ∧ ∀ p ∈ params, p.Supported
  | .missed _ => True

variable {r}

theorem push_ordinary (h : r.Ordinary) : (r.push p).front = r.front ∧
    (r.push p).params = r.params ++ [p] ∧ (r.push p).nparams = r.nparams + 1 ∧
    r.nparams = r.params.length := by
  obtain ⟨_, _, body⟩ := r
  cases body
  case event => simp [push, front, flags, params, nparams]
  case missed => cases h

theorem Proper.push (h : r.Proper) (hp : p.Supported) : (r.push p).Proper := by
  obtain ⟨_, _, body⟩ := r
  cases body
  case event => simpa [Proper, Record.push, or_imp, forall_and, hp] using h
  case missed => exact h

end Record

def cells (rs : List Record) : List (Option UInt8) :=
  rs.flatMap Record.cells

def layout (rs : List Record) : List (Option UInt8) :=
  (le rs.length).map some ++ cells rs

theorem cells_concat : cells (rs ++ [r]) = cells rs ++ r.cells := by
  simp [cells]

theorem layout_concat {e : Int} (he : e = a + 8 + (cells rs).length) :
    Matches m (a + 4) (layout (rs ++ [r])) ↔
      Holds m (a + 4) (le (rs.length + 1)) ∧ Matches m (a + 8) (cells rs) ∧ Holds m e r.front ∧
        Holds m (e + 12) (word r.nparams) ∧ Matches m (e + 16) (r.params.flatMap Param.cells) := by
  subst he
  simp [layout, cells_concat, Record.cells, Record.head, Matches.append, Holds.append, add_assoc,
    and_assoc, -map_append]

theorem layout_known (h : Matches m (a + 4) (layout rs)) :
    Holds m (a + 4) (le rs.length) ∧ Matches m (a + 8) (cells rs) := by
  simpa [layout, Matches.append, add_assoc] using h

structure Packed (b : Buf) (rs : List Record) : Prop where
  proper : ∀ r ∈ rs, r.Proper
  bptr : b.bptr = b.baddr + 8 + (cells rs).length
  end_le : b.bptr ≤ b.baddr + b.blen
  blen : b.blen ≤ CInt.intMax
  mem : Matches b.mem (b.baddr + 4) (layout rs)
  berp : ∀ rs' r, rs = rs' ++ [r] → b.berp = b.baddr + 8 + (cells rs').length

theorem increment_holds (h : Holds m a (le n)) : Holds (increment m a) a (le (n + 1)) := by
  have : le (le32 m a + 1) = le (n + 1) := by
    rw [h.le32_eq]
    refine le_congr ?_
    omega
  rw [increment, this]
  exact .write

theorem increment_beside (h : Matches m a l) (hd : a + l.length ≤ b ∨ b + 4 ≤ a) :
    Matches (increment m b) a l :=
  h.beside_write hd

namespace Packed

theorem moved (h : Packed b rs) (hm : Moved b b') (hl : b'.blen ≤ intMax) : Packed b' rs := by
  have hb := hm.bptr
  have hr := hm.berp
  have hn := hm.blen
  have hp := h.bptr
  have he := h.end_le
  refine ⟨h.proper, by omega, by omega, hl, h.mem.move fun i hi => ?_, fun rs' r hs => ?_⟩
  · simp only [layout, length_append, length_map, le_length] at hi
    have := hm.mem (4 + i) (by omega) (by omega)
    rwa [← add_assoc, ← add_assoc] at this
  · have := h.berp rs' r hs
    omega

variable {realloc : Nat → Int}

theorem checkBuf (h : Packed b rs) (hc : checkBuf realloc b need = some b') :
    Packed b' rs ∧ b'.bptr + need + 1 < b'.baddr + b'.blen := by
  obtain ⟨hm, hn, hl⟩ := checkBuf_moved hc
  exact ⟨h.moved hm (hl h.blen), hn⟩

theorem newRecord (h : Packed b rs) (hr : r.Proper) (hp : r.params = [])
    (hn : newRecord realloc b r.sec r.usec r.flags r.nparams = some b') :
    Packed b' (rs ++ [r]) := by
  simp only [Pack.newRecord, bind_eq_bind, bind_eq_some_iff, Option.pure_def,
    some.injEq] at hn
  obtain ⟨b₁, hc, rfl⟩ := hn
  obtain ⟨h, hn⟩ := h.checkBuf hc
  have hb := h.bptr
  obtain ⟨hm₁, hm₂⟩ := layout_known h.mem
  have hl : r.cells.length = 16 := by simp [Record.cells, hp]
  have hh : Holds (write (increment b₁.mem (b₁.baddr + 4)) b₁.bptr r.head) b₁.bptr r.head := .write
  refine ⟨?_, ?_, by simp only; omega, h.blen, (layout_concat hb).mpr ⟨?_, ?_, ?_, ?_, ?_⟩, ?_⟩
  · simpa [or_imp, forall_and] using ⟨h.proper, hr⟩
  · simp only [cells_concat, length_append]
    omega
  · exact (increment_holds hm₁).beside_write (by simp; omega)
  · exact (increment_beside hm₂ (by omega)).beside_write (by omega)
  · exact (Holds.append.mp hh).left
  · exact (Holds.append.mp hh).right
  · simp [hp]
  · intro rs' r' hs
    obtain ⟨rfl, -⟩ := append_inj' hs rfl
    exact hb

-- The number of parameters is part of the header of the record, which is somewhere in the buffer.
theorem addParam (h : Packed b (rs ++ [r])) (hr : r.Ordinary) (hp : p.Supported)
    (ha : eventAddParam realloc b p = some (sts, b')) : Packed b' (rs ++ [r.push p]) := by
  simp only [eventAddParam, hp, not_true, if_false] at ha
  split at ha
  case isTrue => contradiction
  case isFalse hv =>
    simp only [bind_eq_bind, bind_eq_some_iff, Option.pure_def,
      some.injEq] at ha
    obtain ⟨b₁, hc, -, rfl⟩ := ha
    obtain ⟨h, hn⟩ := h.checkBuf hc
    have hb := h.bptr
    have he := h.berp rs r rfl
    obtain ⟨hm₁, hm₂, hm₃, hm₄, hm₅⟩ := (layout_concat he).mp h.mem
    obtain ⟨hf, hq, hc, hl⟩ := Record.push_ordinary (p := p) hr
    have hr : r.cells.length = 16 + (r.params.flatMap Param.cells).length := by
      simp [Record.cells]
    rw [cells_concat, length_append] at hb
    refine ⟨?_, ?_, by simp only; omega, h.blen, (layout_concat he).mpr ⟨?_, ?_, ?_, ?_, ?_⟩, ?_⟩
    · intro r' hr'
      obtain hr' | rfl := mem_append.mp hr' |>.imp_right mem_singleton.mp
      · exact h.proper r' (mem_append_left _ hr')
      · exact (h.proper r (by simp)).push hp
    · simp [cells_concat, Record.cells, hq, -length_flatMap]
      omega
    · exact (hm₁.beside_write (by simp; omega)).beside_write (by simp; omega)
    · exact increment_beside (hm₂.beside_write (by omega)) (by omega)
    · rw [hf]
      exact (hm₃.beside_write (by simp; omega)).beside_write (by simp)
    · rw [hl, word_natCast] at hm₄
      rw [hc, hl, ← Nat.cast_succ, word_natCast]
      exact increment_holds (hm₄.beside_write (by simp; omega))
    · rw [hq, flatMap_append, flatMap_singleton, Matches.append]
      refine ⟨increment_beside (hm₅.beside_write (by omega)) (by omega), ?_⟩
      rw [show b₁.berp + 16 + (r.params.flatMap Param.cells).length = b₁.bptr by omega]
      refine increment_beside ?_ (by omega)
      exact Matches.append.mpr ⟨Matches.known.mpr .write, .free⟩
    · intro rs' r' hs
      obtain ⟨rfl, -⟩ := append_inj' hs rfl
      exact he

theorem step (h : Packed b rs) (ha : Allows rs c) (hs : step realloc b c = some b') :
    Packed b' (add rs c) := by
  obtain ⟨⟨sts, b'⟩, hc, rfl⟩ := map_eq_some_iff.mp hs
  cases c
  case addRecord sec usec flags =>
    simp only [Call.run, eventAddRecord] at hc
    simp only [add]
    split at hc
    case isTrue hf =>
      cases hc
      rwa [if_pos hf]
    case isFalse hf =>
      obtain ⟨b₁, hn, hc⟩ := map_eq_some_iff.mp hc
      cases hc
      rw [if_neg hf]
      exact h.newRecord ⟨not_le.mp hf, nofun⟩ rfl hn
  case addMissedRecord sec usec n =>
    obtain ⟨b₁, hn, hc⟩ := map_eq_some_iff.mp hc
    cases hc
    exact h.newRecord trivial rfl hn
  case addParam p =>
    by_cases hp : p.Supported
    · obtain ⟨r, hl, hr⟩ := ha
      obtain ⟨rs, rfl⟩ := getLast?_eq_some_iff.mp hl
      simp only [add, hp, modifyLast_concat]
      exact h.addParam hr hp hc
    · simp only [Call.run, eventAddParam, hp, not_false_eq_true, if_true, some.injEq,
        Prod.mk.injEq] at hc
      simpa only [add, hp, if_false, ← hc.right] using h

end Packed

theorem reset_packed (hb : b.Valid) (hr : eventResetArray realloc b = some b₀) : Packed b₀ [] := by
  simp only [eventResetArray, bind_eq_bind, bind_eq_some_iff, Option.pure_def,
    some.injEq] at hr
  obtain ⟨b₁, hc, rfl⟩ := hr
  obtain ⟨hm, hn, hl⟩ := checkBuf_moved hc
  have hp := hm.bptr
  have ⟨h₀, h₁⟩ := hb
  refine ⟨nofun, by simp [cells], ?_, hl h₁, ?_, by simp⟩
  · simp only
    omega
  · simpa [layout, cells] using Holds.write

end Events.Pack
