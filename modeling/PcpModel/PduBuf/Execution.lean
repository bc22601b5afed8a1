import PcpModel.PduBuf.Counts

open Linked

namespace PduBuf

inductive Op
  | find (need mem : Int)
  | pin (handle : Int)
  | unpin (handle : Int)

structure Call where
  before : Pool
  after : Pool
  unpins : Bool
  handle : Int

structure Traced where
  pool : Pool
  calls : List Call

namespace Traced

def init : Traced where
  pool := .init
  calls := []

def record (s : Traced) (p : Pool) (unpins : Bool) (handle : Int) : Traced where
  pool := p
  calls := { before := s.pool, after := p, unpins, handle } :: s.calls

def step (s : Traced) : Op → Option Traced
  | .find need mem => do
    match ← pmFindPDUBuf s.pool need mem with
    | (p, some handle) => return s.record p false handle
    | (_, none) => none
  | .pin handle => return s.record (← pmPinPDUBuf s.pool handle) false handle
  | .unpin handle => return s.record (← pmUnpinPDUBuf s.pool handle).fst true handle

def Allows (s : Traced) : Op → Prop
  | .find need mem => 0 ≤ need ∧ need ≤ CInt.intMax ∧
    (s.pool.fit need = some none → Valloc s.pool.ctl.mem s.pool.nctl (newSize need) mem)
  | .pin handle | .unpin handle => handle % 4 = 0

end Traced

namespace Call

def Targets (c : Call) (r : Ref) : Prop :=
  r < c.after.nctl ∧ (c.after.ctl.mem r).Holds c.handle

def FromFree (c : Call) (r : Ref) : Prop :=
  ∃ fs, IsList c.before.ctl.next c.before.bufFree fs ∧ r ∈ fs

-- The number of pins minus the number of unpins of `r` since it last left the free list.
open Classical in
noncomputable def balance (r : Ref) : List Call → Int
  | [] => 0
  | c :: cs =>
    if ¬c.Targets r then balance r cs
    else if c.unpins then balance r cs - 1
    else if c.FromFree r then 1
    else balance r cs + 1

variable {c : Call} {cs : List Call}

theorem balance_of_not_targets (h : ¬c.Targets r) : balance r (c :: cs) = balance r cs := by
  simp [balance, h]

theorem balance_unpin (h : c.Targets r) (hu : c.unpins) :
    balance r (c :: cs) = balance r cs - 1 := by
  simp [balance, h, hu]

theorem balance_pin (h : c.Targets r) (hu : c.unpins = false) (hf : ¬c.FromFree r) :
    balance r (c :: cs) = balance r cs + 1 := by
  simp [balance, h, hu, hf]

theorem balance_first_pin (h : c.Targets r) (hu : c.unpins = false) (hf : c.FromFree r) :
    balance r (c :: cs) = 1 := by
  simp [balance, h, hu, hf]

end Call

open Call

namespace Traced

structure Balanced (s : Traced) : Prop where
  sound : ∃ fs ps, s.pool.Sound fs ps
  cnt : ∀ r < s.pool.nctl, s.pool.ctl.pincnt r = max (balance r s.calls) 0
  fresh : ∀ r, s.pool.nctl ≤ r → balance r s.calls = 0

variable {s : Traced}

theorem Balanced.init : Traced.init.Balanced where
  sound := ⟨_, _, Pool.Sound.init⟩
  cnt := by simp [Traced.init, Pool.init]
  fresh := by simp [balance, Traced.init]

theorem fromFree_iff (h : s.pool.Sound fs ps) :
    FromFree ⟨s.pool, p, u, a⟩ r ↔ r < s.pool.nctl ∧ s.pool.ctl.pincnt r = 0 := by
  have hf : FromFree ⟨s.pool, p, u, a⟩ r ↔ r ∈ fs :=
    ⟨fun ⟨_, hf, hr⟩ => hf.unique h.free ▸ hr, fun hr => ⟨fs, h.free, hr⟩⟩
  rw [hf]
  exact ⟨fun hr => ⟨h.lt_nctl_of_mem_free hr, h.free_cnt r hr⟩,
    fun ⟨hr, h₀⟩ => h.mem_free_iff hr |>.mpr h₀⟩

theorem targets_iff (h : p.Sound fs ps) (hr : r < p.nctl) (hh : (p.ctl.mem r).Holds a) :
    Targets ⟨q, p, u, a⟩ r' ↔ r' = r :=
  ⟨fun ⟨hr', hh'⟩ => h.geometry.holds_unique hr' hr hh' hh, fun he => he ▸ ⟨hr, hh⟩⟩

theorem Balanced.unknown (b : s.Balanced) (hh : ∀ r < s.pool.nctl, ¬(s.pool.ctl.mem r).Holds a) :
    (s.record s.pool u a).Balanced := by
  have ht (r) : ¬Targets ⟨s.pool, s.pool, u, a⟩ r := fun ⟨hr, hh'⟩ => hh r hr hh'
  refine ⟨b.sound, fun r hr => ?_, fun r hr => ?_⟩
  · rw [record, balance_of_not_targets (ht r)]
    exact b.cnt r hr
  · rw [record, balance_of_not_targets (ht r)]
    exact b.fresh r hr

-- A call that pins the buffer `r`, which may have been allocated by that call.
theorem Balanced.pin (b : s.Balanced) (hs : ∃ fs ps, p.Sound fs ps) (hr : r < p.nctl)
    (hh : (p.ctl.mem r).Holds a)
    (hc : p.ctl.pincnt r = if r < s.pool.nctl then s.pool.ctl.pincnt r + 1 else 1)
    (hc' : ∀ r' ≠ r, p.ctl.pincnt r' = s.pool.ctl.pincnt r')
    (hn : ∀ r' < p.nctl, r' ≠ r → r' < s.pool.nctl) (hle : s.pool.nctl ≤ p.nctl) :
    (s.record p false a).Balanced := by
  have ⟨_, _, hp⟩ := hs
  have ⟨_, _, hs'⟩ := b.sound
  have ht {r'} : Targets ⟨s.pool, p, false, a⟩ r' ↔ r' = r := targets_iff hp hr hh
  refine ⟨hs, fun r' hr' => ?_, fun r' hr' => ?_⟩ <;> simp only [record] at *
  · by_cases he : r' = r
    case neg =>
      rw [balance_of_not_targets (ht.not.mpr he), hc' r' he]
      exact b.cnt r' (hn r' hr' he)
    case pos =>
      subst he
      by_cases hf : r' < s.pool.nctl ∧ s.pool.ctl.pincnt r' = 0
      case pos =>
        rw [balance_first_pin (ht.mpr rfl) rfl (fromFree_iff hs' |>.mpr hf), hc]
        simp [hf]
      case neg =>
        rw [balance_pin (ht.mpr rfl) rfl (fromFree_iff hs' |>.not.mpr hf), hc]
        split
        case isTrue hr => have := b.cnt r' hr; omega
        case isFalse hr => have := b.fresh r' (by omega); omega
  · have hne : r' ≠ r := by omega
    rw [balance_of_not_targets (ht.not.mpr hne)]
    exact b.fresh r' (by omega)

theorem Balanced.unpin (b : s.Balanced) (hr : r < s.pool.nctl) (hh : (s.pool.ctl.mem r).Holds a)
    (h₁ : 1 ≤ s.pool.ctl.pincnt r) (hc : Counted s.pool p r (s.pool.ctl.pincnt r - 1)) :
    (s.record p true a).Balanced := by
  have ⟨_, _, hp⟩ := hc.sound
  have ht {r'} : Targets ⟨s.pool, p, true, a⟩ r' ↔ r' = r :=
    targets_iff hp (hc.nctl ▸ hr) (hc.mem ▸ hh)
  refine ⟨hc.sound, fun r' hr' => ?_, fun r' hr' => ?_⟩ <;>
    simp only [record, hc.pincnt, hc.nctl] at *
  · by_cases he : r' = r
    case neg =>
      rw [balance_of_not_targets (ht.not.mpr he), Function.update_of_ne he]
      exact b.cnt r' hr'
    case pos =>
      subst he
      rw [balance_unpin (ht.mpr rfl) rfl, Function.update_self]
      have := b.cnt r' hr
      omega
  · have hne : r' ≠ r := by omega
    rw [balance_of_not_targets (ht.not.mpr hne)]
    exact b.fresh r' hr'

-- The balance of a buffer that is not pinned may fall below zero.
theorem Balanced.unpin_unpinned (b : s.Balanced)
    (hh : ∀ r < s.pool.nctl, (s.pool.ctl.mem r).Holds a → s.pool.ctl.pincnt r = 0) :
    (s.record s.pool true a).Balanced := by
  refine ⟨b.sound, fun r hr => ?_, fun r hr => ?_⟩ <;> simp only [record] at *
  · have hc := b.cnt r hr
    by_cases ht : Targets ⟨s.pool, s.pool, true, a⟩ r
    case pos =>
      rw [balance_unpin ht rfl]
      have := hh r hr ht.right
      omega
    case neg => rw [balance_of_not_targets ht, hc]
  · have ht : ¬Targets ⟨s.pool, s.pool, true, a⟩ r := fun ⟨hr', _⟩ => Nat.not_lt.mpr hr hr'
    rw [balance_of_not_targets ht]
    exact b.fresh r hr

theorem Balanced.step (b : s.Balanced) (ha : s.Allows op) :
    ∃ s', s.step op = some s' ∧ s'.Balanced := by
  have ⟨fs, ps, hs⟩ := b.sound
  cases op
  case find need mem =>
    have ⟨h₀, hm, hv⟩ := ha
    have ⟨p, r, hp, hf, _⟩ := pmFindPDUBuf_eq hs h₀ hm hv
    have ⟨_, _, hs'⟩ := hf.sound
    refine ⟨s.record p false (p.ctl.mem r).buf, by simp [Traced.step, hp], ?_⟩
    refine b.pin hf.sound hf.lt_nctl (hs'.geometry.holds_buf hf.lt_nctl) ?_ ?_ hf.only hf.nctl_le
    · rw [hf.pincnt, if_pos rfl]
      split
      case isTrue hr => rw [hf.unused hr, zero_add]
      case isFalse => rfl
    · intro r' hne
      rw [hf.pincnt, if_neg hne]
  case pin a =>
    by_cases hh : ∃ r < s.pool.nctl, (s.pool.ctl.mem r).Holds a
    case pos =>
      have ⟨r, hr, hh⟩ := hh
      have ⟨p, hp, hc⟩ := pmPinPDUBuf_eq hs ha hr hh
      refine ⟨s.record p false a, by simp [Traced.step, hp], ?_⟩
      refine b.pin hc.sound (hc.nctl ▸ hr) (hc.mem ▸ hh) ?_ ?_ (fun _ h _ => hc.nctl ▸ h) hc.nctl.ge
      · simp [hc.pincnt, hr]
      · intro r' hne
        simp [hc.pincnt, hne]
    case neg =>
      push Not at hh
      have hp := pmPinPDUBuf_unknown hs ha hh
      exact ⟨s.record s.pool false a, by simp [Traced.step, hp], b.unknown hh⟩
  case unpin a =>
    by_cases hh : ∃ r < s.pool.nctl, (s.pool.ctl.mem r).Holds a ∧ 1 ≤ s.pool.ctl.pincnt r
    case pos =>
      have ⟨r, hr, hh, h₁⟩ := hh
      have ⟨p, hp, hc⟩ := pmUnpinPDUBuf_eq hs ha hr hh h₁
      exact ⟨s.record p true a, by simp [Traced.step, hp], b.unpin hr hh h₁ hc⟩
    case neg =>
      push Not at hh
      have hh : ∀ r < s.pool.nctl, (s.pool.ctl.mem r).Holds a → s.pool.ctl.pincnt r = 0 := by
        intro r hr hh'
        have := hh r hr hh'
        have := hs.pincnt_nonneg hr
        omega
      have hp := pmUnpinPDUBuf_unpinned hs ha hh
      exact ⟨s.record s.pool true a, by simp [Traced.step, hp], b.unpin_unpinned hh⟩

theorem exec_pool (hg : Run.Guarded step Allows init ops) :
    ∃ s, Run.exec step init ops = some s ∧ ∃ fs ps, s.pool.Lists fs ps ∧
      (∀ r, r ∈ ps ↔ 1 ≤ balance r s.calls) ∧
      (∀ r ∈ ps, s.pool.ctl.pincnt r = balance r s.calls) ∧ Geometry s.pool.ctl.mem s.pool.nctl ∧
      (∀ need mem, s.Allows (.find need mem) →
        ∃ p r, pmFindPDUBuf s.pool need mem = some (p, some (p.ctl.mem r).buf) ∧
          need ≤ (p.ctl.mem r).size ∧ r < p.nctl ∧ r ∉ ps ∧ Geometry p.ctl.mem p.nctl) := by
  have ⟨s, he, b⟩ := Run.exec_invariant (fun _ _ b => b.step) Balanced.init hg
  have ⟨fs, ps, hs⟩ := b.sound
  have hb (r) : r ∈ ps ↔ 1 ≤ balance r s.calls := by
    by_cases hr : r < s.pool.nctl
    case pos => have := b.cnt r hr; rw [hs.mem_pin_iff hr]; omega
    case neg =>
      have := b.fresh r (Nat.not_lt.mp hr)
      exact iff_of_false (fun hm => hr <| hs.lt_nctl_of_mem_pin hm) (by omega)
  refine ⟨s, he, fs, ps, hs.toLists, hb, fun r hr => ?_, hs.geometry, ?_⟩
  · have := (hb r).mp hr
    have := b.cnt r (hs.lt_nctl_of_mem_pin hr)
    omega
  · intro need mem ⟨h₀, hm, hv⟩
    have ⟨p, r, hp, hf, hn⟩ := pmFindPDUBuf_eq hs h₀ hm hv
    have ⟨_, _, hs'⟩ := hf.sound
    refine ⟨p, r, hp, hn, hf.lt_nctl, fun hr => ?_, hs'.geometry⟩
    have h₀ := hf.unused (hs.lt_nctl_of_mem_pin hr)
    have h₁ := hs.pin_cnt r hr
    omega

theorem exec_pool_find_pin_unpin :
    let ops := [.find 16 4096, .pin 4096, .unpin 4100]
    ∃ s, Run.exec step init ops = some s ∧ ∃ fs ps, s.pool.Lists fs ps ∧
      (∀ r, r ∈ ps ↔ 1 ≤ balance r s.calls) ∧
      ∀ r ∈ ps, s.pool.ctl.pincnt r = balance r s.calls := by
  intro ops
  have hv : Valloc Pool.init.ctl.mem 0 (newSize 16) 4096 := ⟨rfl, by decide, by simp⟩
  have hg : Run.Guarded step Allows init ops :=
    ⟨⟨by decide, by decide, fun _ => hv⟩, fun _ _ => ⟨rfl, fun _ _ => ⟨rfl, fun _ _ => trivial⟩⟩⟩
  have ⟨s, he, fs, ps, hl, hb, hc, _⟩ := exec_pool hg
  exact ⟨s, he, fs, ps, hl, hb, hc⟩

end Traced

end PduBuf
