import Mathlib.Algebra.BigOperators.Group.List.Basic
import PcpModel.Interp.Pins

open Ledger PduBuf List

namespace Interp

instance (m : Mem) (a : Int) : Decidable (m.Holds a) :=
  inferInstanceAs (Decidable (_ ∧ _))

def Owns (p : Pool) (a : Int) : Prop :=
  a % 4 = 0 ∧ ∃ r < p.nctl, (p.ctl.mem r).Holds a

def owner (p : Pool) (a : Int) : Option Ref :=
  List.range p.nctl |>.find? fun r => (p.ctl.mem r).Holds a

def Event.run (p : Pool) : Event Int → Option Pool
  | .pin v => pmPinPDUBuf p v
  | .unpin v => (pmUnpinPDUBuf p v).map (·.fst)
  | .found => some p

def refs (m : Mem) (l : Multiset Int) : Int :=
  l.countP m.Holds

theorem refs_cons : refs m (a ::ₘ l) = refs m l + if m.Holds a then 1 else 0 := by
  simp [refs, Multiset.countP_cons]

theorem refs_nonneg : 0 ≤ refs m l :=
  Int.natCast_nonneg _

-- The pin counts consist of the pins of other users, `ext`, and one pin for each handle in `l`.
structure Accounted (p : Pool) (ext : Ref → Int) (l : Multiset Int) : Prop where
  sound : ∃ fs ps, p.Sound fs ps
  owns : ∀ a ∈ l, Owns p a
  pincnt : ∀ r < p.nctl, p.ctl.pincnt r = ext r + refs (p.ctl.mem r) l
  nonneg : ∀ r, 0 ≤ ext r
  ext_new : ∀ r ≥ p.nctl, ext r = 0

namespace Accounted

variable {p p' : Pool} {ext : Ref → Int} {l l' : Multiset Int}

theorem init : Accounted .init (fun _ => 0) 0 where
  sound := ⟨[], [], .init⟩
  owns := by simp
  pincnt := by simp [Pool.init]
  nonneg := by simp
  ext_new := by simp

theorem owns_congr (hc : Counted p p' r n) : Owns p' = Owns p := by
  funext a
  simp [Owns, hc.mem, hc.nctl]

theorem pin (h : Accounted p ext l) (ho : Owns p a) :
    ∃ p', pmPinPDUBuf p a = some p' ∧ Accounted p' ext (a ::ₘ l) ∧ Owns p' = Owns p := by
  have ⟨_, _, hs⟩ := h.sound
  have ⟨ha, r, hr, hh⟩ := ho
  have ⟨p', hp, hc⟩ := pmPinPDUBuf_eq hs ha hr hh
  refine ⟨p', hp, ⟨hc.sound, ?_, ?_, h.nonneg, hc.nctl ▸ h.ext_new⟩, owns_congr hc⟩
  · simpa [owns_congr hc] using ⟨ho, h.owns⟩
  · intro r' hr'
    rw [hc.nctl] at hr'
    rw [hc.pincnt, hc.mem, refs_cons]
    by_cases he : r' = r
    case pos => simp [he, hh, h.pincnt r hr, add_assoc]
    case neg =>
      have hn : ¬(p.ctl.mem r').Holds a := fun hh' => he <| hs.geometry.holds_unique hr' hr hh' hh
      simp [he, hn, h.pincnt r' hr']

theorem unpin (h : Accounted p ext (a ::ₘ l)) :
    ∃ p', pmUnpinPDUBuf p a = some (p', 1) ∧ Accounted p' ext l ∧ Owns p' = Owns p := by
  have ⟨_, _, hs⟩ := h.sound
  have ⟨ha, r, hr, hh⟩ := h.owns a (by simp)
  have hp := h.pincnt
  simp only [refs_cons] at hp
  have h₁ : 1 ≤ p.ctl.pincnt r := by
    have := h.nonneg r
    have := refs_nonneg (m := p.ctl.mem r) (l := l)
    simp only [hp r hr, hh, if_true]
    omega
  have ⟨p', he, hc⟩ := pmUnpinPDUBuf_eq hs ha hr hh h₁
  refine ⟨p', he, ⟨hc.sound, ?_, ?_, h.nonneg, hc.nctl ▸ h.ext_new⟩, owns_congr hc⟩
  · rw [owns_congr hc]
    exact fun b hb => h.owns b (by simp [hb])
  · intro r' hr'
    rw [hc.nctl] at hr'
    rw [hc.pincnt, hc.mem]
    by_cases he : r' = r
    case pos =>
      simp only [he, Function.update_self, hp r hr, hh, if_true]
      omega
    case neg =>
      have hn : ¬(p.ctl.mem r').Holds a := fun hh' => he <| hs.geometry.holds_unique hr' hr hh' hh
      simp [he, hn, hp r' hr']

theorem run (h : Accounted p ext l) (hm : Moves (Owns p) (txs log) l l') :
    ∃ p', log.foldlM Event.run p = some p' ∧ Accounted p' ext l' := by
  induction log generalizing p l
  case nil => exact ⟨p, rfl, hm ▸ h⟩
  case cons e log hi =>
    cases e <;> simp only [txs, filterMap_cons, Event.tx, foldlM_cons, Event.run] at *
    case found => exact hi h hm
    case pin a =>
      obtain ⟨p₁, hp, h₁, ho⟩ := h.pin hm.left
      obtain ⟨p', he, h'⟩ := hi h₁ (ho ▸ hm.right)
      exact ⟨p', by simp [hp, he], h'⟩
    case unpin a =>
      obtain ⟨l₀, rfl, hm⟩ := hm
      obtain ⟨p₁, hp, h₁, ho⟩ := h.unpin
      obtain ⟨p', he, h'⟩ := hi h₁ (ho ▸ hm)
      exact ⟨p', by simp [hp, he], h'⟩

theorem holds_of_owner (h : owner p a = some r) : r < p.nctl ∧ (p.ctl.mem r).Holds a := by
  have hh := find?_some h
  have hm := mem_of_find?_eq_some h
  simp_all

theorem owner_eq (h : p.Sound fs ps) (hr : r < p.nctl) (hh : (p.ctl.mem r).Holds a) :
    owner p a = some r := by
  cases ho : owner p a
  case none =>
    have := find?_eq_none.mp ho r (by simpa using hr)
    simp_all
  case some r' =>
    have ⟨hr', hh'⟩ := holds_of_owner ho
    rw [h.geometry.holds_unique hr' hr hh' hh]

theorem not_holds_of_owner_none (h : owner p a = none) : ∀ r < p.nctl, ¬(p.ctl.mem r).Holds a := by
  intro r hr
  simpa using find?_eq_none.mp h r (by simpa using hr)

-- Another user changes the pin count of a buffer `r`, which may be a new one.
theorem setExt (h : Accounted p ext l) (hs : ∃ fs ps, p'.Sound fs ps) (hle : p.nctl ≤ p'.nctl)
    (hm : ∀ r' < p.nctl, p'.ctl.mem r' = p.ctl.mem r') (ho : ∀ r' < p'.nctl, r' ≠ r → r' < p.nctl)
    (hr : r < p'.nctl) (hc : p'.ctl.pincnt r = (if r < p.nctl then p.ctl.pincnt r else 0) + n)
    (hc' : ∀ r' ≠ r, p'.ctl.pincnt r' = p.ctl.pincnt r') (hn : 0 ≤ ext r + n) :
    Accounted p' (Function.update ext r (ext r + n)) l where
  sound := hs
  nonneg := by
    intro r'
    by_cases he : r' = r
    case pos => simpa [he]
    case neg => simpa [he] using h.nonneg r'
  ext_new := by
    intro r' hr'
    have he : r' ≠ r := by omega
    simpa [he] using h.ext_new r' (by omega)
  owns := by
    intro a ha
    have ⟨ha, r', hr', hh⟩ := h.owns a ha
    exact ⟨ha, r', by omega, hm r' hr' ▸ hh⟩
  pincnt := by
    have ⟨_, _, hs⟩ := hs
    intro r' hr'
    by_cases he : r' = r
    case neg =>
      have hr' := ho r' hr' he
      simp [he, hc' r' he, hm r' hr', h.pincnt r' hr']
    case pos =>
      subst he
      rw [hc, Function.update_self]
      split
      case isTrue hr =>
        rw [h.pincnt r' hr, hm r' hr]
        omega
      case isFalse hr =>
        -- A new buffer cannot hold any of the handles.
        have h₀ : refs (p'.ctl.mem r') l = 0 := by
          simp only [refs, Int.natCast_eq_zero, Multiset.countP_eq_zero]
          intro a ha hh
          have ⟨_, r'', hr'', hh''⟩ := h.owns a ha
          have := hs.geometry.holds_unique hr' (by omega) hh (hm r'' hr'' ▸ hh'')
          omega
        simp [h₀, h.ext_new r' (by omega)]

theorem counted (h : Accounted p ext l) (hc : Counted p p' r (p.ctl.pincnt r + n))
    (hr : r < p.nctl) (hn : 0 ≤ ext r + n) :
    Accounted p' (Function.update ext r (ext r + n)) l := by
  have hr' : r < p'.nctl := hc.nctl ▸ hr
  refine h.setExt hc.sound hc.nctl.ge ?_ (fun r' hr' _ => hc.nctl ▸ hr') hr' ?_ ?_ hn
  · simp [hc.mem]
  · simp [hc.pincnt, hr]
  · intro r' he
    simp [hc.pincnt, he]

theorem pos (h : Accounted p ext l) (hr : r < p.nctl) (h₁ : 1 ≤ ext r) : 1 ≤ p.ctl.pincnt r := by
  have := refs_nonneg (m := p.ctl.mem r) (l := l)
  rw [h.pincnt r hr]
  omega

theorem owner_congr (hc : Counted p p' r n) : owner p' = owner p := by
  funext a
  simp [owner, hc.mem, hc.nctl]

end Accounted

structure Pinned where
  metrics : Metrics Int
  pool : Pool
  ext : Ref → Int

namespace Pinned

inductive Op
  | add (pmid : Nat) (desc : Option Desc) (insts : List Int)
  | want (pmids : List Nat) (inProfile : Nat → Int → Bool)
  | update (tReq : Int) (logrp : Record Int) (doMark : UpdMark) (count : Count)
  | reset (tReq : Int)
  | find (need mem : Int)
  | pin (handle : Int)
  | unpin (handle : Int)

def init : Pinned where
  metrics := []
  pool := .init
  ext _ := 0

def apply (s : Pinned) (u : Logged (Event Int) (Metrics Int)) : Option Pinned := do
  return { s with metrics := u.val, pool := ← u.log.foldlM Event.run s.pool }

def count (s : Pinned) (p : Pool) (handle n : Int) : Pinned :=
  match owner p handle with
  | none => { s with pool := p }
  | some r => { s with pool := p, ext := Function.update s.ext r (s.ext r + n) }

def newMetric (pmid : Nat) (desc : Option Desc) (insts : List Int) : PmidCntl Int where
  pmid := pmid
  desc := desc
  valfmt := none
  numval := 0
  insts := insts.map .new

def step (s : Pinned) : Op → Option Pinned
  | .add pmid desc insts => some { s with metrics := newMetric pmid desc insts :: s.metrics }
  | .want pmids inProfile => some { s with metrics := s.metrics.want pmids inProfile }
  | .update tReq logrp m c => s.apply <| s.metrics.updateBounds tReq logrp m c
  | .reset tReq => s.apply <| s.metrics.resetInterp tReq
  | .find need mem => do
    match ← pmFindPDUBuf s.pool need mem with
    | (p, some handle) => return s.count p handle 1
    | (_, none) => none
  | .pin handle => return s.count (← pmPinPDUBuf s.pool handle) handle 1
  | .unpin handle => return s.count (← pmUnpinPDUBuf s.pool handle).fst handle (-1)

def Allows (s : Pinned) : Op → Prop
  | .add .. | .reset _ => True
  | .want pmids _ => pmids.Nodup
  | .update tReq logrp _ _ => s.metrics.Takes (Owns s.pool) tReq logrp
  | .find need mem => 0 ≤ need ∧ need ≤ CInt.intMax ∧
    (s.pool.fit need = some none → Valloc s.pool.ctl.mem s.pool.nctl (newSize need) mem)
  | .pin handle => handle % 4 = 0
  | .unpin handle => handle % 4 = 0 ∧ ∀ r, owner s.pool handle = some r → 1 ≤ s.ext r

structure Valid (s : Pinned) : Prop where
  accounted : Accounted s.pool s.ext s.metrics.bounds
  insitu : ∀ pcp ∈ s.metrics, ¬pcp.Insitu

theorem Valid.init : init.Valid where
  accounted := .init
  insitu := by simp [Pinned.init]

variable {s : Pinned}

theorem Valid.apply (h : s.Valid)
    (hu : Moves (Owns s.pool) (txs u.log) s.metrics.bounds (Metrics.bounds u.val) ∧
      ∀ pcp ∈ u.val, ¬pcp.Insitu) : ∃ s', s.apply u = some s' ∧ s'.Valid := by
  have ⟨p, hp, ha⟩ := h.accounted.run hu.left
  exact ⟨{ s with metrics := u.val, pool := p }, by simp [Pinned.apply, hp], ha, hu.right⟩

theorem Valid.count (h : s.Valid) (ho : owner p a = some r)
    (ha : Accounted p (Function.update s.ext r (s.ext r + n)) s.metrics.bounds) :
    (s.count p a n).Valid := by
  rw [Pinned.count, ho]
  exact ⟨ha, h.insitu⟩

@[simp]
theorem instClear_bounds {icp : InstCntl Int} : icp.clear.bounds = icp.bounds :=
  rfl

@[simp]
theorem instChoose_bounds {icp : InstCntl Int} : (icp.choose b).bounds = icp.bounds := by
  unfold InstCntl.choose
  split <;> rfl

theorem newMetric_bounds : (newMetric pmid desc insts).bounds = 0 := by
  refine sum_eq_zero fun b hb => ?_
  obtain ⟨_, hm, rfl⟩ := mem_map.mp hb
  obtain ⟨_, _, rfl⟩ := mem_map.mp hm
  rfl

theorem modifyHead_choose_bounds {insts : List (InstCntl Int)} :
    (insts.modifyHead (·.choose b)).map (·.bounds) = insts.map (·.bounds) := by
  cases insts
  case nil => rfl
  case cons => simp

theorem choose_bounds {pcp : PmidCntl Int} : (pcp.choose inProfile).bounds = pcp.bounds := by
  unfold PmidCntl.choose
  split
  case h_1 => rfl
  case h_2 => simp [PmidCntl.bounds, Function.comp_def]
  case h_3 => simp only [PmidCntl.bounds, modifyHead_choose_bounds]

theorem clear_bounds {pcp : PmidCntl Int} : pcp.clear.bounds = pcp.bounds := by
  simp [PmidCntl.bounds, PmidCntl.clear, Function.comp_def]

theorem want_bounds {ms : Metrics Int} : (ms.want pmids inProfile).bounds = ms.bounds := by
  simp only [Metrics.bounds, Metrics.want, map_map]
  refine congrArg sum (map_congr_left fun pcp _ => ?_)
  rw [Function.comp_apply]
  split
  case isTrue => rw [choose_bounds, clear_bounds]
  case isFalse => rw [clear_bounds]

theorem choose_insitu {pcp : PmidCntl Int} : (pcp.choose inProfile).Insitu ↔ pcp.Insitu := by
  unfold PmidCntl.choose
  split <;> rfl

theorem Valid.want (h : s.Valid) : Valid { s with metrics := s.metrics.want pmids inProfile } := by
  refine ⟨want_bounds.symm ▸ h.accounted, fun pcp hm => ?_⟩
  obtain ⟨pcp, hp, rfl⟩ := mem_map.mp hm
  split
  case isTrue => exact fun hi => h.insitu pcp hp (show pcp.clear.Insitu from choose_insitu.mp hi)
  case isFalse => exact h.insitu pcp hp

theorem Valid.step (h : s.Valid) (ha : s.Allows op) : ∃ s', s.step op = some s' ∧ s'.Valid := by
  obtain ⟨_, _, hs⟩ := h.accounted.sound
  cases op
  case add pmid desc insts =>
    refine ⟨_, rfl, ?_, ?_⟩
    · simpa [Metrics.bounds, newMetric_bounds] using h.accounted
    · simpa [newMetric, PmidCntl.Insitu] using h.insitu
  case want => exact ⟨_, rfl, h.want⟩
  case update => exact h.apply <| Metrics.updateBounds_moves h.insitu ha
  case reset => exact h.apply <| Metrics.resetInterp_moves h.insitu
  case find need mem =>
    obtain ⟨h₀, hm, hv⟩ := ha
    obtain ⟨p, r, hp, hf, _⟩ := pmFindPDUBuf_eq hs h₀ hm hv
    obtain ⟨_, _, hs'⟩ := hf.sound
    have ho := Accounted.owner_eq hs' hf.lt_nctl (hs'.geometry.holds_buf hf.lt_nctl)
    refine ⟨s.count p (p.ctl.mem r).buf 1, by simp [Pinned.step, hp], h.count ho ?_⟩
    refine h.accounted.setExt hf.sound hf.nctl_le hf.mem hf.only hf.lt_nctl ?_ ?_ ?_
    · have := hf.unused
      simp_all [hf.pincnt]
    · intro r' he
      simp [hf.pincnt, he]
    · have := h.accounted.nonneg r
      omega
  case pin a =>
    cases ho : owner s.pool a
    case none =>
      have hp := pmPinPDUBuf_unknown hs ha <| Accounted.not_holds_of_owner_none ho
      exact ⟨s, by simp [Pinned.step, hp, Pinned.count, ho], h⟩
    case some r =>
      obtain ⟨hr, hh⟩ := Accounted.holds_of_owner ho
      obtain ⟨p, hp, hc⟩ := pmPinPDUBuf_eq hs ha hr hh
      have := h.accounted.nonneg r
      refine ⟨s.count p a 1, by simp [Pinned.step, hp], h.count (Accounted.owner_congr hc ▸ ho) ?_⟩
      exact h.accounted.counted hc hr (by omega)
  case unpin a =>
    obtain ⟨ha, hu⟩ := ha
    cases ho : owner s.pool a
    case none =>
      have hn := Accounted.not_holds_of_owner_none ho
      have hp := pmUnpinPDUBuf_unpinned hs ha fun r hr hh => absurd hh (hn r hr)
      exact ⟨s, by simp [Pinned.step, hp, Pinned.count, ho], h⟩
    case some r =>
      obtain ⟨hr, hh⟩ := Accounted.holds_of_owner ho
      have h₁ := hu r ho
      obtain ⟨p, hp, hc⟩ := pmUnpinPDUBuf_eq hs ha hr hh <| h.accounted.pos hr h₁
      refine ⟨s.count p a (-1), by simp [Pinned.step, hp],
        h.count (Accounted.owner_congr hc ▸ ho) ?_⟩
      exact h.accounted.counted hc hr (by omega)

-- Each bound accounts for one pin of the buffer that it points into.
theorem exec_accounted (hg : Run.Guarded step Allows init ops) :
    ∃ s, Run.exec step init ops = some s ∧ ∀ r < s.pool.nctl,
      s.pool.ctl.pincnt r = s.ext r + refs (s.pool.ctl.mem r) s.metrics.bounds :=
  have ⟨s, hs, h⟩ := Run.exec_invariant (fun _ _ h => h.step) Valid.init hg
  ⟨s, hs, h.accounted.pincnt⟩

def recordAt (time : Int) (pval : Int) : Record Int where
  time := time
  vset := [{ pmid := 1, valfmt := .dptr, vlist := [{ inst := 7, value := pval }] }]

-- The value at 5 takes the pin of a bound, and the mark at 7 gives it back.
theorem exec_accounted_update :
    let ops := [
      .find 16 4096, .add 1 (some ⟨0, none, .instant⟩) [7], .want [1] (fun _ _ => true),
      .update 10 (recordAt 5 4096) .none .none, .update 10 ⟨7, []⟩ .back .prior, .reset 20
    ]
    ∃ s, Run.exec step init ops = some s ∧ ∀ r < s.pool.nctl,
      s.pool.ctl.pincnt r = s.ext r + refs (s.pool.ctl.mem r) s.metrics.bounds := by
  intro ops
  have hv : Valloc Pool.init.ctl.mem 0 (newSize 16) 4096 := ⟨rfl, by decide, by simp⟩
  have hg : Run.Guarded step Allows init ops := by
    refine ⟨⟨by decide, by decide, fun _ => hv⟩, ?_⟩
    rintro _ ⟨⟩
    refine ⟨trivial, ?_⟩
    rintro _ ⟨⟩
    refine ⟨nodup_singleton 1, ?_⟩
    rintro _ ⟨⟩
    refine ⟨?_, fun _ _ => ⟨nofun, fun _ _ => ⟨trivial, fun _ _ => trivial⟩⟩⟩
    intro vs hvs pcp hm _
    obtain rfl := mem_singleton.mp hvs
    obtain rfl := mem_singleton.mp hm
    refine ⟨by decide, fun v hm => ?_, fun icp hm _ hs => ?_⟩
    · obtain rfl := mem_singleton.mp hm
      exact ⟨rfl, 0, by decide, by decide⟩
    · obtain rfl := mem_singleton.mp hm
      exact absurd hs.left (by decide)
  exact exec_accounted hg

-- The value at 5 loses its pin, so its buffer is free once its other user is done with it.
theorem exec_shuffle_not_accounted :
    let ops := [
      .find 16 4096, .find 16 8192, .find 16 12288, .add 1 none [7],
      .update 10 (recordAt 5 4096) .none .none, .update 10 (recordAt 15 8192) .none .none,
      .update 3 (recordAt 2 12288) .none .none, .unpin 4096
    ]
    ∃ s, Run.exec step init ops = some s ∧ s.pool.ctl.pincnt 0 = 0 ∧ s.ext 0 = 0 ∧
      refs (s.pool.ctl.mem 0) s.metrics.bounds = 1 :=
  ⟨_, rfl, by decide, by decide, by decide⟩

end Pinned

end Interp
