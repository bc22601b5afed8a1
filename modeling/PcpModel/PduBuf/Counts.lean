import PcpModel.PduBuf.Lists

open Linked List Function

namespace PduBuf

def Mem.Holds (m : Mem) (handle : Int) : Prop :=
  m.buf ≤ handle ∧ handle < m.bufend

theorem Cells.holds_mem_iff {c : Cells} : (c.mem r).Holds a ↔ (c r).Holds a :=
  Iff.rfl

-- The buffers of a pool with `n` cells lie in separate, aligned parts of the address space.
structure Geometry (mem : Ref → Mem) (n : Nat) : Prop where
  bufend : ∀ r < n, (mem r).bufend = (mem r).buf + (mem r).size
  nonempty : ∀ r < n, 0 < (mem r).size
  aligned : ∀ r < n, (mem r).buf % 4 = 0
  disjoint : ∀ r < n, ∀ r' < n, r ≠ r' →
    (mem r).bufend ≤ (mem r').buf ∨ (mem r').bufend ≤ (mem r).buf

theorem Geometry.holds_unique (g : Geometry mem n) (hr : r < n) (hr' : r' < n)
    (h : (mem r).Holds a) (h' : (mem r').Holds a) : r = r' := by
  by_contra hn
  have hd := g.disjoint r hr r' hr' hn
  simp only [Mem.Holds] at h h'
  omega

theorem Geometry.holds_buf (g : Geometry mem n) (hr : r < n) : (mem r).Holds (mem r).buf := by
  have := g.bufend r hr
  have := g.nonempty r hr
  simp only [Mem.Holds]
  omega

-- The pool as seen by its users: a buffer is free exactly if its pin count is zero.
structure Pool.Sound (p : Pool) (fs ps : List Ref) : Prop extends p.Lists fs ps where
  free_cnt : ∀ r ∈ fs, p.ctl.pincnt r = 0
  pin_cnt : ∀ r ∈ ps, 1 ≤ p.ctl.pincnt r
  geometry : Geometry p.ctl.mem p.nctl

variable {p : Pool} {fs ps : List Ref}

namespace Pool.Sound

theorem init : Pool.init.Sound [] [] where
  toLists := Lists.init
  free_cnt := by simp
  pin_cnt := by simp
  geometry := by constructor <;> simp [Pool.init]

theorem mem_free_iff (h : p.Sound fs ps) (hr : r < p.nctl) : r ∈ fs ↔ p.ctl.pincnt r = 0 := by
  refine ⟨h.free_cnt r, fun h₀ => ?_⟩
  cases mem_append.mp (h.mem_iff r |>.mpr hr)
  case inl hf => exact hf
  case inr hp => have := h.pin_cnt r hp; omega

theorem mem_pin_iff (h : p.Sound fs ps) (hr : r < p.nctl) : r ∈ ps ↔ 1 ≤ p.ctl.pincnt r := by
  refine ⟨h.pin_cnt r, fun h₁ => ?_⟩
  cases mem_append.mp (h.mem_iff r |>.mpr hr)
  case inl hf => have := h.free_cnt r hf; omega
  case inr hp => exact hp

theorem lt_nctl_of_mem_free (h : p.Sound fs ps) (hr : r ∈ fs) : r < p.nctl :=
  h.mem_iff r |>.mp <| mem_append_left _ hr

theorem lt_nctl_of_mem_pin (h : p.Sound fs ps) (hr : r ∈ ps) : r < p.nctl :=
  h.mem_iff r |>.mp <| mem_append_right _ hr

theorem pincnt_nonneg (h : p.Sound fs ps) (hr : r < p.nctl) : 0 ≤ p.ctl.pincnt r := by
  cases mem_append.mp (h.mem_iff r |>.mpr hr)
  case inl hf => rw [h.free_cnt r hf]
  case inr hp => have := h.pin_cnt r hp; omega

end Pool.Sound

open Pool

structure Counted (p p' : Pool) (r : Ref) (n : Int) : Prop where
  sound : ∃ fs ps, p'.Sound fs ps
  pincnt : p'.ctl.pincnt = Function.update p.ctl.pincnt r n
  mem : p'.ctl.mem = p.ctl.mem
  nctl : p'.nctl = p.nctl

-- It does not matter on which lists the cells end up, as long as this agrees with the pin counts.
theorem Counted.of_lists (h : p.Sound fs ps) (hl : p'.Lists fs' ps')
    (hc : p'.ctl.pincnt = update p.ctl.pincnt r n) (hm : p'.ctl.mem = p.ctl.mem)
    (hn : p'.nctl = p.nctl) (hr : if n = 0 then r ∈ fs' else 0 < n ∧ r ∈ ps')
    (hf : ∀ r' ∈ fs', r' ≠ r → r' ∈ fs) (hp : ∀ r' ∈ ps', r' ≠ r → r' ∈ ps) : Counted p p' r n where
  sound := by
    refine ⟨fs', ps', { hl with free_cnt := ?_, pin_cnt := ?_, geometry := hm ▸ hn ▸ h.geometry }⟩
    · intro r' hr'
      by_cases he : r' = r
      case neg => simpa [hc, he] using h.free_cnt r' (hf r' hr' he)
      case pos =>
        subst he
        split at hr
        · simpa [hc]
        · exact disjoint_of_nodup_append hl.nodup hr' hr.right |>.elim
    · intro r' hr'
      by_cases he : r' = r
      case neg => simpa [hc, he] using h.pin_cnt r' (hp r' hr' he)
      case pos =>
        subst he
        split at hr
        · exact disjoint_of_nodup_append hl.nodup hr hr' |>.elim
        · simp only [hc, update_self]; omega
  pincnt := hc
  mem := hm
  nctl := hn

theorem pmPinPDUBuf_of_free (ha : a % 4 = 0)
    (hf : p.find p.bufFree (·.Holds a) = some (q, some r)) :
    pmPinPDUBuf p a = some (p.unlinkFree q r |>.linkPin r |>.setPincnt r 1) := by
  simp [pmPinPDUBuf, ha, hf]

theorem pmPinPDUBuf_of_pin (ha : a % 4 = 0)
    (hf : p.find p.bufFree (·.Holds a) = some (q, none))
    (hp : p.find p.bufPin (·.Holds a) = some (q', some r)) :
    pmPinPDUBuf p a = some (p.setPincnt r (p.ctl.pincnt r + 1)) := by
  simp [pmPinPDUBuf, ha, hf, hp, Cells.pincnt]

theorem pmPinPDUBuf_eq (h : p.Sound fs ps) (ha : a % 4 = 0) (hr : r < p.nctl)
    (hh : (p.ctl.mem r).Holds a) :
    ∃ p', pmPinPDUBuf p a = some p' ∧ Counted p p' r (p.ctl.pincnt r + 1) := by
  have hu {r'} (hr' : r' < p.nctl) (hh' : decide ((p.ctl r').Holds a)) : r' = r := by
    have hh' : (p.ctl r').Holds a := by simpa using hh'
    exact h.geometry.holds_unique hr' hr hh' hh
  rcases h.find_free_cases (·.Holds a) with ⟨fs₁, r', fs₂, rfl, hh', hf⟩ | ⟨hn, _, hf⟩
  case inl =>
    obtain rfl := hu (h.lt_nctl_of_mem_free (by simp)) hh'
    have h₀ : p.ctl.pincnt r' = 0 := h.free_cnt r' (by simp)
    refine ⟨_, pmPinPDUBuf_of_free ha hf, .of_lists h h.movePin.setPincnt ?_ ?_ rfl ?_ ?_ ?_⟩
    · simp [h₀, setPincnt, unlinkFree]
    · simp [setPincnt, unlinkFree]
    · simp [h₀]
    · simp only [mem_append]; tauto
    · simp only [mem_append, mem_singleton]; tauto
  case inr =>
    rcases h.find_pin_cases (·.Holds a) with ⟨ps₁, r', ps₂, rfl, hh', hp⟩ | ⟨hn', _, hp⟩
    case inl =>
      obtain rfl := hu (h.lt_nctl_of_mem_pin (by simp)) hh'
      have h₁ : 1 ≤ p.ctl.pincnt r' := h.pin_cnt r' (by simp)
      refine ⟨_, pmPinPDUBuf_of_pin ha hf hp,
        .of_lists h h.setPincnt ?_ ?_ rfl ?_ (by tauto) (by tauto)⟩
      · simp [setPincnt]
      · simp [setPincnt]
      · rw [if_neg (by omega)]
        exact ⟨by omega, by simp⟩
    case inr =>
      have hh : decide ((p.ctl r).Holds a) := decide_eq_true hh
      cases mem_append.mp (h.mem_iff r |>.mpr hr)
      case inl hr => simp [hn r hr] at hh
      case inr hr => simp [hn' r hr] at hh

theorem pmPinPDUBuf_unknown (h : p.Sound fs ps) (ha : a % 4 = 0)
    (hh : ∀ r < p.nctl, ¬(p.ctl.mem r).Holds a) : pmPinPDUBuf p a = some p := by
  have hu {r} (hr : r < p.nctl) : decide ((p.ctl r).Holds a) = false :=
    decide_eq_false <| Cells.holds_mem_iff.not.mp (hh r hr)
  rcases h.find_free_cases (·.Holds a) with ⟨fs₁, r, fs₂, rfl, hh', _⟩ | ⟨_, _, hf⟩
  case inl => simp [hu (h.lt_nctl_of_mem_free (r := r) (by simp))] at hh'
  case inr =>
    rcases h.find_pin_cases (·.Holds a) with ⟨ps₁, r, ps₂, rfl, hh', _⟩ | ⟨_, _, hp⟩
    case inl => simp [hu (h.lt_nctl_of_mem_pin (r := r) (by simp))] at hh'
    case inr => simp [pmPinPDUBuf, ha, hf, hp]

theorem Pool.Sound.spans_iff (h : p.Sound fs ps) (hr : r < p.nctl) :
    (p.ctl r).Spans a ↔ (p.ctl.mem r).Holds a := by
  have he : (p.ctl r).bcBufend = (p.ctl r).bcBuf + (p.ctl r).bcSize := h.geometry.bufend r hr
  rw [Cells.holds_mem_iff, Bufctl.Holds, he, Bufctl.Spans]

theorem pmUnpinPDUBuf_of_pin (ha : a % 4 = 0)
    (hp : p.find p.bufPin (·.Spans a) = some (q, some r)) :
    let p' := p.setPincnt r (p.ctl.pincnt r - 1)
    pmUnpinPDUBuf p a =
      some (if p.ctl.pincnt r = 1 then p'.unlinkPin q r |>.linkFree r else p', 1) := by
  have hc : ((p.setPincnt r ((p.ctl r).bcPincnt - 1)).ctl r).bcPincnt = 0 ↔ p.ctl.pincnt r = 1 := by
    simp [setPincnt, Cells.setPincnt, Cells.pincnt, Int.sub_eq_zero]
  by_cases h : p.ctl.pincnt r = 1 <;> simp_all [pmUnpinPDUBuf, Cells.pincnt]

theorem pmUnpinPDUBuf_eq (h : p.Sound fs ps) (ha : a % 4 = 0) (hr : r < p.nctl)
    (hh : (p.ctl.mem r).Holds a) (h₁ : 1 ≤ p.ctl.pincnt r) :
    ∃ p', pmUnpinPDUBuf p a = some (p', 1) ∧ Counted p p' r (p.ctl.pincnt r - 1) := by
  rcases h.find_pin_cases (·.Spans a) with ⟨ps₁, r', ps₂, rfl, hh', hp⟩ | ⟨hn, _, _⟩
  case inl =>
    have hr' := h.lt_nctl_of_mem_pin (r := r') (by simp)
    obtain rfl := h.geometry.holds_unique hr' hr (h.spans_iff hr' |>.mp <| of_decide_eq_true hh') hh
    refine ⟨_, pmUnpinPDUBuf_of_pin ha hp, ?_⟩
    split
    case isTrue h₁ =>
      refine .of_lists h h.setPincnt.moveFree ?_ ?_ rfl ?_ ?_ ?_
      · simp [linkFree, unlinkPin, setPincnt]
      · simp [linkFree, unlinkPin, setPincnt]
      · simp [h₁]
      · simp only [mem_cons]; tauto
      · simp only [mem_append]; tauto
    case isFalse hn =>
      refine .of_lists h h.setPincnt ?_ ?_ rfl ?_ (by tauto) (by tauto)
      · simp [setPincnt]
      · simp [setPincnt]
      · rw [if_neg (by omega)]
        exact ⟨by omega, by simp⟩
  case inr =>
    have hm := h.mem_pin_iff hr |>.mpr h₁
    exact absurd (h.spans_iff hr |>.mpr hh) (of_decide_eq_false <| hn r hm)

theorem pmUnpinPDUBuf_unpinned (h : p.Sound fs ps) (ha : a % 4 = 0)
    (hh : ∀ r < p.nctl, (p.ctl.mem r).Holds a → p.ctl.pincnt r = 0) :
    pmUnpinPDUBuf p a = some (p, 0) := by
  rcases h.find_pin_cases (·.Spans a) with ⟨ps₁, r, ps₂, rfl, hh', hp⟩ | ⟨_, _, hp⟩
  case inl =>
    have hr := h.lt_nctl_of_mem_pin (r := r) (by simp)
    have h₀ := hh r hr (h.spans_iff hr |>.mp <| of_decide_eq_true hh')
    have h₁ := h.pin_cnt r (by simp)
    omega
  case inr => simp [pmUnpinPDUBuf, ha, hp]

-- What `valloc` guarantees about the `size` bytes of memory that it returns at address `a`.
structure Valloc (mem : Ref → Mem) (n : Nat) (size a : Int) : Prop where
  aligned : a % 4 = 0
  size_le : CInt.size size < 2 ^ 63
  fresh : ∀ r < n, (mem r).bufend ≤ a ∨ a + size ≤ (mem r).buf

theorem Valloc.newSize_gt (v : Valloc mem n (newSize need) a) (h₀ : 0 ≤ need)
    (hm : need ≤ CInt.intMax) : need < newSize need := by
  have hs := v.size_le
  simp only [CInt.intMax, newSize, CInt.size, CInt.int, pduChunk, Int.tdiv_eq_ediv_of_nonneg h₀,
    Int.bmod_def] at *
  split at hs <;> split <;> omega

theorem Pool.alloc_mem :
    (p.alloc size a).ctl.mem = update p.ctl.mem p.nctl ⟨a, size, a + size⟩ :=
  comp_update Bufctl.mem ..

theorem Pool.alloc_pincnt : (p.alloc size a).ctl.pincnt = update p.ctl.pincnt p.nctl 0 :=
  comp_update Bufctl.bcPincnt ..

theorem Valloc.geometry (v : Valloc mem n size a) (g : Geometry mem n) (hs : 0 < size) :
    Geometry (update mem n ⟨a, size, a + size⟩) (n + 1) := by
  have hn {r} (hr : r < n + 1) : r = n ∨ (r ≠ n ∧ r < n) := by omega
  constructor
  case disjoint =>
    intro r hr r' hr' hne
    obtain rfl | ⟨he, hr⟩ := hn hr <;> obtain rfl | ⟨he', hr'⟩ := hn hr'
    · contradiction
    · simpa [he', or_comm] using v.fresh r' hr'
    · simpa [he] using v.fresh r hr
    · simpa [he, he'] using g.disjoint r hr r' hr' hne
  all_goals intro r hr; obtain rfl | ⟨he, hr⟩ := hn hr
  · simp
  · simpa [he] using g.bufend r hr
  · simpa
  · simpa [he] using g.nonempty r hr
  · simpa using v.aligned
  · simpa [he] using g.aligned r hr

theorem Valloc.sound (v : Valloc p.ctl.mem p.nctl size a) (h : p.Sound fs ps) (hs : 0 < size) :
    (p.alloc size a).Sound (p.nctl :: fs) ps where
  toLists := h.toLists.alloc
  geometry := alloc_mem ▸ v.geometry h.geometry hs
  free_cnt := by
    intro r hr
    cases mem_cons.mp hr
    case inl hr => simp [alloc_pincnt, hr]
    case inr hr => simpa [alloc_pincnt, (h.lt_nctl_of_mem_free hr).ne] using h.free_cnt r hr
  pin_cnt := by
    intro r hr
    simpa [alloc_pincnt, (h.lt_nctl_of_mem_pin hr).ne] using h.pin_cnt r hr

-- The pool `p'` is the pool `p` after the buffer `r`, which was not in use, was handed out.
structure Found (p p' : Pool) (r : Ref) : Prop where
  sound : ∃ fs ps, p'.Sound fs ps
  lt_nctl : r < p'.nctl
  unused : r < p.nctl → p.ctl.pincnt r = 0
  pincnt : ∀ r', p'.ctl.pincnt r' = if r' = r then 1 else p.ctl.pincnt r'
  mem : ∀ r' < p.nctl, p'.ctl.mem r' = p.ctl.mem r'
  nctl_le : p.nctl ≤ p'.nctl
  only : ∀ r' < p'.nctl, r' ≠ r → r' < p.nctl

theorem pmFindPDUBuf_eq (h : p.Sound fs ps) (h₀ : 0 ≤ need) (hm : need ≤ CInt.intMax)
    (hv : p.fit need = some none → Valloc p.ctl.mem p.nctl (newSize need) a) :
    ∃ p' r, pmFindPDUBuf p need (some a) = some (p', some (p'.ctl.mem r).buf) ∧ Found p p' r ∧
      need ≤ (p'.ctl.mem r).size := by
  rcases h.find_free_cases (need ≤ ·.bcSize) with ⟨fs₁, r, fs₂, rfl, hs, hf⟩ | ⟨_, _, hf⟩
  case inl =>
    have hr := h.lt_nctl_of_mem_free (r := r) (by simp)
    have h₀ := h.free_cnt r (by simp)
    have ⟨p', hp, hc⟩ := pmPinPDUBuf_eq h (h.geometry.aligned r hr) hr (h.geometry.holds_buf hr)
    refine ⟨p', r, ?_, ⟨hc.sound, hc.nctl ▸ hr, fun _ => h₀, fun r' => ?_, ?_, ?_, ?_⟩, ?_⟩
    · have hp : pmPinPDUBuf p (p.ctl r).bcBuf = some p' := hp
      simp [pmFindPDUBuf, fit, hf, hp, hc.mem]
      rfl
    · simp [hc.pincnt, update_apply, h₀]
    · simp [hc.mem]
    · exact hc.nctl.ge
    · exact fun r' hr' _ => hc.nctl ▸ hr'
    · rw [hc.mem]
      exact of_decide_eq_true hs
  case inr =>
    have hv := hv (by simp [fit, hf])
    have hs := hv.newSize_gt h₀ hm
    have ha := hv.sound h (by omega)
    have hh : ((p.alloc (newSize need) a).ctl.mem p.nctl).Holds a := by
      simp only [alloc_mem, update_self, Mem.Holds]
      omega
    have ⟨p', hp, hc⟩ := pmPinPDUBuf_eq ha hv.aligned (Nat.lt_succ_self _) hh
    refine ⟨p', p.nctl, ?_, ⟨hc.sound, ?_, by simp, fun r' => ?_, fun r' hr' => ?_, ?_, ?_⟩, ?_⟩
    · simp [pmFindPDUBuf, fit, hf, hp, hc.mem, alloc_mem]
    · simp [hc.nctl, alloc]
    · simp only [hc.pincnt, alloc_pincnt, update_apply]
      split <;> simp
    · simp [hc.mem, alloc_mem, hr'.ne]
    · simp [hc.nctl, alloc]
    · intro r' hr' hne
      simp only [hc.nctl, alloc] at hr'
      omega
    · simp only [hc.mem, alloc_mem, update_self]
      omega

end PduBuf
