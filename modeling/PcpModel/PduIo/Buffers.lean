import PcpModel.PduIo.Basic

namespace PduIo

open Memory PduBuf Stream

-- `rd'` is `rd` after the buffers `rs`, which were not in use, have been handed out.
structure Takes (rd rd' : Reader) (rs : List Ref) : Prop where
  sound : ∃ fs ps, rd'.pool.Sound fs ps
  nctl_le : rd.pool.nctl ≤ rd'.pool.nctl
  lt_nctl : ∀ r ∈ rs, r < rd'.pool.nctl
  unused : ∀ r ∈ rs, r < rd.pool.nctl → rd.pool.ctl.pincnt r = 0
  pincnt : ∀ r < rd'.pool.nctl, rd'.pool.ctl.pincnt r =
    if r ∈ rs then 1 else if r < rd.pool.nctl then rd.pool.ctl.pincnt r else 0
  areas : ∀ r < rd.pool.nctl, rd'.pool.ctl.mem r = rd.pool.ctl.mem r
  kept : ∀ r < rd.pool.nctl, 1 ≤ rd.pool.ctl.pincnt r →
    ∀ i, (rd.pool.ctl.mem r).Holds i → rd'.mem i = rd.mem i

namespace Takes

variable {rd rd₁ rd₂ : Reader}

theorem refl (h : ∃ fs ps, rd.pool.Sound fs ps) : Takes rd rd [] where
  sound := h
  nctl_le := Nat.le_refl _
  lt_nctl := by simp
  unused := by simp
  pincnt := by simp +contextual
  areas := by simp
  kept := by simp

theorem find (t : Takes rd rd₁ rs) (h : Found rd₁.pool pool r) :
    Takes rd { rd₁ with pool } (r :: rs) where
  sound := h.sound
  nctl_le := t.nctl_le.trans h.nctl_le
  lt_nctl r' hr' := by
    cases List.mem_cons.mp hr'
    case inl he => exact he ▸ h.lt_nctl
    case inr hr' => exact (t.lt_nctl r' hr').trans_le h.nctl_le
  unused r' hr' hlt := by
    cases List.mem_cons.mp hr'
    case inr hr' => exact t.unused r' hr' hlt
    case inl he =>
      subst he
      have hlt₁ := hlt.trans_le t.nctl_le
      have h₀ := t.pincnt r' hlt₁
      rw [h.unused hlt₁] at h₀
      by_cases hm : r' ∈ rs <;> simp [hm, hlt] at h₀
      exact h₀.symm
  pincnt r' hr' := by
    by_cases he : r' = r
    · simp [he, h.pincnt]
    · have hlt := h.only r' hr' he
      simp [h.pincnt, he, t.pincnt r' hlt]
  areas r' hr' := (h.mem r' (hr'.trans_le t.nctl_le)).trans (t.areas r' hr')
  kept := t.kept

theorem notMem_of_found (t : Takes rd rd₁ rs) (h : Found rd₁.pool pool r) : r ∉ rs := by
  intro hm
  have hlt := t.lt_nctl r hm
  have h₁ := t.pincnt r hlt
  simp [h.unused hlt, hm] at h₁

theorem modify (t : Takes rd rd₁ rs) (hr : r ∈ rs)
    (hf : Frame (span (rd₁.pool.ctl.mem r).buf (rd₁.pool.ctl.mem r).bufend) rd₁.mem mem) :
    Takes rd { rd₁ with mem } rs := by
  refine { t with kept := fun r' hr' hp i hi => ?_ }
  obtain ⟨fs, ps, hs⟩ := t.sound
  refine (hf i fun hm => ?_).trans (t.kept r' hr' hp i hi)
  have hlt := t.lt_nctl r hr
  have he : r = r' := by
    refine hs.geometry.holds_unique hlt (hr'.trans_le t.nctl_le) hm ?_
    rw [t.areas r' hr']
    exact hi
  have := t.unused r hr (he ▸ hr')
  rw [he] at this
  omega

theorem unpin (t : Takes rd rd₁ rs) (hr : r ∈ rs) :
    ∃ rd₂, rd₁.unpinPDUBuf (rd₁.pool.ctl.mem r).buf = some rd₂ ∧ Takes rd rd₂ (rs.filter (· ≠ r)) ∧
      rd₂.mem = rd₁.mem ∧ rd₂.maxsize = rd₁.maxsize ∧ rd₂.pool.ctl.mem = rd₁.pool.ctl.mem ∧
      rd₂.pool.nctl = rd₁.pool.nctl := by
  obtain ⟨fs, ps, hs⟩ := t.sound
  have hlt := t.lt_nctl r hr
  have h₁ : rd₁.pool.ctl.pincnt r = 1 := by simp [t.pincnt r hlt, hr]
  obtain ⟨pool, hp, hc⟩ := pmUnpinPDUBuf_eq hs (hs.geometry.aligned r hlt) hlt
    (hs.geometry.holds_buf hlt) (Int.le_of_eq h₁.symm)
  refine ⟨{ rd₁ with pool }, by simp [Reader.unpinPDUBuf, hp], ?_, rfl, rfl, hc.mem, hc.nctl⟩
  refine { t with sound := hc.sound, nctl_le := ?_, lt_nctl := ?_, unused := ?_, pincnt := ?_,
                  areas := ?_ }
  · exact hc.nctl ▸ t.nctl_le
  · intro r' hr'
    rw [hc.nctl]
    exact t.lt_nctl r' (List.mem_of_mem_filter hr')
  · intro r' hr'
    exact t.unused r' (List.mem_of_mem_filter hr')
  · intro r' hr'
    rw [hc.nctl] at hr'
    by_cases he : r' = r
    · subst he
      have := t.unused r' hr
      simp [hc.pincnt, h₁]
      tauto
    · simp [hc.pincnt, he, t.pincnt r' hr']
  · intro r' hr'
    rw [hc.mem]
    exact t.areas r' hr'

end Takes

namespace Reader

-- The sizes of buffers stay small enough for a larger one to be allocated.
structure Valid (rd : Reader) : Prop where
  sound : ∃ fs ps, rd.pool.Sound fs ps
  lower : 1024 ≤ rd.maxsize
  upper : rd.maxsize ≤ 2147481600

end Reader

theorem newSize_eq (h₀ : 0 ≤ n) (h : n ≤ 2147481600) : newSize n = 1024 * (1 + n / 1024) := by
  have hd : n.tdiv pduChunk = n / 1024 := Int.tdiv_eq_ediv_of_nonneg h₀
  rw [newSize, hd, pduChunk, CInt.int_eq]
  · omega
  · simp only [CInt.intMax]
    omega

namespace Allocator

-- Memory of all sizes that are asked for is available.
def Plenty (al : Allocator) : Prop :=
  ∀ p size, 0 < size → size ≤ CInt.intMax → al.valloc p size ≠ none

-- No buffer ends behind this address.
def top (mem : Ref → Mem) : Nat → Int
  | 0 => 0
  | n + 1 => max (top mem n) (mem n).bufend

theorem top_nonneg : 0 ≤ top mem n := by
  induction n
  case zero => exact Int.le_refl _
  case succ hi => exact hi.trans (Int.le_max_left _ _)

theorem bufend_le_top (h : r < n) : (mem r).bufend ≤ top mem n := by
  induction n
  case zero => contradiction
  case succ n hi =>
    cases Nat.lt_succ_iff_lt_or_eq.mp h
    case inl h => exact (hi h).trans (Int.le_max_left _ _)
    case inr h => exact h ▸ Int.le_max_right _ _

theorem fresh_top (h₀ : 0 < size) (hm : size ≤ CInt.intMax) :
    Valloc mem n size (4 * top mem n) := by
  refine ⟨by omega, ?_, fun r hr => .inl ?_⟩
  · simp only [CInt.size, CInt.intMax] at hm ⊢
    omega
  · have h₁ : (mem r).bufend ≤ top mem n := bufend_le_top hr
    have h₂ : 0 ≤ top mem n := top_nonneg
    omega

-- Memory is taken from behind all buffers.
def behindValloc (p : Pool) (size : Int) : Option Int :=
  if 0 < size ∧ size ≤ CInt.intMax then some (4 * top p.ctl.mem p.nctl) else none

theorem behindValloc_fresh (h : behindValloc p size = some a) : Valloc p.ctl.mem p.nctl size a := by
  obtain ⟨⟨h₀, hm⟩, ha⟩ := Option.ite_none_right_eq_some.mp h
  cases ha
  exact fresh_top h₀ hm

def behind : Allocator where
  valloc := behindValloc
  fresh := behindValloc_fresh

theorem behind_plenty : behind.Plenty := fun _ _ h₀ hm => by simp [behind, behindValloc, h₀, hm]

end Allocator

namespace Reader

variable (al : Allocator) {rd rd₁ : Reader}

theorem findPDUBuf_eq (t : Takes rd rd₁ rs) (h₀ : 0 ≤ need) (hm : need ≤ 2147481600) :
    (rd₁.findPDUBuf al need = some (none, rd₁) ∧ ¬al.Plenty) ∨
    ∃ pool r, rd₁.findPDUBuf al need = some (some (pool.ctl.mem r).buf, { rd₁ with pool }) ∧
      Found rd₁.pool pool r ∧ need ≤ (pool.ctl.mem r).size := by
  obtain ⟨fs, ps, hs⟩ := t.sound
  have hmax : need ≤ CInt.intMax := by simp only [CInt.intMax]; omega
  cases ha : al.valloc rd₁.pool (newSize need)
  case some a =>
    obtain ⟨pool, r, hf, hr, hsz⟩ := pmFindPDUBuf_eq hs h₀ hmax fun _ => al.fresh ha
    exact .inr ⟨pool, r, by simp [findPDUBuf, ha, hf], hr, hsz⟩
  case none =>
    by_cases hfit : rd₁.pool.fit need = some none
    · refine .inl ⟨by simp [findPDUBuf, pmFindPDUBuf, ha, hfit], fun hp => ?_⟩
      refine hp rd₁.pool (newSize need) ?_ ?_ ha <;> rw [newSize_eq h₀ hm]
      · omega
      · simp only [CInt.intMax]
        omega
    · obtain ⟨pool, r, hf, hr, hsz⟩ := pmFindPDUBuf_eq hs h₀ hmax (a := 0) (absurd · hfit)
      refine .inr ⟨pool, r, ?_, hr, hsz⟩
      have he : pmFindPDUBuf rd₁.pool need none = pmFindPDUBuf rd₁.pool need (some 0) := by
        unfold pmFindPDUBuf
        cases hfit' : rd₁.pool.fit need
        case none => rfl
        case some o =>
          cases o
          case none => exact absurd hfit' hfit
          case some => rfl
      simp [findPDUBuf, ha, he, hf]

theorem store_eq (t : Takes rd rd₁ rs) (hr : r ∈ rs) (ha : (rd₁.pool.ctl.mem r).buf ≤ a)
    (hl : a + l.length ≤ (rd₁.pool.ctl.mem r).bufend) :
    rd₁.store a l = some { rd₁ with mem := write rd₁.mem a l } ∧
      Takes rd { rd₁ with mem := write rd₁.mem a l } rs := by
  refine ⟨if_pos <| .inr ⟨r, t.lt_nctl r hr, ha, hl⟩, t.modify hr ?_⟩
  exact Frame.write.mono (span_subset ha hl)

theorem swap_takes (t : Takes rd rd₁ rs) (hr : r ∈ rs) (ha : (rd₁.pool.ctl.mem r).buf ≤ a)
    (hl : a + 4 ≤ (rd₁.pool.ctl.mem r).bufend) : Takes rd (rd₁.swap a) rs :=
  t.modify hr (Frame.rev.mono (span_subset ha hl))

theorem fail_eq (sts : Int) (input : Input) (t : Takes rd rd₁ [r]) :
    ∃ rd₂, rd₁.fail (rd₁.pool.ctl.mem r).buf sts input =
      some { sts, result := none, reader := rd₂, input } ∧ Takes rd rd₂ [] ∧
      rd₂.maxsize = rd₁.maxsize := by
  obtain ⟨rd₂, hu, t₂, _, hm, _⟩ := t.unpin (List.mem_singleton_self r)
  exact ⟨rd₂, by simp [fail, hu], by simpa using t₂, hm⟩

end Reader

end PduIo
