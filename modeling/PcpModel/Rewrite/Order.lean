import Mathlib.Data.List.TakeWhile
import PcpModel.Rewrite.Stamps

-- The order in which metadata and data are written.
namespace Rewrite

open List Pcp

variable {α : Type} (spec : Spec α)

def Meta.Due (r : Record α) : Meta → Prop
  | .desc pmid => pmid ∈ r.vset.map (·.pmid)
  | .indom old _ => ¬old.After r.stamp

instance (r : Record α) : (x : Meta) → Decidable (x.Due r)
  | .desc _ => inferInstanceAs (Decidable (_ ∈ _))
  | .indom _ _ => inferInstanceAs (Decidable (¬_))

def Spec.keeps : Meta → Bool
  | .desc pmid => !spec.deleted pmid
  | .indom _ _ => true

def Event.meta? : Event α → Option Meta
  | .desc pmid => some (.desc pmid)
  | .indom old r _ _ => some (.indom old r)
  | _ => none

def Spec.descs (l : List Meta) : List Nat :=
  l.filterMap fun x => match x with
    | .desc pmid => if spec.deleted pmid then none else some pmid
    | _ => none

-- No data record with a metric is written before the descriptor of the metric.
def Ordered (seen : List Nat) : List (Event α) → Prop
  | [] => True
  | .desc pmid :: l => Ordered (seen ++ [pmid]) l
  | .data r _ _ :: l => (∀ v ∈ r.vset, spec.deleted v.pmid = false → v.pmid ∈ seen) ∧ Ordered seen l
  | .indom .. :: l => Ordered seen l
  | .label .. :: l => Ordered seen l
  | .index .. :: l => Ordered seen l

-- The metadata consists of blocks, one for each data record and in their order.
def Scheduled (seen : List Nat) : List (Record α) → List Meta → Prop
  | [], metas => ∀ x ∈ metas, spec.keeps x = false
  | r :: l, metas => ∃ block rest, metas = block ++ rest ∧ (∀ x ∈ block, x.Due r) ∧
      (∀ v ∈ r.vset, spec.deleted v.pmid = false → v.pmid ∈ seen ++ spec.descs block) ∧
      Scheduled (seen ++ spec.descs block) l rest

section Scheduled

variable {spec}

theorem descs_append : spec.descs (l ++ l') = spec.descs l ++ spec.descs l' :=
  filterMap_append ..

theorem Scheduled.mono (h : Scheduled spec seen data metas)
    (hs : seen ⊆ seen') : Scheduled spec seen' data metas := by
  induction data generalizing seen seen' metas
  case nil => exact h
  case cons r data hi =>
    obtain ⟨block, rest, rfl, hdue, hp, h⟩ := h
    have hsub : seen ++ spec.descs block ⊆ seen' ++ spec.descs block :=
      append_subset.mpr
        ⟨Subset.trans hs (subset_append_left ..), subset_append_right ..⟩
    exact ⟨block, rest, rfl, hdue, fun v hv hd => hsub (hp v hv hd), hi h hsub⟩

-- Metadata at the start of a schedule may also be written before.
theorem Scheduled.drop (h : Scheduled spec seen data (l ++ metas)) :
    Scheduled spec (seen ++ spec.descs l) data metas := by
  induction data generalizing seen l metas
  case nil => exact fun x hx => h x (mem_append_right _ hx)
  case cons r data hi =>
    obtain ⟨block, rest, he, hdue, hp, h⟩ := h
    rcases append_eq_append_iff.mp he with ⟨l', rfl, rfl⟩ | ⟨l', rfl, rfl⟩
    · -- the block reaches behind what is dropped
      refine ⟨l', rest, rfl, fun x hx => hdue x (mem_append_right _ hx), ?_, ?_⟩
      · intro v hv hd
        have hm := hp v hv hd
        simp only [descs_append, mem_append] at hm ⊢
        tauto
      · refine h.mono fun p hm => ?_
        simp only [descs_append, mem_append] at hm ⊢
        tauto
    · refine ⟨[], metas, rfl, by simp, ?_, ?_⟩
      · intro v hv hd
        have hm := hp v hv hd
        simp only [descs_append, mem_append] at hm ⊢
        tauto
      · refine (hi h).mono fun p hm => ?_
        simp only [descs_append, mem_append] at hm ⊢
        tauto

-- It is enough to look at the longest block.
theorem scheduled_cons :
    Scheduled spec seen (r :: data) metas ↔
      (∀ v ∈ r.vset, spec.deleted v.pmid = false →
        v.pmid ∈ seen ++ spec.descs (metas.takeWhile (·.Due r))) ∧
      Scheduled spec (seen ++ spec.descs (metas.takeWhile (·.Due r))) data
        (metas.dropWhile (·.Due r)) := by
  constructor
  · rintro ⟨block, rest, rfl, hdue, hp, h⟩
    have htake : (block ++ rest).takeWhile (·.Due r) = block ++ rest.takeWhile (·.Due r) :=
      takeWhile_append_of_pos (by simpa using hdue)
    have hdrop : (block ++ rest).dropWhile (·.Due r) = rest.dropWhile (·.Due r) :=
      dropWhile_append_of_pos (by simpa using hdue)
    rw [htake, hdrop, descs_append]
    constructor
    · intro v hv hd
      have hm := hp v hv hd
      simp only [mem_append] at hm ⊢
      tauto
    · have hsplit : rest = rest.takeWhile (·.Due r) ++ rest.dropWhile (·.Due r) :=
        takeWhile_append_dropWhile.symm
      rw [hsplit] at h
      refine h.drop.mono fun p hm => ?_
      simp only [mem_append] at hm ⊢
      tauto
  · intro ⟨hp, h⟩
    refine ⟨_, _, takeWhile_append_dropWhile.symm, fun x hx => ?_, hp, h⟩
    simpa using mem_takeWhile_imp hx

end Scheduled

section Run

variable {spec} {delta : Delta}

theorem fixstamp_after (delta : Delta) (hs : s.Valid) (ht : t.Valid) :
    (fixstamp delta.global s).1.After (fixstamp delta.global t).1 ↔ s.After t := by
  obtain ⟨_, _, hs₀, hs₁⟩ := hs
  obtain ⟨_, _, ht₀, ht₁⟩ := ht
  by_cases h : delta.sec = 0
  · rw [fixstamp_of_sec_eq_zero h, fixstamp_of_sec_eq_zero h]
  · rw [fixstamp_of_sec_ne_zero h, fixstamp_of_sec_ne_zero h]
    split <;> split <;> split <;> simp only [Timeval.After] <;> omega

def Clean (stamp : Option Timeval) (metas : List Meta) : Prop :=
  ∀ t, stamp = some t → ∃ old r l, metas = .indom old r :: l ∧ t = old

theorem clean_none : Clean none metas :=
  fun _ h => nomatch h

theorem Clean.getD (h : Clean stamp (.indom old r :: metas)) : stamp.getD old = old := by
  cases stamp
  case none => rfl
  case some t =>
    obtain ⟨_, _, _, he, rfl⟩ := h t rfl
    cases he
    rfl

theorem State.Ok.clean (h : s.Ok delta) (hw : NoWait delta s) : Clean s.stamp s.metas := by
  intro t ht
  by_cases h₀ : delta.sec = 0
  · obtain ⟨old, r, l, hm, he⟩ := h.stamp t ht
    exact ⟨old, r, l, hm, he h₀⟩
  · cases (hw h₀).symm.trans ht

theorem takeWhile_due {r : Record α} (metas : List Meta) (h : x.Due r) :
    (x :: metas).takeWhile (·.Due r) = x :: metas.takeWhile (·.Due r) ∧
      (x :: metas).dropWhile (·.Due r) = metas.dropWhile (·.Due r) := by
  simp [h]

theorem takeWhile_not_due {r : Record α} (metas : List Meta) (h : ¬x.Due r) :
    (x :: metas).takeWhile (·.Due r) = [] ∧ (x :: metas).dropWhile (·.Due r) = x :: metas := by
  simp [h]

theorem metaLoop_due {r : Record α} (hg : spec.global = delta.global) (hr : r.stamp.Valid)
    (hv : ∀ x ∈ metas, x.Valid) (hc : Clean stamp metas) :
    let m := metaLoop spec (fixstamp spec.global r.stamp).1 (r.vset.map (·.pmid)) stamp metas
    m.metas = metas.dropWhile (·.Due r) ∧
    m.events.filterMap Event.meta? = (metas.takeWhile (·.Due r)).filter spec.keeps ∧
    ∀ seen l, Ordered spec seen (m.events ++ l) ↔
      Ordered spec (seen ++ spec.descs (metas.takeWhile (·.Due r))) l := by
  induction metas generalizing stamp
  case nil => simp [metaLoop, Spec.descs]
  case cons x metas hi =>
    simp only [mem_cons, forall_eq_or_imp] at hv
    obtain ⟨hm, he, ho⟩ := hi hv.right clean_none
    cases x
    case desc pmid =>
      simp only [metaLoop]
      by_cases hd : pmid ∈ r.vset.map (·.pmid)
      · have hdue : (Meta.desc pmid).Due r := hd
        obtain ⟨htake, hdrop⟩ := takeWhile_due metas hdue
        rw [if_pos hd, htake, hdrop]
        refine ⟨hm, ?_, fun seen l => ?_⟩
        · cases hdel : spec.deleted pmid <;> simp [doDesc, hdel, Spec.keeps, Event.meta?, he]
        · cases hdel : spec.deleted pmid <;> simp [doDesc, hdel, Ordered, ho, Spec.descs]
      · have hdue : ¬(Meta.desc pmid).Due r := hd
        obtain ⟨htake, hdrop⟩ := takeWhile_not_due metas hdue
        rw [if_neg hd, htake, hdrop]
        simp [Spec.descs]
    case indom old ind =>
      simp only [metaLoop, hc.getD]
      have hafter := fixstamp_after delta hv.left hr
      rw [← hg] at hafter
      by_cases hd : old.After r.stamp
      · have hdue : ¬(Meta.indom old ind).Due r := not_not.mpr hd
        obtain ⟨htake, hdrop⟩ := takeWhile_not_due metas hdue
        rw [if_pos (hafter.mpr hd), htake, hdrop]
        simp [Spec.descs]
      · have hdue : (Meta.indom old ind).Due r := hd
        obtain ⟨htake, hdrop⟩ := takeWhile_due metas hdue
        rw [if_neg (mt hafter.mp hd), htake, hdrop]
        refine ⟨hm, ?_, fun seen l => ?_⟩
        · rw [filter_cons_of_pos (rfl : spec.keeps (.indom old ind) = true), ← he]
          rfl
        · simp [Ordered, ho, Spec.descs]

theorem rewrite_eq_none {mp : Linked α} : mp.rewrite vsp = none ↔ mp.delete = true := by
  cases h : mp.delete <;> simp [Linked.rewrite, h]

-- A data record is written unless all of its metrics are deleted.
theorem ordered_data (r : Record α) (new : Timeval) (seen : List Nat) (l : List (Event α)) :
    Ordered spec seen (((doResult spec.metric r.vset).map (.data r new)).toList ++ l) ↔
      (∀ v ∈ r.vset, spec.deleted v.pmid = false → v.pmid ∈ seen) ∧ Ordered spec seen l := by
  simp only [doResult]
  split
  case isTrue => simp [Ordered]
  case isFalse h =>
    have hall : ∀ v ∈ r.vset, spec.deleted v.pmid = true := by
      intro v hv
      simp only [not_or, not_not, filterMap_eq_nil_iff] at h
      have hn := h.right v hv
      rw [Spec.deleted]
      cases hf : spec.metric.find? (·.pmid = v.pmid)
      case none =>
        rw [hf] at hn
        cases hn
      case some mp =>
        rw [hf] at hn
        exact rewrite_eq_none.mp hn
    refine ⟨fun ho => ⟨fun v hv hd => ?_, ho⟩, And.right⟩
    cases (hall v hv).symm.trans hd

theorem State.Ok.step_ordered (h : s.Ok delta)
    (hg : spec.global = delta.global) (hw : NoWait delta s) (hr : r.stamp.Valid) :
    (s.step spec r).1.metas = s.metas.dropWhile (·.Due r) ∧
    (s.step spec r).2.filterMap Event.meta? = (s.metas.takeWhile (·.Due r)).filter spec.keeps ∧
    ∀ seen l, Ordered spec seen ((s.step spec r).2 ++ l) ↔
      (∀ v ∈ r.vset, spec.deleted v.pmid = false →
        v.pmid ∈ seen ++ spec.descs (s.metas.takeWhile (·.Due r))) ∧
      Ordered spec (seen ++ spec.descs (s.metas.takeWhile (·.Due r))) l := by
  obtain ⟨hm, he, ho⟩ := metaLoop_due hg hr h.valid (h.clean hw)
  refine ⟨hm, ?_, fun seen l => ?_⟩
  · have hl : ∀ (b : Bool) (e : Event α), e.meta? = none →
        (if b then [e] else []).filterMap Event.meta? = [] := by
      intro b e hn
      cases b <;> simp [hn]
    have hd : ∀ (o : Option (List (ValueSet α))) new,
        ((o.map (Event.data r new)).toList).filterMap Event.meta? = [] := by
      intro o new
      cases o <;> rfl
    simp only [State.step, filterMap_append, he, hd, append_nil]
    rw [hl _ _ rfl, hl _ _ rfl, append_nil, append_nil]
  · have hl : ∀ (b : Bool) (e : Event α) seen l, (∀ seen l, Ordered spec seen (e :: l) ↔
        Ordered spec seen l) → (Ordered spec seen ((if b then [e] else []) ++ l) ↔
          Ordered spec seen l) := by
      intro b e seen l hn
      cases b
      case false => exact Iff.rfl
      case true => exact hn seen l
    simp only [State.step, append_assoc, ho]
    rw [hl _ _ _ _ fun _ _ => Iff.rfl, hl _ _ _ _ fun _ _ => Iff.rfl, ordered_data]

theorem State.Ok.run_scheduled (h : s.Ok delta)
    (hg : spec.global = delta.global)
    (hw : Run.Guarded (fun s r => some (State.step spec s r).1) (fun s _ => NoWait delta s) s data)
    (hr : ∀ r ∈ data, r.stamp.Valid) (hrun : s.run spec data = some es) (seen : List Nat) :
    (es.filterMap Event.meta? = s.metas.filter spec.keeps ∧ Ordered spec seen es) ↔
      Scheduled spec seen data s.metas := by
  induction data generalizing s es seen
  case nil =>
    have hes : es.filterMap Event.meta? = [] ∧ Ordered spec seen es := by
      simp only [State.run, State.finish] at hrun
      split at hrun
      case isTrue =>
        cases hrun
        exact ⟨rfl, trivial⟩
      case isFalse =>
        obtain ⟨t, _, rfl⟩ := Option.map_eq_some_iff.mp hrun
        exact ⟨rfl, trivial⟩
    simp only [hes.left, hes.right, Scheduled]
    simp
  case cons r data hi =>
    obtain ⟨es', hes, rfl⟩ := Option.map_eq_some_iff.mp hrun
    have hv := hr r mem_cons_self
    obtain ⟨hm, he, ho⟩ := h.step_ordered hg hw.left hv
    have hi := hi (h.step hg hw.left hv).left (hw.right _ rfl)
      (fun r' hr' => hr r' (mem_cons_of_mem _ hr')) hes
      (seen ++ spec.descs (s.metas.takeWhile (·.Due r)))
    have hsplit : s.metas.filter spec.keeps = (s.metas.takeWhile (·.Due r)).filter spec.keeps ++
        (s.metas.dropWhile (·.Due r)).filter spec.keeps := by
      rw [← filter_append, takeWhile_append_dropWhile]
    rw [hm] at hi
    rw [scheduled_cons, ho, filterMap_append, he, hsplit, append_cancel_left_eq]
    tauto

end Run

end Rewrite
