import PcpModel.Library.Run
import PcpModel.Rewrite.Main

-- The times in the output archive are the ones in the input archive plus the delta.
namespace Pcp.Timeval

structure Valid (t : Timeval) : Prop where
  sec_nonneg : 0 ≤ t.sec
  sec_lt : t.sec < 0x100000000
  usec_nonneg : 0 ≤ t.usec
  usec_lt : t.usec < 1000000

def shift (t : Timeval) (d : Int) : Timeval :=
  ⟨(t.sec * 1000000 + t.usec + d) / 1000000, (t.sec * 1000000 + t.usec + d) % 1000000⟩

theorem Valid.word_eq {t : Timeval} (h : t.Valid) : t.word = t := by
  obtain ⟨h₁, h₂, h₃, h₄⟩ := h
  cases t
  simp only [Timeval.word, Timeval.mk.injEq] at h₁ h₂ h₃ h₄ ⊢
  omega

end Pcp.Timeval

namespace Rewrite

open List Option Pcp

-- A delta as it is written in a configuration.
structure Delta where
  neg : Bool
  sec : Nat
  usec : Nat
  le : usec ≤ 1000000

namespace Delta

variable (delta : Delta)

def global : Global :=
  .ofDelta delta.neg delta.sec delta.usec

def val : Int :=
  if delta.neg then -(delta.sec * 1000000 + delta.usec) else delta.sec * 1000000 + delta.usec

def Shifts (t : Timeval) : Prop :=
  delta.val = 0 ∨
    delta.sec ≠ 0 ∧ (delta.neg = false → t.usec + delta.usec ≠ 1000000) ∧
      0 ≤ (t.shift delta.val).sec ∧ (t.shift delta.val).sec < 0x100000000

instance : Decidable (Shifts delta t) :=
  inferInstanceAs (Decidable (_ ∨ _))

end Delta

section Fixstamp

variable {delta : Delta} {t : Timeval}

theorem Delta.val_eq_zero : delta.val = 0 ↔ delta.sec = 0 ∧ delta.usec = 0 := by
  simp only [Delta.val]
  split <;> omega

theorem fixstamp_of_sec_eq_zero (h : delta.sec = 0) : fixstamp delta.global t = (t, false) := by
  simp [fixstamp, Delta.global, Global.ofDelta, h]

-- A normalised time is stored as it is iff it has 32 bits.
theorem word_eq_shift (h : t.sec * 1000000 + t.usec + d = x * 1000000 + y) (h₀ : 0 ≤ y)
    (h₁ : y < 1000000) :
    (⟨x, y⟩ : Timeval).word = t.shift d ↔ 0 ≤ (t.shift d).sec ∧ (t.shift d).sec < 0x100000000 := by
  have hs : t.shift d = ⟨x, y⟩ := by
    simp only [Timeval.shift, Timeval.mk.injEq]
    omega
  rw [hs]
  simp only [Timeval.word, Timeval.mk.injEq]
  omega

theorem fixstamp_of_sec_ne_zero (h : delta.sec ≠ 0) :
    fixstamp delta.global t =
      (if delta.neg then
        if t.usec - delta.usec < 0 then
          ⟨t.sec - delta.sec - 1, t.usec - delta.usec + 1000000⟩
        else
          ⟨t.sec - delta.sec, t.usec - delta.usec⟩
      else
        if t.usec + delta.usec > 1000000 then
          ⟨t.sec + delta.sec + 1, t.usec + delta.usec - 1000000⟩
        else
          ⟨t.sec + delta.sec, t.usec + delta.usec⟩, true) := by
  have hpos : (delta.sec : Int) > 0 := by omega
  have hnpos : ¬-(delta.sec : Int) > 0 := by omega
  have hneg : -(delta.sec : Int) < 0 := by omega
  have hch : delta.global.change = true := by simp [Delta.global, Global.ofDelta, h]
  cases hn : delta.neg
  case true =>
    have hsec : delta.global.time.sec = -delta.sec := by simp [Delta.global, Global.ofDelta, hn]
    simp only [fixstamp, hch, hsec, hnpos, hneg, and_false]
    rfl
  case false =>
    have hsec : delta.global.time.sec = delta.sec := by simp [Delta.global, Global.ofDelta, hn]
    simp only [fixstamp, hch, hsec, hpos, and_self]
    rfl

theorem word_fixstamp (ht : t.Valid) :
    (fixstamp delta.global t).1.word = t.shift delta.val ↔ delta.Shifts t := by
  obtain ⟨h₁, h₂, h₃, h₄⟩ := ht
  have hle := delta.le
  by_cases hs : delta.sec = 0
  · rw [fixstamp_of_sec_eq_zero hs]
    simp only [Delta.Shifts, hs, ne_eq, not_true, false_and, or_false]
    simp only [Timeval.word, Timeval.shift, Timeval.mk.injEq]
    simp only [Delta.val]
    split <;> omega
  · rw [fixstamp_of_sec_ne_zero hs]
    have hv : delta.val ≠ 0 := fun h => hs (Delta.val_eq_zero.mp h).left
    simp only [Delta.Shifts, hv, hs, ne_eq, not_false_eq_true, true_and, false_or]
    cases hn : delta.neg
    case true =>
      simp only [if_true, Bool.true_eq_false, false_implies, true_and]
      have hval : delta.val = -(delta.sec * 1000000 + delta.usec) := by simp [Delta.val, hn]
      split
      case isTrue => exact word_eq_shift (by omega) (by omega) (by omega)
      case isFalse => exact word_eq_shift (by omega) (by omega) (by omega)
    case false =>
      simp only [Bool.false_eq_true, if_false, true_implies]
      have hval : delta.val = delta.sec * 1000000 + delta.usec := by simp [Delta.val, hn]
      by_cases he : t.usec + delta.usec = 1000000
      · -- the carry is missing
        refine iff_of_false (fun h => ?_) fun h => h.left he
        rw [Timeval.word, Timeval.shift, Timeval.mk.injEq, he] at h
        have hlt := Int.emod_lt_of_pos (t.sec * 1000000 + t.usec + delta.val)
          (show (0 : Int) < 1000000 by decide)
        rw [← h.right] at hlt
        simp at hlt
      · simp only [he, not_false_eq_true, true_and]
        split
        case isTrue => exact word_eq_shift (by omega) (by omega) (by omega)
        case isFalse => exact word_eq_shift (by omega) (by omega) (by omega)

end Fixstamp

section Run

variable {α : Type} {delta : Delta} {spec : Spec α}

def Event.times : Event α → Option (Timeval × Timeval)
  | .desc _ => none
  | .indom old _ new _ => some (old, new)
  | .label old new => some (old, new)
  | .index old new => some (old, new)
  | .data r new _ => some (r.stamp, new)

def Event.Exact (delta : Delta) (e : Event α) : Prop :=
  ∀ t ∈ e.times, t.2 = t.1.shift delta.val

def Event.Shifts (delta : Delta) (e : Event α) : Prop :=
  ∀ t ∈ e.times, delta.Shifts t.1

instance (e : Event α) : Decidable (e.Shifts delta) :=
  inferInstanceAs (Decidable (∀ t ∈ e.times, _))

def Event.Fixed (delta : Delta) (e : Event α) : Prop :=
  ∀ t ∈ e.times, t.1.Valid ∧ t.2 = (fixstamp delta.global t.1).1.word

theorem Event.Fixed.exact_iff {e : Event α} (h : e.Fixed delta) :
    e.Exact delta ↔ e.Shifts delta := by
  refine forall_congr' fun t => imp_congr_right fun ht => ?_
  obtain ⟨hv, he⟩ := h t ht
  rw [he]
  exact word_fixstamp hv

def Meta.Valid : Meta → Prop
  | .desc _ => True
  | .indom stamp _ => stamp.Valid

-- The time that is put into a metadata record which has not been changed before.
theorem fixstamp_word (h : t.Valid) :
    (if (fixstamp delta.global t).2 then (fixstamp delta.global t).1.word else t) =
      (fixstamp delta.global t).1.word := by
  by_cases hs : delta.sec = 0
  · rw [fixstamp_of_sec_eq_zero hs]
    simp [h.word_eq]
  · rw [fixstamp_of_sec_ne_zero hs]
    rfl

structure MetaLoop.Ok (delta : Delta) (m : MetaLoop α) : Prop where
  fixed : ∀ e ∈ m.events, e.Fixed delta
  valid : ∀ x ∈ m.metas, x.Valid
  stamp : ∀ t, m.stamp = some t → ∃ old r l, m.metas = .indom old r :: l ∧ (delta.sec = 0 → t = old)

theorem metaLoop_ok (hg : spec.global = delta.global) (hv : ∀ x ∈ metas, x.Valid)
    (hs : ∀ t, stamp = some t → ∃ old r l, metas = .indom old r :: l ∧ t = old) :
    (metaLoop spec rp pmids stamp metas).Ok delta := by
  induction metas generalizing stamp
  case nil => exact ⟨by simp [metaLoop], by simp [metaLoop], by simp [metaLoop]⟩
  case cons x metas hi =>
    simp only [mem_cons, forall_eq_or_imp] at hv
    have hm : (metaLoop spec rp pmids none metas).Ok delta := hi hv.right (by simp)
    cases x
    case desc pmid =>
      simp only [metaLoop]
      split
      case isFalse => exact ⟨by simp, by simpa [Meta.Valid] using hv.right, by simp⟩
      case isTrue =>
        refine ⟨fun e he => ?_, hm.valid, hm.stamp⟩
        rcases mem_append.mp he with he | he
        · simp only [doDesc] at he
          split at he
          case isTrue => cases he
          case isFalse =>
            cases mem_singleton.mp he
            intro t ht
            cases ht
        · exact hm.fixed e he
    case indom old r =>
      have hold : stamp.getD old = old := by
        cases stamp
        case none => rfl
        case some t =>
          obtain ⟨_, _, _, he, rfl⟩ := hs t rfl
          cases he
          rfl
      simp only [metaLoop, hold, hg, fixstamp_word hv.left]
      split
      case isTrue =>
        refine ⟨by simp, by simpa using hv, fun t ht => ⟨old, r, metas, rfl, fun h₀ => ?_⟩⟩
        cases ht
        rw [fixstamp_of_sec_eq_zero h₀, hv.left.word_eq]
      case isFalse =>
        refine ⟨fun e he => ?_, hm.valid, hm.stamp⟩
        rcases mem_cons.mp he with rfl | he
        · intro t ht
          cases ht
          exact ⟨hv.left, rfl⟩
        · exact hm.fixed e he

structure State.Ok (delta : Delta) (s : State) : Prop where
  valid : ∀ x ∈ s.metas, x.Valid
  stamp : ∀ t, s.stamp = some t → ∃ old r l, s.metas = .indom old r :: l ∧ (delta.sec = 0 → t = old)
  last : ∀ old new, s.last = some (old, new) → old.Valid ∧ new = (fixstamp delta.global old).1.word

-- When the times are changed, no instance domain is waiting for a data record.
def NoWait (delta : Delta) (s : State) : Prop :=
  delta.sec ≠ 0 → s.stamp = none

instance : Decidable (NoWait delta s) :=
  inferInstanceAs (Decidable (_ → _))

theorem State.Ok.step (h : s.Ok delta) (hg : spec.global = delta.global)
    (hw : NoWait delta s) (hr : r.stamp.Valid) :
    (s.step spec r).1.Ok delta ∧ ∀ e ∈ (s.step spec r).2, e.Fixed delta := by
  have hm : (metaLoop spec (fixstamp spec.global r.stamp).1 (r.vset.map (·.pmid)) s.stamp
      s.metas).Ok delta := by
    refine metaLoop_ok hg h.valid fun t ht => ?_
    by_cases h₀ : delta.sec = 0
    · obtain ⟨old, r, l, hm, he⟩ := h.stamp t ht
      exact ⟨old, r, l, hm, he h₀⟩
    · cases (hw h₀).symm.trans ht
  constructor
  · refine ⟨hm.valid, hm.stamp, fun old new ht => ?_⟩
    cases ht
    exact ⟨hr, hg ▸ rfl⟩
  · intro e he
    simp only [State.step, mem_append] at he
    rcases he with ((he | he) | he) | he
    case inl.inl.inl => exact hm.fixed e he
    case inl.inl.inr | inl.inr =>
      split at he
      case isTrue =>
        cases mem_singleton.mp he
        intro t ht
        cases ht
        exact ⟨hr, hg ▸ rfl⟩
      case isFalse => cases he
    case inr =>
      obtain ⟨vset, _, rfl⟩ := map_eq_some_iff.mp (mem_toList.mp he)
      intro t ht
      cases ht
      exact ⟨hr, hg ▸ rfl⟩

theorem State.Ok.run (h : s.Ok delta)
    (hg : spec.global = delta.global)
    (hw : Run.Guarded (fun s r => some (State.step spec s r).1) (fun s _ => NoWait delta s) s data)
    (hr : ∀ r ∈ data, r.stamp.Valid) (hrun : s.run spec data = some es) :
    ∀ e ∈ es, e.Fixed delta := by
  induction data generalizing s es
  case nil =>
    simp only [State.run, State.finish] at hrun
    split at hrun
    case isTrue =>
      cases hrun
      simp
    case isFalse =>
      obtain ⟨t, ht, rfl⟩ := map_eq_some_iff.mp hrun
      intro e he
      cases mem_singleton.mp he
      intro t' he
      cases he
      exact h.last t.1 t.2 ht
  case cons r data hi =>
    obtain ⟨es', hes, rfl⟩ := map_eq_some_iff.mp hrun
    obtain ⟨hok, hfix⟩ := h.step hg hw.left (hr r mem_cons_self)
    intro e he
    rcases mem_append.mp he with he | he
    · exact hfix e he
    · exact hi hok (hw.right _ rfl) (fun r' hr' => hr r' (mem_cons_of_mem _ hr')) hes e he

theorem start_ok (h : ∀ x ∈ metas, x.Valid) : (State.start metas ti).Ok delta :=
  ⟨h, by simp [State.start], by simp [State.start]⟩

theorem State.run_some (spec : Spec α) {s : State}
    (h : s.last.isSome ∨ data ≠ []) : ∃ es, s.run spec data = some es := by
  rw [← isSome_iff_exists]
  induction data generalizing s
  case nil =>
    simp only [State.run, State.finish]
    split
    case isTrue => rfl
    case isFalse => simpa using h
  case cons r data hi =>
    rw [State.run, isSome_map]
    exact hi (.inl rfl)

theorem earlier_le : 500000 ≤ 1000000 := by decide

def earlier : Delta :=
  ⟨true, 10, 500000, earlier_le⟩

def earlierSpec : Spec Unit :=
  ⟨earlier.global, [], []⟩

def dueMetas : List Meta :=
  [.desc 1, .indom ⟨20, 0⟩ ⟨5, []⟩]

def dueData : List (Record Unit) :=
  [⟨⟨20, 600000⟩, [⟨1, []⟩]⟩, ⟨⟨30, 0⟩, [⟨1, []⟩]⟩]

theorem dueMetas_valid : ∀ x ∈ dueMetas, x.Valid := by
  simp only [dueMetas, mem_cons, not_mem_nil, or_false, forall_eq_or_imp, forall_eq]
  exact ⟨trivial, by constructor <;> decide⟩

theorem dueData_valid : ∀ r ∈ dueData, r.stamp.Valid := by
  simp only [dueData, mem_cons, not_mem_nil, or_false, forall_eq_or_imp, forall_eq]
  constructor <;> constructor <;> decide

theorem due_guarded : Run.Guarded (fun s r => some (State.step earlierSpec s r).1)
    (fun s _ => NoWait earlier s) (.start dueMetas []) dueData := by
  decide

end Run

end Rewrite
