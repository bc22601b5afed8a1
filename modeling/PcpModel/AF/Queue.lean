import PcpModel.AF.Basic
import PcpModel.Library.Run

-- The queue of events and what has happened to them.
namespace Pcp.Timeval

variable {a b : Timeval}

@[simp]
theorem tadd_total : (a.tadd b).total = a.total + b.total := by
  simp only [tadd, total]
  split <;> dsimp only <;> omega

@[simp]
theorem tsubReal_total : (a.tsubReal b).total = a.total - b.total := by
  simp only [tsubReal, total]
  split <;> dsimp only <;> omega

theorem Normal.tadd (ha : a.Normal) (hb : b.Normal) (h : a.usec + b.usec ≠ 1000000) :
    (a.tadd b).Normal := by
  simp only [Normal, Timeval.tadd] at *
  split <;> dsimp only <;> omega

theorem Normal.tsubReal (ha : a.Normal) (hb : b.Normal) : (a.tsubReal b).Normal := by
  simp only [Normal, Timeval.tsubReal] at *
  split <;> dsimp only <;> omega

theorem Normal.sec_nonneg (ha : a.Normal) : 0 ≤ a.sec ↔ 0 ≤ a.total := by
  simp only [Normal, total] at *
  omega

theorem tsub_due (ha : a.Normal) (hb : b.Normal) :
    (a.tsub b).sec = 0 ∧ (a.tsub b).usec ≤ 10000 ↔ a.total ≤ b.total + 10000 := by
  have hn := ha.tsubReal hb
  have ht := @tsubReal_total a b
  simp only [Normal, total] at *
  simp only [tsub]
  split
  case isTrue => dsimp only; omega
  case isFalse => omega

def Near (a b : Timeval) : Prop :=
  -2 ^ 31 ≤ a.sec - b.sec ∧ a.sec - b.sec ≤ CInt.intMax

instance : Decidable (Near a b) :=
  inferInstanceAs (Decidable (_ ∧ _))

theorem tcmp_nonneg (ha : a.Normal) (hb : b.Normal) (h : a.Near b) :
    a.tcmp b ≥ 0 ↔ b.total ≤ a.total := by
  have hu : CInt.int (a.usec - b.usec) = a.usec - b.usec := by
    refine CInt.int_eq ?_ ?_ <;> simp only [Normal, CInt.intMax] at * <;> omega
  simp only [tcmp, CInt.int_eq h.left h.right]
  simp only [Normal, total] at *
  split <;> omega

end Pcp.Timeval

namespace AF

open List Nat Pcp

open Timeval

section Enqueue

variable {qp : Event} {root : List Event}

theorem enqueue_perm : (enqueue qp root).Perm (qp :: root) := by
  induction root
  case nil => exact .refl _
  case cons tqp rest ih =>
    simp only [enqueue]
    split
    case isTrue => exact (ih.cons tqp).trans (.swap ..)
    case isFalse => exact .refl _

def Sorted (root : List Event) : Prop :=
  root.Pairwise fun e e' => e.due.total ≤ e'.due.total

theorem Sorted.enqueue (h : Sorted root) (hq : ∀ e ∈ root,
    qp.due.tcmp e.due ≥ 0 ↔ e.due.total ≤ qp.due.total) : Sorted (enqueue qp root) := by
  induction root
  case nil => exact pairwise_singleton ..
  case cons tqp rest ih =>
    obtain ⟨ht, hr⟩ := pairwise_cons.mp h
    obtain ⟨hc, hq⟩ := forall_mem_cons.mp hq
    simp only [AF.enqueue]
    split
    case isTrue hge =>
      refine pairwise_cons.mpr ⟨fun e he => ?_, ih hr hq⟩
      obtain rfl | he := mem_cons.mp (enqueue_perm.subset he)
      · exact hc.mp hge
      · exact ht e he
    case isFalse hlt =>
      have hl : qp.due.total < tqp.due.total := Int.not_le.mp (hlt ∘ hc.mpr)
      refine pairwise_cons.mpr ⟨fun e he => ?_, h⟩
      obtain rfl | he := mem_cons.mp he
      · exact Int.le_of_lt hl
      · exact Int.le_trans (Int.le_of_lt hl) (ht e he)

end Enqueue

section Reschedule

variable {delta now due : Timeval}

def Clean (delta now : Timeval) : Nat → Timeval → Prop
  | 0, _ => True
  | n + 1, due => due.usec + delta.usec ≠ 1000000 ∧
      ((due.tadd delta).tsubReal now).usec + delta.usec ≠ 1000000 ∧
      ((((due.tadd delta).tsubReal now).tadd delta).sec < 0 → Clean delta now n (due.tadd delta))

instance Clean.decidable : (n : Nat) → (due : Timeval) → Decidable (Clean delta now n due)
  | 0, _ => .isTrue trivial
  | n + 1, due =>
    have := decidable n (due.tadd delta)
    inferInstanceAs (Decidable (_ ∧ _))

-- The next time is on the grid, and only times more than one period in the past are skipped.
def Next (delta now due due' : Timeval) : Prop :=
  ∃ k : Nat, 1 ≤ k ∧ due'.total = due.total + k * delta.total ∧
    ∀ j : Nat, 1 ≤ j → j < k → due.total + j * delta.total + delta.total < now.total

theorem reschedule_eq (hd : delta.Normal) (hn : now.Normal) (hp : 0 < delta.total) :
    ∀ {n : Nat} {due : Timeval}, due.Normal → now.total - due.total < n → 0 < n →
      Clean delta now n due → ∃ due', reschedule delta now n due = some due' ∧ due'.Normal ∧
        Next delta now due due'
  | 0, _, _, _, h₀, _ => absurd h₀ (lt_irrefl 0)
  | n + 1, due, hw, hl, _, hc => by
    obtain ⟨h₁, h₂, h₃⟩ := hc
    have ha := hw.tadd hd h₁
    have ht := (ha.tsubReal hn).tadd hd h₂
    have hs := ht.sec_nonneg
    simp only [tadd_total, tsubReal_total] at hs
    simp only [reschedule]
    split
    case isTrue hge =>
      refine ⟨_, rfl, ha, 1, le_refl 1, by simp, fun j hj hk => ?_⟩
      omega
    case isFalse hlt =>
      have hlt : (((due.tadd delta).tsubReal now).tadd delta).sec < 0 := Int.not_le.mp hlt
      have hneg : due.total + delta.total - now.total + delta.total < 0 :=
        Int.not_le.mp fun h => Int.not_le.mpr hlt (hs.mpr h)
      have hb : now.total - (due.tadd delta).total < n := by
        rw [tadd_total]
        omega
      obtain ⟨due', he, hn', k, hk, ht', hj⟩ := reschedule_eq hd hn hp ha hb (by omega) (h₃ hlt)
      rw [tadd_total] at ht' hj
      refine ⟨due', he, hn', k + 1, by omega, ?_, fun j hj₁ hjk => ?_⟩
      · rw [Int.natCast_succ, Int.add_mul]
        omega
      · obtain ⟨i, rfl⟩ := Nat.exists_eq_add_of_le' hj₁
        rw [Int.natCast_succ, Int.add_mul]
        cases i with
        | zero => simpa using by omega
        | succ i =>
          have := hj (i + 1) (by omega) (by omega)
          omega

end Reschedule

section Trace

def regs : List Note → List Nat
  | [] => []
  | .registered e :: ns => e.afid :: regs ns
  | _ :: ns => regs ns

-- An event lives from its registration until it is unregistered, or until its only call.
def Live : List Note → Nat → Prop
  | [], _ => False
  | .registered e :: ns, a => e.afid = a ∨ Live ns a
  | .unregistered i :: ns, a => i ≠ a ∧ Live ns a
  | .called e _ _ :: ns, a => ¬(e.OneShot ∧ e.afid = a) ∧ Live ns a
  | .rescheduled _ _ _ :: ns, a => Live ns a
  | .finished _ _ :: ns, a => Live ns a

def Calls : List Note → Prop
  | [] => True
  | .called e _ _ :: ns => Live ns e.afid ∧ Calls ns
  | _ :: ns => Calls ns

def Note.Good : Note → Prop
  | .called e now others => e.due.total ≤ now.total + 10000 ∧
      ∀ e' ∈ others, e.due.total ≤ e'.due.total
  | .rescheduled e due now => Next e.delta now e.due due
  | .finished now queue => ∀ e ∈ queue, now.total + 10000 < e.due.total
  | _ => True

-- The time of an event is the first one or a number of periods later.
def OnGrid (trace : List Note) (e : Event) : Prop :=
  ∃ e₀, .registered e₀ ∈ trace ∧ e₀.afid = e.afid ∧ e₀.delta = e.delta ∧
    ∃ k : Nat, e.due.total = e₀.due.total + k * e.delta.total

variable {ns : List Note}

theorem OnGrid.cons (h : OnGrid ns e) : OnGrid (n :: ns) e :=
  have ⟨e₀, hm, h⟩ := h
  ⟨e₀, mem_cons_of_mem _ hm, h⟩

theorem mem_regs : a ∈ regs ns ↔ ∃ e, .registered e ∈ ns ∧ e.afid = a := by
  induction ns
  case nil => simp [regs]
  case cons n ns ih => cases n <;> simp [regs, ih, eq_comm]

theorem regs_append : regs (ms ++ ns) = regs ms ++ regs ns := by
  induction ms
  case nil => rfl
  case cons m ms ih => cases m <;> simp [regs, ih]

theorem mem_regs_append (ms : List Note) (h : a ∈ regs ns) : a ∈ regs (ms ++ ns) :=
  regs_append ▸ mem_append_right _ h

theorem registered_inj (hd : (regs ns).Nodup) (he : .registered e ∈ ns)
    (he' : .registered e' ∈ ns) (ha : e.afid = e'.afid) : e = e' := by
  induction ns
  case nil => exact absurd he not_mem_nil
  case cons n ns ih =>
    cases n <;> simp only [regs, nodup_cons, mem_cons, Note.registered.injEq,
      reduceCtorEq, false_or] at hd he he'
    case registered =>
      obtain rfl | he := he <;> obtain rfl | he' := he'
      · rfl
      · exact absurd (mem_regs.mpr ⟨_, he', ha.symm⟩) hd.left
      · exact absurd (mem_regs.mpr ⟨_, he, ha⟩) hd.left
      · exact ih hd.right he he'
    all_goals exact ih hd he he'

theorem Live.of_append (h : Live (ms ++ ns) a) (hn : ¬Live ns a) : a ∈ regs ms := by
  induction ms
  case nil => exact absurd h hn
  case cons m ms ih =>
    cases m <;> simp only [cons_append, regs, mem_cons] at *
    case registered => exact h.imp Eq.symm ih
    case unregistered => exact ih h.right
    case called => exact ih h.right
    case rescheduled => exact ih h
    case finished => exact ih h

theorem Live.mem_regs (h : Live ns a) : a ∈ regs ns :=
  Live.of_append ((append_nil ns).symm ▸ h) id

theorem live_or (h : a ∈ regs ns) : Live ns a ∨ .unregistered a ∈ ns ∨
    ∃ e now others, .called e now others ∈ ns ∧ e.afid = a := by
  induction ns
  case nil => exact absurd h not_mem_nil
  case cons n ns ih =>
    have hi : a ∈ regs ns → Live ns a ∨ .unregistered a ∈ n :: ns ∨
        ∃ e now others, .called e now others ∈ n :: ns ∧ e.afid = a := by
      intro h
      obtain h | h | ⟨e, now, others, hm, he⟩ := ih h
      · exact .inl h
      · exact .inr (.inl (mem_cons_of_mem _ h))
      · exact .inr (.inr ⟨e, now, others, mem_cons_of_mem _ hm, he⟩)
    cases n
    case registered e =>
      obtain rfl | h := mem_cons.mp h
      · exact .inl (.inl rfl)
      · exact (hi h).imp_left .inr
    case unregistered i =>
      by_cases hia : i = a
      · exact .inr (.inl (hia ▸ mem_cons_self))
      · exact (hi h).imp_left fun hl => ⟨hia, hl⟩
    case called e now others =>
      by_cases he : e.afid = a
      · exact .inr (.inr ⟨e, now, others, mem_cons_self, he⟩)
      · exact (hi h).imp_left fun hl => ⟨fun hc => he hc.right, hl⟩
    case rescheduled => exact hi h
    case finished => exact hi h

theorem Calls.live (h : Calls (ms ++ .called e now others :: ns)) : Live ns e.afid := by
  induction ms
  case nil => exact h.left
  case cons m ms ih =>
    cases m <;> simp only [cons_append, Calls] at h
    case called => exact ih h.right
    all_goals exact ih h

end Trace

namespace State

def held (s : State) : List Event :=
  s.running.filter (¬ ·.OneShot)

def ids (s : State) : List Nat :=
  (s.held ++ s.root).map Event.afid

structure Fine (trace : List Note) (e : Event) : Prop where
  due : e.due.Normal
  delta : e.delta.Normal
  sec : 0 ≤ e.delta.sec
  grid : OnGrid trace e

theorem Fine.cons (h : Fine ns e) : Fine (n :: ns) e :=
  ⟨h.due, h.delta, h.sec, h.grid.cons⟩

structure Inv (s : State) : Prop where
  sorted : Sorted s.root
  nodup : s.ids.Nodup
  live : ∀ a, Live s.trace a ↔ a ∈ s.ids
  events : ∀ e ∈ s.running ++ s.root, Fine s.trace e
  fresh : ∀ a ∈ regs s.trace, a ≤ s.afid
  regs : (regs s.trace).Nodup
  notes : ∀ n ∈ s.trace, n.Good
  calls : Calls s.trace
  called : ∀ e ∈ s.running, ∃ now others, .called e now others ∈ s.trace
  fine : ∀ e now others, .called e now others ∈ s.trace → Fine s.trace e

-- Carries are right, times are close, and no callback unregisters its own event with a period.
def Ok (s : State) : Op → Prop
  | .register now delta => now.Normal ∧ (delta.Normal ∧ 0 ≤ delta.sec) ∧
      now.usec + delta.usec ≠ 1000000 ∧ ∀ e ∈ s.root, (now.tadd delta).Near e.due
  | .unregister a => ∀ e ∈ s.running, ¬e.OneShot → e.afid ≠ a
  | .look now => now.Normal
  | .ret now => now.Normal ∧ s.running ≠ [] ∧ ∀ e ∈ s.running.head?, ¬e.OneShot →
      Clean e.delta now (fuel now e.due) e.due ∧
      ∀ due ∈ reschedule e.delta now (fuel now e.due) e.due, ∀ e' ∈ s.root, due.Near e'.due

variable {s : State}

theorem Inv.queued (h : Inv s) (he : e ∈ s.root) : Fine s.trace e :=
  h.events e (mem_append_right _ he)

theorem Inv.fresh_id (h : Inv s) : s.afid + 1 ∉ AF.regs s.trace := fun hm =>
  not_succ_le_self _ (h.fresh _ hm)

theorem Inv.called_cons (h : Inv s) (n : Note) :
    ∀ e ∈ s.running, ∃ now others, .called e now others ∈ n :: s.trace := by
  intro e he
  obtain ⟨now, others, hm⟩ := h.called e he
  exact ⟨now, others, mem_cons_of_mem _ hm⟩

theorem Inv.fine_cons (h : Inv s) (hn : ∀ e now others, n = .called e now others → Fine s.trace e) :
    ∀ e now others, .called e now others ∈ n :: s.trace → Fine (n :: s.trace) e := by
  intro e now others hm
  obtain hm | hm := mem_cons.mp hm
  · exact (hn e now others hm.symm).cons
  · exact (h.fine e now others hm).cons

theorem ids_enqueue {root running : List Event} :
    (((running.filter (¬ ·.OneShot)) ++ enqueue qp root).map Event.afid).Perm
      (qp.afid :: ((running.filter (¬ ·.OneShot)) ++ root).map Event.afid) :=
  ((enqueue_perm.append_left _).trans perm_middle).map _

theorem Inv.register (h : Inv s) (hok : Ok s (.register now delta)) :
    Inv (s.register now delta) := by
  obtain ⟨hn, ⟨hd, hs⟩, hc, hnear⟩ := hok
  have hids : (s.register now delta).ids.Perm ((s.afid + 1) :: s.ids) := ids_enqueue
  have hnew : s.afid + 1 ∉ s.ids := fun hm =>
    h.fresh_id ((h.live _).mpr hm).mem_regs
  have hf : Fine (s.register now delta).trace ⟨s.afid + 1, now.tadd delta, delta⟩ :=
    ⟨hn.tadd hd hc, hd, hs, _, mem_cons_self, rfl, rfl, 0, by simp⟩
  constructor
  case sorted =>
    exact h.sorted.enqueue fun e he => tcmp_nonneg hf.due (h.queued he).due (hnear e he)
  case nodup => exact hids.nodup_iff.mpr (nodup_cons.mpr ⟨hnew, h.nodup⟩)
  case live =>
    intro a
    rw [hids.mem_iff, mem_cons, ← h.live a]
    exact or_congr_left eq_comm
  case events =>
    intro e he
    obtain he | he := mem_append.mp he
    · exact (h.events e (mem_append_left _ he)).cons
    · obtain rfl | he := mem_cons.mp (enqueue_perm.subset he)
      · exact hf
      · exact (h.queued he).cons
  case fresh =>
    exact forall_mem_cons.mpr ⟨le_refl _, fun a ha => le_succ_of_le (h.fresh a ha)⟩
  case regs => exact nodup_cons.mpr ⟨h.fresh_id, h.regs⟩
  case notes => exact forall_mem_cons.mpr ⟨trivial, h.notes⟩
  case calls => exact h.calls
  case called => exact h.called_cons _
  case fine => exact h.fine_cons nofun

theorem Inv.unregister (h : Inv s) (hok : Ok s (.unregister a)) : Inv (s.unregister a) := by
  have hids : (s.unregister a).ids = s.ids.erase a := by
    have hh : a ∉ s.held.map Event.afid := by
      simp only [mem_map, held, mem_filter, not_exists, not_and, and_imp]
      exact fun e he hs => hok e he (of_decide_eq_true hs)
    have he : (s.root.eraseP (·.afid = a)).map Event.afid = (s.root.map Event.afid).erase a := by
      rw [erase_eq_eraseP', eraseP_map]
      congr
    rw [ids, ids, map_append, map_append, erase_append_right _ hh, ← he]
    rfl
  constructor
  case sorted => exact h.sorted.sublist eraseP_sublist
  case nodup => exact hids ▸ h.nodup.erase a
  case live =>
    intro b
    rw [hids, h.nodup.mem_erase_iff, ← h.live b]
    exact and_congr_left' ne_comm
  case events =>
    intro e he
    obtain he | he := mem_append.mp he
    · exact (h.events e (mem_append_left _ he)).cons
    · exact (h.queued (eraseP_subset he)).cons
  case fresh => exact h.fresh
  case regs => exact h.regs
  case notes => exact forall_mem_cons.mpr ⟨trivial, h.notes⟩
  case calls => exact h.calls
  case called => exact h.called_cons _
  case fine => exact h.fine_cons nofun

theorem Inv.call (h : Inv s) (hr : s.root = qp :: rest) (hd : qp.due.total ≤ now.total + 10000) :
    Inv { s with
      root := rest, running := qp :: s.running, trace := .called qp now rest :: s.trace } := by
  obtain ⟨hfirst, hrest⟩ := pairwise_cons.mp (hr ▸ h.sorted)
  have hq : qp ∈ s.root := hr ▸ mem_cons_self
  have hids : s.ids.Perm (qp.afid :: (s.held ++ rest).map Event.afid) := by
    rw [ids, hr]
    exact perm_middle.map _
  have hl := (h.live qp.afid).mpr (hids.mem_iff.mpr mem_cons_self)
  obtain ⟨hnew, hnodup⟩ := nodup_cons.mp (hids.nodup_iff.mp h.nodup)
  have hlive : ∀ a, Live s.trace a ↔ a = qp.afid ∨ a ∈ (s.held ++ rest).map Event.afid := by
    intro a
    rw [h.live, hids.mem_iff, mem_cons]
  have hids' : ids { s with
      root := rest, running := qp :: s.running, trace := .called qp now rest :: s.trace } =
      (if qp.OneShot then [] else [qp.afid]) ++ (s.held ++ rest).map Event.afid := by
    by_cases ho : qp.OneShot <;> simp [ids, held, ho]
  constructor
  case sorted => exact hrest
  case nodup =>
    rw [hids']
    split
    case isTrue => exact hnodup
    case isFalse => exact nodup_cons.mpr ⟨hnew, hnodup⟩
  case live =>
    intro a
    rw [hids', Live, hlive]
    split
    case isTrue ho =>
      refine ⟨fun ⟨hn, hm⟩ => hm.resolve_left fun he => hn ⟨ho, he.symm⟩, fun hm => ⟨?_, .inr hm⟩⟩
      exact fun he => hnew (he.right ▸ hm)
    case isFalse ho =>
      refine ⟨fun hm => mem_cons.mpr hm.right, fun hm => ⟨fun he => ho he.left, ?_⟩⟩
      exact mem_cons.mp hm
  case events =>
    intro e he
    obtain he | he := mem_append.mp he
    · obtain rfl | he := mem_cons.mp he
      · exact (h.queued hq).cons
      · exact (h.events e (mem_append_left _ he)).cons
    · exact (h.queued (hr ▸ mem_cons_of_mem _ he)).cons
  case fresh => exact h.fresh
  case regs => exact h.regs
  case notes => exact forall_mem_cons.mpr ⟨⟨hd, hfirst⟩, h.notes⟩
  case calls => exact ⟨hl, h.calls⟩
  case called =>
    exact forall_mem_cons.mpr ⟨⟨now, rest, mem_cons_self⟩, h.called_cons _⟩
  case fine =>
    refine h.fine_cons fun e _ _ he => ?_
    cases he
    exact h.queued hq

theorem Inv.look (h : Inv s) (hok : Ok s (.look now)) : Inv (s.look now) := by
  simp only [State.look]
  split
  case h_1 => exact h
  case h_2 qp rest hr =>
    obtain ⟨hfirst, -⟩ := pairwise_cons.mp (hr ▸ h.sorted)
    have hdue := tsub_due (h.queued (hr ▸ mem_cons_self)).due hok
    split
    case isTrue hd => exact h.call hr (hdue.mp hd)
    case isFalse hd =>
      have hlt : now.total + 10000 < qp.due.total := Int.not_le.mp (hd ∘ hdue.mpr)
      refine ⟨h.sorted, h.nodup, h.live, fun e he => (h.events e he).cons, h.fresh, h.regs, ?_,
        h.calls, h.called_cons _, h.fine_cons nofun⟩
      refine forall_mem_cons.mpr ⟨?_, h.notes⟩
      rw [hr]
      refine forall_mem_cons.mpr ⟨hlt, fun e he => ?_⟩
      exact Int.lt_of_lt_of_le hlt (hfirst e he)

theorem total_pos (hd : Fine ns e) (ho : ¬e.OneShot) : 0 < e.delta.total := by
  have hn := hd.delta
  have hs := hd.sec
  simp only [Event.OneShot, Timeval.Normal, total] at *
  omega

theorem Inv.requeue (h : Inv s) (hr : s.running = qp :: rest) (ho : ¬qp.OneShot)
    (hn : due.Normal) (hnext : Next qp.delta now qp.due due)
    (hnear : ∀ e ∈ s.root, due.Near e.due) :
    Inv { s with
      root := enqueue { qp with due } s.root
      trace := .rescheduled qp due now :: s.trace
      running := rest } := by
  have hf : Fine s.trace qp := h.events qp (hr ▸ mem_cons_self)
  have hids : (ids { s with
      root := enqueue { qp with due } s.root
      trace := .rescheduled qp due now :: s.trace
      running := rest }).Perm s.ids := by
    refine ids_enqueue.trans (.of_eq ?_)
    simp [ids, held, hr, ho]
  have hf' : Fine (.rescheduled qp due now :: s.trace) { qp with due } := by
    obtain ⟨e₀, hm, ha, hd, k, hk⟩ := hf.grid
    obtain ⟨j, -, hj, -⟩ := hnext
    refine ⟨hn, hf.delta, hf.sec, e₀, mem_cons_of_mem _ hm, ha, hd, k + j, ?_⟩
    rw [hj, hk, Int.natCast_add, Int.add_mul, Int.add_assoc]
  constructor
  case sorted =>
    exact h.sorted.enqueue fun e he => tcmp_nonneg hn (h.queued he).due (hnear e he)
  case nodup => exact hids.nodup_iff.mpr h.nodup
  case live => exact fun a => (h.live a).trans hids.mem_iff.symm
  case events =>
    intro e he
    obtain he | he := mem_append.mp he
    · exact (h.events e (mem_append_left _ (hr ▸ mem_cons_of_mem _ he))).cons
    · obtain rfl | he := mem_cons.mp (enqueue_perm.subset he)
      · exact hf'
      · exact (h.queued he).cons
  case fresh => exact h.fresh
  case regs => exact h.regs
  case notes => exact forall_mem_cons.mpr ⟨hnext, h.notes⟩
  case calls => exact h.calls
  case called => exact fun e he => h.called_cons _ e (hr ▸ mem_cons_of_mem _ he)
  case fine => exact h.fine_cons nofun

theorem Inv.drop (h : Inv s) (hr : s.running = qp :: rest) (ho : qp.OneShot) :
    Inv { s with running := rest } := by
  have hids : ids { s with running := rest } = s.ids := by simp [ids, held, hr, ho]
  refine ⟨h.sorted, hids ▸ h.nodup, hids ▸ h.live, fun e he => h.events e ?_, h.fresh, h.regs,
    h.notes, h.calls, fun e he => h.called e (hr ▸ mem_cons_of_mem _ he), h.fine⟩
  rw [hr]
  exact mem_cons_of_mem _ he

theorem Inv.next (h : Inv s) (hr : s.running = qp :: rest) (ho : ¬qp.OneShot) (hn : now.Normal)
    (hc : Clean qp.delta now (fuel now qp.due) qp.due) :
    ∃ due, reschedule qp.delta now (fuel now qp.due) qp.due = some due ∧ due.Normal ∧
      Next qp.delta now qp.due due := by
  have hf : Fine s.trace qp := h.events qp (hr ▸ mem_cons_self)
  refine reschedule_eq hf.delta hn (total_pos hf ho) hf.due ?_ (succ_pos _) hc
  simp only [fuel]
  omega

theorem Inv.ret (h : Inv s) (hok : Ok s (.ret now)) : ∃ s', s.ret now = some s' ∧ Inv s' := by
  obtain ⟨hn, hne, hc⟩ := hok
  obtain ⟨qp, rest, hr⟩ := exists_cons_of_ne_nil hne
  simp only [State.ret, hr]
  by_cases ho : qp.OneShot
  · rw [if_pos ho]
    exact ⟨_, rfl, h.drop hr ho⟩
  · obtain ⟨hclean, hnear⟩ := hc qp (by simp [hr]) ho
    obtain ⟨due, hd, hdn, hnext⟩ := h.next hr ho hn hclean
    rw [if_neg ho, hd]
    exact ⟨_, rfl, h.requeue hr ho hdn hnext (hnear due hd)⟩

theorem Inv.step (h : Inv s) (hok : Ok s op) : ∃ s', s.step op = some s' ∧ Inv s' := by
  cases op
  case register => exact ⟨_, rfl, h.register hok⟩
  case unregister => exact ⟨_, rfl, h.unregister hok⟩
  case look => exact ⟨_, rfl, h.look hok⟩
  case ret => exact h.ret hok

theorem start_inv : Inv start := by
  constructor <;> simp [start, Sorted, ids, held, Live, regs, Calls]

structure Sound (s : State) : Prop where
  sorted : Sorted s.root
  once : (s.root.map Event.afid).Nodup
  queued : ∀ a, a ∈ s.root.map Event.afid ↔ Live s.trace a ∧ a ∉ s.held.map Event.afid
  events : ∀ e ∈ s.root, e.due.Normal ∧ OnGrid s.trace e
  called : ∀ e now others, .called e now others ∈ s.trace → e.due.Normal ∧ OnGrid s.trace e
  notes : ∀ n ∈ s.trace, n.Good
  ran : ∀ e, .registered e ∈ s.trace → e.OneShot →
    e.afid ∈ s.root.map Event.afid ∨ .unregistered e.afid ∈ s.trace ∨
      ∃ e' now others, .called e' now others ∈ s.trace ∧ e'.afid = e.afid
  single : ∀ later e now others earlier, s.trace = later ++ .called e now others :: earlier →
    e.OneShot → ∀ e' now' others', .called e' now' others' ∈ later → e'.afid ≠ e.afid
  gone : ∀ later a earlier, s.trace = later ++ .unregistered a :: earlier →
    a ∈ regs earlier → ∀ e now others, .called e now others ∈ later → e.afid ≠ a

theorem Inv.ended (h : Inv s) (ht : s.trace = later ++ n :: earlier)
    (hr : a ∈ AF.regs earlier) (hl : ¬Live (n :: earlier) a)
    (hm : .called e now others ∈ later) : e.afid ≠ a := by
  rintro rfl
  obtain ⟨ms, ns, rfl⟩ := append_of_mem hm
  have hc : Calls (ms ++ .called e now others :: (ns ++ n :: earlier)) := by
    simpa [ht] using h.calls
  have hns : e.afid ∈ AF.regs ns := hc.live.of_append hl
  have hd := h.regs
  rw [ht, regs_append] at hd
  refine (nodup_append.mp hd).right.right _ ?_ _ (mem_regs_append [n] hr) rfl
  exact mem_regs_append ms (mem_regs_append [_] hns)

theorem Inv.ran (h : Inv s) (hm : .registered e ∈ s.trace) (ho : e.OneShot)
    (hl : Live s.trace e.afid) : e.afid ∈ s.root.map Event.afid := by
  rw [h.live, ids, map_append, mem_append] at hl
  obtain hh | hr := hl
  · obtain ⟨e', he', ha⟩ := mem_map.mp hh
    obtain ⟨hr, hp⟩ := mem_filter.mp he'
    obtain ⟨e₀, hm₀, ha₀, hd₀, -⟩ := (h.events e' (mem_append_left _ hr)).grid
    obtain rfl := registered_inj h.regs hm hm₀ (ha.symm.trans ha₀.symm)
    refine absurd ?_ (of_decide_eq_true hp)
    rw [Event.OneShot, ← hd₀]
    exact ho
  · exact hr

theorem Inv.sound (h : Inv s) : Sound s := by
  have hn := h.nodup
  rw [ids, map_append] at hn
  have ⟨hh, hr, hdis⟩ := nodup_append.mp hn
  constructor
  case sorted => exact h.sorted
  case once => exact hr
  case queued =>
    intro a
    rw [h.live, ids, map_append, mem_append]
    refine ⟨fun ha => ⟨.inr ha, fun hb => hdis a hb a ha rfl⟩, fun ⟨ha, hb⟩ => ha.resolve_left hb⟩
  case events => exact fun e he => ⟨(h.queued he).due, (h.queued he).grid⟩
  case called => exact fun e now others hm => ⟨(h.fine _ _ _ hm).due, (h.fine _ _ _ hm).grid⟩
  case notes => exact h.notes
  case ran =>
    exact fun e hm ho => (live_or (mem_regs.mpr ⟨e, hm, rfl⟩)).imp_left (h.ran hm ho)
  case single =>
    intro later e now others earlier ht ho e' now' others' hm
    have hc : Calls (later ++ .called e now others :: earlier) := ht ▸ h.calls
    exact h.ended ht hc.live.mem_regs (fun hl => hl.left ⟨ho, rfl⟩) hm
  case gone =>
    intro later a earlier ht ha e now others hm
    exact h.ended ht ha (fun hl => hl.left rfl) hm

instance (s : State) : (op : Op) → Decidable (Ok s op)
  | .register .. => inferInstanceAs (Decidable (_ ∧ _ ∧ _ ∧ _))
  | .unregister _ => inferInstanceAs (Decidable (∀ _ ∈ _, _))
  | .look _ => inferInstanceAs (Decidable (Timeval.Normal _))
  | .ret _ => inferInstanceAs (Decidable (_ ∧ _ ∧ _))

-- What an operation is for. A look runs an event if one is due, and ends the alarm otherwise.
def Does (s : State) : Op → State → Prop
  | .register now delta, s' => s'.running = s.running ∧
      ∃ e, e.due.total = now.total + delta.total ∧ e.delta = delta ∧ s'.root.Perm (e :: s.root) ∧
        s'.trace = .registered e :: s.trace
  | .unregister a, s' => s'.running = s.running ∧ s'.root = s.root.filter (·.afid ≠ a) ∧
      s'.trace = .unregistered a :: s.trace
  | .look now, s' =>
      (∃ e, e.due.total ≤ now.total + 10000 ∧ s.root.Perm (e :: s'.root) ∧
        (∀ e' ∈ s'.root, e.due.total ≤ e'.due.total) ∧ s'.running = e :: s.running ∧
        s'.trace = .called e now s'.root :: s.trace) ∨
      (∀ e ∈ s.root, now.total + 10000 < e.due.total) ∧ s'.root = s.root ∧
        s'.running = s.running ∧ (s.root ≠ [] → s'.trace = .finished now s.root :: s.trace)
  | .ret now, s' => ∃ e, s.running = e :: s'.running ∧
      if e.OneShot then s'.root = s.root ∧ s'.trace = s.trace
      else ∃ due, Next e.delta now e.due due ∧ s'.root.Perm ({ e with due } :: s.root) ∧
        s'.trace = .rescheduled e due now :: s.trace

theorem Inv.root_nodup (h : Inv s) : (s.root.map Event.afid).Nodup := by
  have hn := h.nodup
  rw [ids, map_append] at hn
  exact (nodup_append.mp hn).right.left

theorem eraseP_afid {root : List Event} (h : (root.map Event.afid).Nodup) :
    root.eraseP (·.afid = a) = root.filter (·.afid ≠ a) := by
  induction root
  case nil => rfl
  case cons e root ih =>
    obtain ⟨he, hr⟩ := nodup_cons.mp h
    by_cases ha : e.afid = a
    · have hf : root.filter (·.afid ≠ a) = root := by
        refine filter_eq_self.mpr fun e' hm => decide_eq_true fun hc => ?_
        exact he (mem_map.mpr ⟨e', hm, hc.trans ha.symm⟩)
      rw [eraseP_cons_of_pos (by simpa), filter_cons_of_neg (by simpa), hf]
    · simpa [ha] using ih hr

theorem Inv.look_does (h : Inv s) (hn : now.Normal) : Does s (.look now) (s.look now) := by
  cases hr : s.root with
  | nil => exact .inr (by simp [State.look, hr])
  | cons qp rest =>
    obtain ⟨hfirst, -⟩ := pairwise_cons.mp (hr ▸ h.sorted)
    have hdue := tsub_due (h.queued (hr ▸ mem_cons_self)).due hn
    by_cases hd : qp.due.total ≤ now.total + 10000
    · rw [State.look, hr]
      simp only [if_pos (hdue.mpr hd)]
      exact .inl ⟨qp, hd, .of_eq hr, hfirst, rfl, rfl⟩
    · rw [State.look, hr]
      simp only [if_neg (hd ∘ hdue.mp)]
      refine .inr ⟨?_, hr.symm, rfl, fun _ => hr ▸ rfl⟩
      rw [hr]
      exact forall_mem_cons.mpr ⟨Int.not_le.mp hd, fun e he =>
        Int.lt_of_lt_of_le (Int.not_le.mp hd) (hfirst e he)⟩

theorem Inv.ret_does (h : Inv s) (hok : Ok s (.ret now)) (hs : s.ret now = some s') :
    Does s (.ret now) s' := by
  obtain ⟨hn, hne, hc⟩ := hok
  obtain ⟨qp, rest, hr⟩ := exists_cons_of_ne_nil hne
  by_cases ho : qp.OneShot
  · simp only [State.ret, hr, if_pos ho, Option.some.injEq] at hs
    exact ⟨qp, hs ▸ hr, by simp [ho, ← hs]⟩
  · obtain ⟨due, hd, -, hnext⟩ := h.next hr ho hn (hc qp (by simp [hr]) ho).left
    simp only [State.ret, hr, if_neg ho, hd, Option.bind_eq_bind, Option.bind_some,
      Option.some.injEq] at hs
    subst hs
    refine ⟨qp, hr, ?_⟩
    rw [if_neg ho]
    exact ⟨due, hnext, enqueue_perm, rfl⟩

theorem Inv.does (h : Inv s) (hok : Ok s op) : ∃ s', s.step op = some s' ∧ Does s op s' := by
  cases op
  case register => exact ⟨_, rfl, rfl, _, tadd_total, rfl, enqueue_perm, rfl⟩
  case unregister => exact ⟨_, rfl, rfl, eraseP_afid h.root_nodup, rfl⟩
  case look => exact ⟨_, rfl, h.look_does hok⟩
  case ret =>
    obtain ⟨s', hs, -⟩ := h.ret hok
    exact ⟨s', hs, h.ret_does hok hs⟩

theorem exec_scheduled (hg : Run.Guarded step Ok start ops) :
    ∃ s, Run.exec step start ops = some s ∧ Sound s ∧
      ∀ op, Ok s op → ∃ s', s.step op = some s' ∧ Does s op s' := by
  obtain ⟨s, he, hi⟩ := Run.exec_invariant (fun _ _ => Inv.step) start_inv hg
  exact ⟨s, he, hi.sound, fun _ => hi.does⟩

def late : List Op :=
  [.register ⟨0, 0⟩ ⟨1, 0⟩, .look ⟨1, 0⟩, .register ⟨1, 0⟩ ⟨0, 0⟩, .ret ⟨1, 10⟩, .look ⟨1, 20⟩,
    .ret ⟨1, 30⟩, .look ⟨1, 40⟩, .look ⟨2, 0⟩, .ret ⟨5, 30⟩, .look ⟨5, 40⟩, .unregister 0x8002]

theorem exec_scheduled_late : ∃ s, Run.exec step start late = some s ∧ Sound s ∧
    ∀ op, Ok s op → ∃ s', s.step op = some s' ∧ Does s op s' :=
  exec_scheduled (by decide)

theorem exec_unscheduled :
    (∃ s e now others trace, Run.exec step start [.register ⟨0, 0⟩ ⟨1, 0⟩, .look ⟨1, 0⟩,
        .unregister 0x8001, .ret ⟨1, 0⟩, .look ⟨2, 0⟩] = some s ∧
      s.trace = .called e now others :: trace ∧ .unregistered e.afid ∈ trace) ∧
    ∃ s e, Run.exec step start [.register ⟨0, 500000⟩ ⟨0, 500000⟩] = some s ∧
      e ∈ s.root ∧ ¬e.due.Normal := by
  refine ⟨⟨_, _, _, _, _, rfl, rfl, ?_⟩, _, _, rfl, mem_cons_self, by decide⟩
  exact mem_cons_of_mem _ mem_cons_self

end State

end AF
