import PcpModel.Pmapi.Header

-- The loop in which pmcd collects the replies of its agents (dofetch.c, dostore.c).
namespace Pmcd

open List

structure Wait where
  busy : List Nat
  ready : List Nat

inductive Event
  | select (sts : Int) (fds : List Nat)
  | reply

namespace Wait

variable (w : Wait)

-- The agent whose reply is read next. If only one reply is awaited, select is not called.
def next : Option Nat :=
  match w.ready, w.busy with
  | i :: _, _ => some i
  | [], [i] => some i
  | [], _ => none

-- Whether this is what happens next. There is something to be read if select says so.
def Fits : Event → Prop
  | .select sts fds => w.ready = [] ∧ 1 < w.busy.length ∧ (0 < sts → ∃ i ∈ w.busy, i ∈ fds)
  | .reply => w.next.isSome

instance : (e : Event) → Decidable (w.Fits e)
  | .select .. => inferInstanceAs (Decidable (_ ∧ _))
  | .reply => inferInstanceAs (Decidable (_ = _))

def select (nAgents : Nat) (fds : List Nat) : Wait :=
  { w with ready := (List.range nAgents).filter fun i => i ∈ w.busy ∧ i ∈ fds }

def read (i : Nat) : Wait where
  busy := w.busy.erase i
  ready := w.ready.tail

-- The replies that are ready are awaited, and each one is awaited once.
structure Valid (nAgents : Nat) (w : Wait) : Prop where
  bound : ∀ i ∈ w.busy, i < nAgents
  sub : ∀ i ∈ w.ready, i ∈ w.busy
  busy : w.busy.Nodup
  ready : w.ready.Nodup

variable {w}

namespace Valid

theorem next (h : w.Valid n) (hn : w.next = some i) : i ∈ w.busy := by
  unfold Wait.next at hn
  split at hn
  case h_1 hr =>
    obtain rfl := Option.some.inj hn
    exact h.sub _ (by simp [hr])
  case h_2 hb =>
    obtain rfl := Option.some.inj hn
    simp [hb]
  case h_3 => contradiction

theorem select (h : w.Valid n) (fds : List Nat) : (w.select n fds).Valid n where
  bound := h.bound
  sub := fun i hi => by
    simp only [Wait.select, mem_filter, decide_eq_true_eq] at hi
    exact hi.right.left
  busy := h.busy
  ready := nodup_range.filter _

theorem read (h : w.Valid n) (hn : w.next = some i) : (w.read i).Valid n where
  bound := fun j hj => h.bound j (mem_of_mem_erase hj)
  sub := by
    intro j hj
    have hm := h.sub j (mem_of_mem_tail hj)
    refine (mem_erase_of_ne ?_).mpr hm
    rintro rfl
    have hd := h.ready
    unfold Wait.next at hn
    split at hn
    case h_1 hr => simp_all [Wait.read]
    case h_2 hr hb => simp [Wait.read, hr] at hj
    case h_3 => contradiction
  busy := h.busy.erase i
  ready := h.ready.sublist (tail_sublist _)

end Valid

theorem mem_read_busy (h : w.Valid n) : j ∈ (w.read i).busy ↔ j ≠ i ∧ j ∈ w.busy :=
  h.busy.mem_erase_iff

def remaining (w : Wait) : Nat :=
  2 * w.busy.length + if w.ready = [] then 1 else 0

theorem remaining_select (h : w.Valid n) (hf : w.Fits (.select sts fds)) (hs : 0 < sts) :
    (w.select n fds).remaining < w.remaining := by
  obtain ⟨hr, -, he⟩ := hf
  obtain ⟨i, hb, hi⟩ := he hs
  have hm : i ∈ (w.select n fds).ready := by simp [select, hb, hi, h.bound i hb]
  have hl : (w.select n fds).busy = w.busy := rfl
  simp only [remaining, hr, hl, ne_nil_of_mem hm, if_true, if_false]
  omega

theorem remaining_read (h : w.Valid n) (hn : w.next = some i) :
    (w.read i).remaining < w.remaining := by
  have hl : (w.read i).busy.length = _ := length_erase_of_mem (h.next hn)
  have hp := length_pos_of_mem (h.next hn)
  have hr : ∀ p : Prop, [Decidable p] → (if p then 1 else 0) ≤ 1 := by
    intro p _
    split <;> decide
  have := hr ((w.read i).ready = [])
  unfold remaining
  omega

end Wait

end Pmcd
