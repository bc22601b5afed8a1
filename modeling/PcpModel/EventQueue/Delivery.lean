import Mathlib.Data.List.Nodup
import PcpModel.EventQueue.Basic
import PcpModel.Library.Run

-- Which events the clients of a queue get.
namespace EventQueue

open List

inductive Op
  | newClient (context : Nat)
  | append (bytes : Nat)
  | records (context : Nat)
  | endClient (context : Nat)

-- What an active client is due, has got and has lost, and how many it is told to have missed.
structure Account where
  due : List Nat
  got : List Nat
  lost : List Nat
  told : Int

def Account.empty : Account :=
  ⟨[], [], [], 0⟩

-- `fetched` is the client for which the last operation was a fetch.
structure Session where
  queue : Queue
  account : Nat → Account
  fetched : Option Nat

namespace Session

variable (s : Session)

def isActive (context : Nat) : Bool :=
  s.queue.clients.any fun c => c.context = context ∧ c.active

def onAppend (bytes : Nat) : Session :=
  let q := s.queue.append bytes
  let gone := (s.queue.tailq.map (·.serial)).filter (· ∉ q.tailq.map (·.serial))
  let gone := if bytes > s.queue.maxmemory then [s.queue.count] else gone
  { queue := q
    account := fun context =>
      let a := s.account context
      if s.isActive context then
        { a with due := a.due ++ [s.queue.count], lost := a.lost ++ gone.filter (· ∉ a.got) }
      else
        a
    fetched := none }

def onRecords (context : Nat) : Session :=
  match s.queue.queueRecords context with
  | none => { s with fetched := none }
  | some (q, f) =>
    { queue := q
      account := fun c =>
        let a := s.account c
        if c = context then
          { a with got := a.got ++ f.events.filter (· ∈ a.due), told := a.told + f.missed.getD 0 }
        else
          a
      fetched := some context }

def step : Op → Session
  | .newClient context => { s with queue := s.queue.newClient context, fetched := none }
  | .append bytes => s.onAppend bytes
  | .records context => s.onRecords context
  | .endClient context =>
    { queue := s.queue.endClient context
      account := fun c => if c = context then .empty else s.account c
      fetched := none }

def start (maxmemory : Nat) : Session where
  queue := .new maxmemory
  account := fun _ => .empty
  fetched := none

def Delivered : Prop :=
  ∀ context, s.isActive context →
    let a := s.account context
    a.got <+: a.due.filter (· ∉ a.lost) ∧
      (s.fetched = some context → a.got = a.due.filter (· ∉ a.lost) ∧ a.told = a.lost.length)

-- No event is dropped, got twice, or left in the queue by a client that ends.
def Ok : Op → Prop
  | .newClient _ => True
  | .append bytes =>
    s.queue.numclients = 0 ∨ bytes ≤ s.queue.maxmemory ∧ bytes ≤ s.queue.maxmemory - s.queue.qsize
  | .records context =>
    if s.isActive context then ∀ e ∈ s.queue.tailq, e.serial ∉ (s.account context).got
    else s.queue.tailq = []
  | .endClient context =>
    s.isActive context → ∀ e ∈ s.queue.tailq, e.serial ∈ (s.account context).got

instance : (op : Op) → Decidable (s.Ok op)
  | .newClient _ => inferInstanceAs (Decidable True)
  | .append _ => inferInstanceAs (Decidable (_ ∨ _))
  | .records _ => inferInstanceAs (Decidable (ite ..))
  | .endClient _ => inferInstanceAs (Decidable (_ → _))

end Session

section Queue

variable {q : Queue} {c : Clientq}

theorem queueDropBytes_of_le (h : bytes ≤ q.maxmemory - q.qsize) (l : List Event) :
    Queue.queueDropBytes bytes q l = { q with tailq := l } := by
  cases l
  case nil => rfl
  case cons => rw [Queue.queueDropBytes, if_pos h]

theorem append_of_no_clients (h : q.numclients = 0) (ht : q.tailq = []) :
    q.append bytes = { q with count := q.count + 1 } := by
  cases q
  cases h
  cases ht
  simp [Queue.append, Queue.queueDropBytes]

theorem append_of_le (h : q.numclients ≠ 0) (hb : bytes ≤ q.maxmemory)
    (hs : bytes ≤ q.maxmemory - q.qsize) :
    q.append bytes = { q with
      tailq := q.tailq ++ [⟨q.count, bytes, q.numclients⟩]
      qsize := q.qsize + bytes
      count := q.count + 1 } := by
  simp [Queue.append, Nat.not_lt.mpr hb, queueDropBytes_of_le hs, h]

theorem release_head :
    (q.release (q.tailq.head?.map (·.serial))).tailq =
      (q.tailq.map Event.used).filter (·.count > 0) := by
  cases ht : q.tailq
  case nil => simp [Queue.release, ht]
  case cons e l => simp [Queue.release, ht]

theorem release_eq (q : Queue) (last : Option Nat) :
    (q.release last).clients = q.clients ∧ (q.release last).numclients = q.numclients ∧
      (q.release last).count = q.count ∧ (q.release last).maxmemory = q.maxmemory := by
  cases last <;> exact ⟨rfl, rfl, rfl, rfl⟩

theorem queueFetch_tailq (h : c.last = none) :
    (q.queueFetch c).1.tailq = (q.tailq.map Event.used).filter (·.count > 0) := by
  simp only [Queue.queueFetch, h]
  split <;> exact release_head

theorem queueFetch_events (h : c.last = none) :
    (q.queueFetch c).2.events = q.tailq.map (·.serial) := by
  have ht : (if c.active = true then q else { q with numclients := q.numclients + 1 }).tailq =
      q.tailq := by split <;> rfl
  simp only [Queue.queueFetch, h, ht]
  cases q.tailq
  case nil => rfl
  case cons => simp

theorem queueFetch_eq (q : Queue) (c : Clientq) :
    (q.queueFetch c).1.numclients = (if c.active then q.numclients else q.numclients + 1) ∧
    (q.queueFetch c).1.count = q.count ∧
    (q.queueFetch c).1.clients = q.clients.map fun c' =>
      if c'.context = c.context then { c' with active := true, last := none, missed := 0 }
      else c' := by
  simp only [Queue.queueFetch, Queue.setClient, release_eq]
  cases c.active <;> exact ⟨rfl, rfl, rfl⟩

end Queue

namespace Session

variable {s : Session} {c : Clientq}

structure Inv (s : Session) : Prop where
  nodup : (s.queue.clients.map (·.context)).Nodup
  last : ∀ c ∈ s.queue.clients, c.last = none ∧ c.missed = 0
  num : s.queue.numclients = s.queue.clients.countP (·.active)
  count : ∀ e ∈ s.queue.tailq, e.count > 0 ∧ e.count = s.queue.clients.countP fun c =>
    c.active ∧ e.serial ∉ (s.account c.context).got
  pend : ∀ context, s.isActive context → (s.account context).due = (s.account context).got ++
    (s.queue.tailq.map (·.serial)).filter (· ∉ (s.account context).got)
  fresh : ∀ context, ∀ n ∈ (s.account context).due, n < s.queue.count
  lost : ∀ context, (s.account context).lost = [] ∧ (s.account context).told = 0
  idle : ∀ context, ¬s.isActive context → s.account context = .empty
  fetched : ∀ context, s.fetched = some context → (s.account context).got = (s.account context).due

theorem isActive_iff : s.isActive context ↔
    ∃ c ∈ s.queue.clients, c.context = context ∧ c.active := by
  simp [isActive]

theorem Inv.delivered (h : s.Inv) : s.Delivered := by
  intro context ha
  obtain ⟨hl, ht⟩ := h.lost context
  simp only [hl, not_mem_nil, not_false_eq_true, decide_true, filter_true, ht]
  exact ⟨⟨_, (h.pend context ha).symm⟩, fun hf => ⟨h.fetched context hf, rfl⟩⟩

theorem start_inv : (start maxmemory).Inv where
  nodup := nodup_nil
  last := by simp [start, Queue.new]
  num := rfl
  count := by simp [start, Queue.new]
  pend := by simp [isActive, start, Queue.new]
  fresh := by simp [start, Account.empty]
  lost := by simp [start, Account.empty]
  idle := fun _ _ => rfl
  fetched := by simp [start]

theorem Inv.newClient (h : s.Inv) (context : Nat) : (s.step (.newClient context)).Inv := by
  simp only [step, Queue.newClient]
  split
  case isTrue => exact { h with fetched := by simp }
  case isFalse hn =>
    have hact : ∀ x, isActive { s with
        queue := { s.queue with clients := s.queue.clients ++ [⟨context, false, none, 0⟩] }
        fetched := none } x = s.isActive x := by
      simp [isActive]
    refine ⟨?_, ?_, ?_, ?_, ?_, h.fresh, h.lost, ?_, by simp⟩
    · simp only [any_eq_true, not_exists] at hn
      simpa [nodup_append] using And.intro h.nodup hn
    · simpa [or_imp, forall_and] using h.last
    · simpa using h.num
    · simpa using h.count
    · simpa only [hact] using h.pend
    · simpa only [hact] using h.idle

theorem Inv.got_lt (h : s.Inv) (ha : s.isActive context) (hn : n ∈ (s.account context).got) :
    n < s.queue.count :=
  h.fresh context n (h.pend context ha ▸ mem_append_left _ hn)

theorem Inv.tailq_eq_nil (h : s.Inv) (h₀ : s.queue.numclients = 0) : s.queue.tailq = [] := by
  rw [eq_nil_iff_forall_not_mem]
  intro e he
  obtain ⟨hpos, hc⟩ := h.count e he
  have hle : s.queue.clients.countP (fun c => c.active ∧ e.serial ∉ (s.account c.context).got) ≤
      s.queue.clients.countP (·.active) :=
    countP_mono_left fun c _ hp => by simp_all
  rw [← h.num] at hle
  omega

def appended (s : Session) (context : Nat) : Account :=
  if s.isActive context then
    { s.account context with due := (s.account context).due ++ [s.queue.count] }
  else
    s.account context

theorem step_append (h₀ : s.queue.numclients ≠ 0) (hb : bytes ≤ s.queue.maxmemory)
    (hs : bytes ≤ s.queue.maxmemory - s.queue.qsize) :
    s.step (.append bytes) =
      { queue := { s.queue with
          tailq := s.queue.tailq ++ [⟨s.queue.count, bytes, s.queue.numclients⟩]
          qsize := s.queue.qsize + bytes
          count := s.queue.count + 1 }
        account := s.appended
        fetched := none } := by
  have hgone : (s.queue.tailq.map (·.serial)).filter (fun n => decide
      (n ∉ (s.queue.tailq ++ [(⟨s.queue.count, bytes, s.queue.numclients⟩ : Event)]).map
        (·.serial))) = [] := by
    rw [filter_eq_nil_iff]
    intro n hn
    simp only [map_append, decide_eq_true_eq, not_not]
    exact mem_append_left _ hn
  simp only [step, onAppend, append_of_le h₀ hb hs, Nat.not_lt.mpr hb, if_false, hgone,
    filter_nil, append_nil]
  rfl

theorem Inv.append (h : s.Inv) (hok : s.Ok (.append bytes)) : (s.step (.append bytes)).Inv := by
  by_cases h₀ : s.queue.numclients = 0
  · -- there is nobody to get the event
    have hact : ∀ x, s.isActive x = false := by
      intro x
      have hnone := h.num.symm.trans h₀
      rw [countP_eq_zero] at hnone
      simp only [isActive, any_eq_false, decide_eq_true_eq, not_and]
      exact fun c hc _ => hnone c hc
    have hs : s.step (.append bytes) =
        ⟨{ s.queue with count := s.queue.count + 1 }, s.account, none⟩ := by
      simp [step, onAppend, append_of_no_clients h₀ (h.tailq_eq_nil h₀), hact]
    rw [hs]
    refine ⟨h.nodup, h.last, h.num, h.count, h.pend, fun x n hn => ?_, h.lost, h.idle, by simp⟩
    exact Nat.lt_succ_of_lt (h.fresh x n hn)
  · obtain ⟨hb, hs⟩ := hok.resolve_left h₀
    rw [step_append h₀ hb hs]
    have hgot : ∀ x, (s.appended x).got = (s.account x).got := by
      intro x
      simp only [appended]
      split <;> rfl
    refine ⟨h.nodup, h.last, h.num, ?_, ?_, ?_, ?_, ?_, by simp⟩
    · intro e he
      simp only [hgot]
      rcases mem_append.mp he with he | he
      · exact h.count e he
      · cases mem_singleton.mp he
        refine ⟨by simpa using Nat.pos_of_ne_zero h₀, ?_⟩
        rw [h.num]
        refine congrArg _ (countP_congr fun c hc => ?_)
        simp only [decide_eq_true_eq, iff_self_and]
        intro ha hm
        exact Nat.lt_irrefl _ (h.got_lt (isActive_iff.mpr ⟨c, hc, rfl, ha⟩) hm)
    · intro x hx
      have hx : s.isActive x := hx
      have hn : s.queue.count ∉ (s.account x).got := fun hm => Nat.lt_irrefl _ (h.got_lt hx hm)
      simp [appended, hx, h.pend x hx, hn]
    · intro x n hn
      simp only [appended] at hn
      split at hn
      case isTrue =>
        rcases mem_append.mp hn with hn | hn
        · exact Nat.lt_succ_of_lt (h.fresh x n hn)
        · cases mem_singleton.mp hn
          exact Nat.lt_succ_self _
      case isFalse => exact Nat.lt_succ_of_lt (h.fresh x n hn)
    · intro x
      simp only [appended]
      split <;> exact h.lost x
    · intro x hx
      exact (if_neg hx).trans (h.idle x hx)

theorem Inv.eq_of_context (h : s.Inv) (hc : c ∈ s.queue.clients) (hc' : c' ∈ s.queue.clients)
    (he : c'.context = c.context) : c' = c :=
  inj_on_of_nodup_map h.nodup hc' hc he

theorem Inv.isActive_eq (h : s.Inv) (hc : c ∈ s.queue.clients) :
    s.isActive c.context = c.active := by
  rw [Bool.eq_iff_iff, isActive_iff]
  refine ⟨fun ⟨c', hc', he, ha⟩ => ?_, fun ha => ⟨c, hc, rfl, ha⟩⟩
  exact h.eq_of_context hc hc' he ▸ ha

theorem Inv.countP_succ (h : s.Inv) (hc : c ∈ s.queue.clients)
    (hp : p c = true) (hp' : p' c = false)
    (he : ∀ c' ∈ s.queue.clients, c'.context ≠ c.context → p c' = p' c') :
    s.queue.clients.countP p = s.queue.clients.countP p' + 1 := by
  have hnd := h.nodup
  generalize s.queue.clients = l at hc he hnd
  induction l
  case nil => cases hc
  case cons c' l hi =>
    obtain ⟨hn, hnd⟩ := nodup_cons.mp hnd
    simp only [mem_cons, forall_eq_or_imp] at he
    rw [countP_cons, countP_cons]
    rcases mem_cons.mp hc with rfl | hc
    · have hl : l.countP p = l.countP p' := by
        refine countP_congr fun c' hc' => ?_
        rw [he.right c' hc' fun hx => hn (mem_map.mpr ⟨c', hc', hx⟩)]
      simp [hp, hp', hl]
    · have hx : c'.context ≠ c.context := fun hx => hn (mem_map.mpr ⟨c, hc, hx.symm⟩)
      rw [hi hc he.right hnd, he.left hx]
      omega

theorem step_records (hf : s.queue.clients.find? (·.context = context) = some c)
    (hl : c.last = none ∧ c.missed = 0) :
    s.step (.records context) =
      { queue := (s.queue.queueFetch c).1
        account := fun x => if x = context then
          { s.account x with
            got := (s.account x).got ++
              (s.queue.tailq.map (·.serial)).filter (· ∈ (s.account x).due) }
          else s.account x
        fetched := some context } := by
  have hm : (s.queue.queueFetch c).2.missed = none := by simp [Queue.queueFetch, hl.right]
  simp [step, onRecords, Queue.queueRecords, hf, queueFetch_events hl.left, hm]

def served (s : Session) (context x : Nat) : Account :=
  if x = context then { s.account x with got := (s.account x).due } else s.account x

theorem served_due : (s.served context x).due = (s.account x).due := by
  simp only [served]
  split <;> rfl

theorem Inv.due_eq (h : s.Inv) (ha : s.isActive context)
    (hok : ∀ e ∈ s.queue.tailq, e.serial ∉ (s.account context).got) :
    (s.account context).due = (s.account context).got ++ s.queue.tailq.map (·.serial) := by
  rw [h.pend context ha, append_cancel_left_eq]
  simpa using hok

theorem Inv.step_active (h : s.Inv) (hc : c ∈ s.queue.clients) (ha : c.active)
    (hf : s.queue.clients.find? (·.context = c.context) = some c)
    (hok : ∀ e ∈ s.queue.tailq, e.serial ∉ (s.account c.context).got) :
    s.step (.records c.context) =
      ⟨(s.queue.queueFetch c).1, s.served c.context, some c.context⟩ := by
  have hdue := h.due_eq ((h.isActive_eq hc).trans ha) hok
  rw [step_records hf (h.last c hc)]
  congr 1
  funext x
  simp only [served]
  split
  case isFalse => rfl
  case isTrue hx =>
    subst hx
    have hfil : (s.queue.tailq.map (·.serial)).filter (· ∈ (s.account c.context).due) =
        s.queue.tailq.map (·.serial) := by
      rw [filter_eq_self, hdue]
      intro n hn
      exact decide_eq_true (mem_append_right _ hn)
    rw [hfil, ← hdue]

theorem Inv.clients_active (h : s.Inv) (hc : c ∈ s.queue.clients) (ha : c.active) :
    (s.queue.queueFetch c).1.clients = s.queue.clients := by
  rw [(queueFetch_eq s.queue c).right.right]
  refine (map_congr_left fun c' hc' => ?_).trans (map_id _)
  split
  case isFalse => rfl
  case isTrue he =>
    obtain ⟨hl, hm⟩ := h.last c hc
    cases h.eq_of_context hc hc' he
    cases c
    simp_all

theorem filter_used {l : List Event}
    (h : ∀ e ∈ l, e.used.count > 0 ∨ p e.serial = false) :
    (((l.map Event.used).filter (·.count > 0)).map (·.serial)).filter p =
      (l.map (·.serial)).filter p := by
  induction l
  case nil => rfl
  case cons e l hi =>
    simp only [mem_cons, forall_eq_or_imp] at h
    rw [map_cons, map_cons, filter_cons]
    split
    case isTrue => simp [filter_cons, hi h.right, Event.used]
    case isFalse hn =>
      have hp := h.left.resolve_left (by simpa using hn)
      rw [hi h.right, filter_cons_of_neg (by simp [hp])]

theorem Inv.records_active (h : s.Inv) (hc : c ∈ s.queue.clients) (ha : c.active)
    (hf : s.queue.clients.find? (·.context = c.context) = some c)
    (hok : ∀ e ∈ s.queue.tailq, e.serial ∉ (s.account c.context).got) :
    (s.step (.records c.context)).Inv := by
  obtain ⟨hnum, hcount, _⟩ := queueFetch_eq s.queue c
  have hsame := h.clients_active hc ha
  have hact : s.isActive c.context := (h.isActive_eq hc).trans ha
  have hdue := h.due_eq hact hok
  -- an event has been used by one more client
  have hcnt : ∀ e ∈ s.queue.tailq, e.count = s.queue.clients.countP (fun c' =>
      c'.active ∧ e.serial ∉ (s.served c.context c'.context).got) + 1 := by
    intro e he
    rw [(h.count e he).right]
    refine congrArg _ (h.countP_succ hc ?_ ?_ fun c' _ hx => ?_)
    · simpa using ⟨ha, hok e he⟩
    · have hm : e.serial ∈ (s.account c.context).due :=
        hdue ▸ mem_append_right _ (mem_map_of_mem he)
      simp [served, hm]
    · simp [served, hx]
  have htail : ∀ e ∈ s.queue.tailq, e.used.count > 0 ∨
      ∀ x, s.isActive x → e.serial ∈ (s.served c.context x).got := by
    intro e he
    by_cases h₀ : e.used.count > 0
    · exact .inl h₀
    · have hz : s.queue.clients.countP (fun c' =>
          c'.active ∧ e.serial ∉ (s.served c.context c'.context).got) = 0 := by
        have hu : e.used.count = e.count - 1 := rfl
        have he := hcnt e he
        omega
      rw [countP_eq_zero] at hz
      refine .inr fun x hx => ?_
      obtain ⟨c', hc', rfl, ha'⟩ := isActive_iff.mp hx
      simpa [ha'] using hz c' hc'
  rw [h.step_active hc ha hf hok]
  refine ⟨hsame ▸ h.nodup, hsame ▸ h.last, ?_, ?_, ?_, ?_, ?_, ?_, ?_⟩
  · rw [hnum, hsame, if_pos ha, h.num]
  · intro e' he'
    rw [queueFetch_tailq (h.last c hc).left] at he'
    obtain ⟨hm, hpos⟩ := mem_filter.mp he'
    obtain ⟨e, he, rfl⟩ := mem_map.mp hm
    refine ⟨by simpa using hpos, ?_⟩
    rw [hsame]
    have hu : e.used.count = e.count - 1 := rfl
    rw [hu, hcnt e he]
    exact Int.add_sub_cancel ..
  · intro x hx
    have hx : s.isActive x := by simpa [isActive, hsame] using hx
    rw [queueFetch_tailq (h.last c hc).left]
    by_cases he : x = c.context
    · subst he
      have hnil : (((s.queue.tailq.map Event.used).filter (·.count > 0)).map (·.serial)).filter
          (· ∉ (s.account c.context).due) = [] := by
        rw [filter_eq_nil_iff, hdue]
        simp only [mem_map, mem_filter]
        rintro n ⟨_, ⟨⟨e, he, rfl⟩, _⟩, rfl⟩
        simp only [decide_eq_true_eq, not_not]
        exact mem_append_right _ (mem_map.mpr ⟨e, he, rfl⟩)
      simp only [served, if_true]
      rw [hnil, append_nil]
    · have hserved : s.served c.context x = s.account x := if_neg he
      simp only [hserved]
      rw [filter_used fun e he' => ?_]
      · exact h.pend x hx
      · rcases htail e he' with hu | hu
        · exact .inl hu
        · exact .inr (by simpa [hserved] using hu x hx)
  · intro x n hn
    rw [served_due] at hn
    exact hcount ▸ h.fresh x n hn
  · intro x
    simp only [served]
    split <;> exact h.lost x
  · intro x hx
    have hx : ¬s.isActive x := by simpa [isActive, hsame] using hx
    have hne : x ≠ c.context := fun he => hx (he ▸ hact)
    exact (if_neg hne).trans (h.idle x hx)
  · intro x hx
    cases hx
    simp [served]

theorem Inv.records_idle (h : s.Inv) (hc : c ∈ s.queue.clients) (ha : c.active = false)
    (hf : s.queue.clients.find? (·.context = c.context) = some c) (hok : s.queue.tailq = []) :
    (s.step (.records c.context)).Inv := by
  obtain ⟨hnum, hcount, hclients⟩ := queueFetch_eq s.queue c
  have htail : (s.queue.queueFetch c).1.tailq = [] := by
    rw [queueFetch_tailq (h.last c hc).left, hok]
    rfl
  have hs : s.step (.records c.context) =
      ⟨(s.queue.queueFetch c).1, s.account, some c.context⟩ := by
    rw [step_records hf (h.last c hc), hok]
    congr 1
    simp
  have hpend : ∀ x, (s.account x).due = (s.account x).got := by
    intro x
    by_cases hx : s.isActive x
    · simpa [hok] using h.pend x hx
    · rw [h.idle x hx]
      rfl
  rw [hs]
  refine ⟨?_, ?_, ?_, by simp [htail], fun x _ => by simpa [htail] using hpend x,
    fun x n hn => hcount ▸ h.fresh x n hn, h.lost, ?_, ?_⟩
  · rw [hclients, map_map]
    refine (congrArg Nodup (map_congr_left fun c' _ => ?_)).mpr h.nodup
    simp only [Function.comp_apply]
    split <;> rfl
  · rw [hclients]
    intro c' hc'
    obtain ⟨c₀, hc₀, rfl⟩ := mem_map.mp hc'
    split
    case isTrue => exact ⟨rfl, rfl⟩
    case isFalse => exact h.last c₀ hc₀
  · rw [hnum, hclients, countP_map, ha, h.num]
    refine (h.countP_succ hc ?_ ha fun c' _ hx => ?_).symm
    · simp
    · simp [hx]
  · intro x hx
    refine h.idle x fun hx' => hx ?_
    obtain ⟨c', hc', rfl, ha'⟩ := isActive_iff.mp hx'
    refine isActive_iff.mpr ⟨c', ?_, rfl, ha'⟩
    rw [hclients]
    refine mem_map.mpr ⟨c', hc', if_neg fun he => ?_⟩
    cases h.eq_of_context hc hc' he
    exact Bool.false_ne_true (ha.symm.trans ha')
  · intro x _
    exact (hpend x).symm

theorem Inv.records (h : s.Inv) (hok : s.Ok (.records context)) :
    (s.step (.records context)).Inv := by
  cases hf : s.queue.clients.find? (·.context = context)
  case none =>
    have hs : s.step (.records context) = { s with fetched := none } := by
      simp [step, onRecords, Queue.queueRecords, hf]
    rw [hs]
    exact { h with fetched := by simp }
  case some c =>
    have hc := mem_of_find?_eq_some hf
    have hx : c.context = context := by simpa using find?_some hf
    subst hx
    simp only [Ok, h.isActive_eq hc] at hok
    cases ha : c.active
    case true => exact h.records_active hc ha hf (by simpa [ha] using hok)
    case false => exact h.records_idle hc ha hf (by simpa [ha] using hok)

theorem Inv.endClient_eq (h : s.Inv) (hc : c ∈ s.queue.clients)
    (hf : s.queue.clients.find? (·.context = c.context) = some c) :
    s.queue.endClient c.context = { s.queue with
      numclients := if c.active then s.queue.numclients - 1 else s.queue.numclients
      clients := s.queue.clients.filter (·.context ≠ c.context) } := by
  simp only [Queue.endClient, hf, Queue.queueCleanup, (h.last c hc).left]
  cases c.active <;> rfl

theorem Inv.endClient (h : s.Inv) (hok : s.Ok (.endClient context)) :
    (s.step (.endClient context)).Inv := by
  cases hf : s.queue.clients.find? (·.context = context)
  case none =>
    have hs : s.step (.endClient context) = { s with fetched := none } := by
      simp only [step, Queue.endClient, hf, Session.mk.injEq, true_and, and_true]
      funext x
      split
      case isFalse => rfl
      case isTrue hx =>
        refine (h.idle x fun ha => ?_).symm
        obtain ⟨c, hc, he, _⟩ := isActive_iff.mp ha
        exact find?_eq_none.mp hf c hc (by simpa [← hx] using he)
    rw [hs]
    exact { h with fetched := by simp }
  case some c =>
    have hc := mem_of_find?_eq_some hf
    have hx : c.context = context := by simpa using find?_some hf
    subst hx
    have hact : ∀ x, (s.step (.endClient c.context)).isActive x ↔ x ≠ c.context ∧ s.isActive x := by
      intro x
      simp only [isActive_iff, step, h.endClient_eq hc hf, mem_filter, decide_eq_true_eq]
      constructor
      · rintro ⟨c', ⟨hc', hne⟩, rfl, ha⟩
        exact ⟨hne, c', hc', rfl, ha⟩
      · rintro ⟨hne, c', hc', rfl, ha⟩
        exact ⟨c', ⟨hc', hne⟩, rfl, ha⟩
    have hacc : ∀ x, x ≠ c.context → (s.step (.endClient c.context)).account x = s.account x :=
      fun x hne => if_neg hne
    have hself : (s.step (.endClient c.context)).account c.context = .empty := if_pos rfl
    have hq : (s.step (.endClient c.context)).queue = s.queue.endClient c.context := rfl
    rw [h.endClient_eq hc hf] at hq
    refine ⟨?_, ?_, ?_, ?_, ?_, ?_, ?_, ?_, fun x hx => nomatch hx⟩
    · rw [hq]
      exact h.nodup.sublist (filter_sublist.map _)
    · rw [hq]
      exact fun c' hc' => h.last c' (mem_of_mem_filter hc')
    · rw [hq]
      simp only [countP_filter]
      cases ha : c.active
      case false =>
        rw [h.num]
        refine countP_congr fun c' hc' => ?_
        by_cases he : c'.context = c.context
        · cases h.eq_of_context hc hc' he
          simp [ha]
        · simp [he]
      case true =>
        have hcnt : s.queue.clients.countP (·.active) = s.queue.clients.countP
            (fun c' => c'.active && decide (c'.context ≠ c.context)) + 1 :=
          h.countP_succ hc ha (by simp) fun c' _ hx => by simp [hx]
        rw [h.num, hcnt]
        rfl
    · rw [hq]
      intro e he
      obtain ⟨hpos, hcnt⟩ := h.count e he
      refine ⟨hpos, hcnt.trans ?_⟩
      rw [countP_filter]
      refine congrArg _ (countP_congr fun c' hc' => ?_)
      by_cases hx : c'.context = c.context
      · cases h.eq_of_context hc hc' hx
        have hg : c.active → e.serial ∈ (s.account c.context).got :=
          fun ha => hok ((h.isActive_eq hc).trans ha) e he
        simpa using hg
      · simp [hx, hacc _ hx]
    · intro x hx
      obtain ⟨hne, hx⟩ := (hact x).mp hx
      rw [hq, hacc x hne]
      exact h.pend x hx
    · intro x n hn
      rw [hq]
      by_cases hx : x = c.context
      · rw [hx, hself] at hn
        cases hn
      · rw [hacc x hx] at hn
        exact h.fresh x n hn
    · intro x
      by_cases hx : x = c.context
      · rw [hx, hself]
        exact ⟨rfl, rfl⟩
      · rw [hacc x hx]
        exact h.lost x
    · intro x hx
      by_cases he : x = c.context
      · rw [he, hself]
      · rw [hacc x he]
        exact h.idle x fun ha => hx ((hact x).mpr ⟨he, ha⟩)

theorem Inv.step (h : s.Inv) (hok : s.Ok op) : (s.step op).Inv := by
  cases op
  case newClient context => exact h.newClient context
  case append bytes => exact h.append hok
  case records context => exact h.records hok
  case endClient context => exact h.endClient hok

end Session

end EventQueue
