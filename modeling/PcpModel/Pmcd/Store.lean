import PcpModel.Library.Run
import PcpModel.Pmcd.Split
import PcpModel.Pmcd.Wait

-- A store is split by agents, and their answers make up one status (dostore.c).
namespace Pmcd.Store

open List Pcp

def epipe : Int :=
  32

structure AgentInfo where
  pmDomainId : Nat
  isDso : Bool
  connected : Bool
  notReady : Bool

structure Table where
  agent : List AgentInfo
  nodup : (agent.map (·.pmDomainId)).Nodup

namespace Table

variable (tbl : Table)

-- The index of the agent for a metric, or the number of agents if none is connected.
def agentOf (pmid : Nat) : Nat :=
  tbl.agent.findIdx fun ap => ap.pmDomainId = domain pmid ∧ ap.connected

def findDomainAgent (domain : Nat) : Option Nat :=
  tbl.agent.findIdx? (·.pmDomainId = domain)

def metrics (pmids : List Nat) (i : Nat) : List Nat :=
  pmids.filter (tbl.agentOf · = i)

-- SplitResult puts the list of the other metrics behind them.
def splitResult (pmids : List Nat) : List (List Nat) :=
  (List.range tbl.agent.length).map (tbl.metrics pmids) |>.filter (· ≠ [])

def badResult (pmids : List Nat) : List Nat :=
  tbl.metrics pmids tbl.agent.length

end Table

inductive Reply
  | error (ss s : Int)
  | other (s : Int)

structure Agents where
  store : Nat → Int
  send : Nat → Int
  reply : Nat → Reply

def checkError (ap : AgentInfo) (sts : Int) : Int × AgentInfo :=
  if sts = pmErrPmdanotready then
    if ap.notReady then (pmErrIpc, ap) else (pmErrAgain, { ap with notReady := true })
  else if sts = pmErrPmdaready then
    (pmErrIpc, ap)
  else
    (sts, ap)

-- The status of the agent's own reply, which is negative if the agent has not accepted its part.
def replyStatus (ap : AgentInfo) : Reply → Int × AgentInfo
  | .error ss s => if ss < 0 then (ss, ap) else if s < 0 then checkError ap s else (0, ap)
  | .other _ => (pmErrIpc, ap)

-- The agents whose parts have not been passed on yet are in `todo`. The failures that the agents
-- have reported are in `heard`, the last one first.
structure State where
  agent : List AgentInfo
  todo : List Nat
  badStore : Bool
  sts : Int
  s : Int
  notReady : Bool
  wait : Wait
  down : Bool
  cleaned : List Nat
  failed : List Nat
  accepted : List Nat
  heard : List Int
  selected : Int

def hear (sts : Int) (heard : List Int) : List Int :=
  if sts < 0 then sts :: heard else heard

def lastOf (heard : List Int) : Int :=
  heard.head?.getD 0

def record (p : Prop) [Decidable p] (i : Nat) (l : List Nat) : List Nat :=
  if p then i :: l else l

-- The failures of a send and of a reply after which an agent is to be disconnected.
def sendFails (s : Int) : Prop :=
  s = pmErrIpc ∨ s = pmErrTimeout ∨ s = -epipe

def replyFails (sts : Int) : Prop :=
  sts = pmErrIpc ∨ sts = pmErrTimeout

instance : DecidablePred sendFails := fun _ => inferInstanceAs (Decidable (_ ∨ _))
instance : DecidablePred replyFails := fun _ => inferInstanceAs (Decidable (_ ∨ _))

namespace State

variable (agents : Agents) (st : State)

def cleanupAgent (i : Nat) : State :=
  { st with
    agent := st.agent.modify i fun ap => { ap with connected := false }
    cleaned := i :: st.cleaned
  }

-- For a daemon that is not ready, `s` is what it has been before.
def passOn (ap : AgentInfo) (i : Nat) : State :=
  if ap.isDso then
    { st with
      s := agents.store i
      accepted := record (0 ≤ agents.store i) i st.accepted
      heard := hear (agents.store i) st.heard
    }
  else if ap.notReady then
    { st with notReady := true }
  else if 0 ≤ agents.send i then
    { st with
      s := agents.send i
      wait := { st.wait with busy := st.wait.busy ++ [i] }
    }
  else
    let st := { st with
      s := agents.send i
      failed := record (sendFails (agents.send i)) i st.failed
      heard := hear (agents.send i) st.heard
    }
    if st.s = pmErrIpc ∨ st.sts = pmErrTimeout ∨ st.s = -epipe then st.cleanupAgent i else st

def storePart (i : Nat) : Option State := do
  let ap ← st.agent[i]?
  let st := st.passOn agents ap i
  some { st with todo := st.todo.tail, sts := if st.s < 0 then st.s else st.sts }

def expire : State :=
  let busy := st.wait.busy
  let st := busy.foldl cleanupAgent st
  { st with
    failed := busy ++ st.failed
    heard := pmErrIpc :: st.heard
    wait := { busy := [], ready := [] }
    sts := pmErrIpc
  }

def select (s : Int) (fds : List Nat) : State :=
  let st := { st with selected := s }
  if s = 0 then
    st.expire
  else if st.sts < 0 then
    { st with down := true }
  else
    { st with wait := st.wait.select st.agent.length fds }

def answer (sts : Int) (ap : AgentInfo) (i : Nat) : State :=
  { st with
    agent := st.agent.set i ap
    wait := st.wait.read i
    sts := if sts < 0 then sts else st.sts
    failed := record (replyFails sts) i st.failed
    accepted := record (0 ≤ sts) i st.accepted
    heard := hear sts st.heard
  }

def readReply (i : Nat) : Option State := do
  let ap ← st.agent[i]?
  let (sts, ap) := replyStatus ap (agents.reply i)
  let st := st.answer sts ap i
  some (if ¬ap.isDso ∧ replyFails st.sts then st.cleanupAgent i else st)

def Finished : Prop :=
  st.todo = [] ∧ st.wait.busy = [] ∧ st.down = false

def result : Int :=
  if st.sts ≠ pmErrIpc ∧ st.sts ≠ pmErrTimeout then
    if st.badStore then pmErrNoagent else if st.notReady then pmErrAgain else st.sts
  else
    st.sts

end State

inductive Op
  | store
  | wait (e : Event)

-- What does not fit does not occur.
def step (agents : Agents) (st : State) (op : Op) : Option State := do
  if st.down then
    some st
  else
    match op, st.todo with
    | .store, i :: _ => st.storePart agents i
    | .wait e, [] =>
      if st.wait.Fits e then
        match e with
        | .select s fds => some (st.select s fds)
        | .reply => st.readReply agents (← st.wait.next)
      else
        some st
    | .store, [] => some st
    | .wait _, _ :: _ => some st

def Table.Unready (agent : List AgentInfo) (todo : List Nat) : Prop :=
  ∃ i ∈ todo.head?, ∃ ap ∈ agent[i]?, ap.isDso = false ∧ ap.notReady

instance : Decidable (Table.Unready agent todo) :=
  inferInstanceAs (Decidable (∃ i ∈ todo.head?, ∃ ap ∈ agent[i]?, _))

-- The variable `s` is not initialized. It is read if the first agent is not ready.
def start (tbl : Table) (pmids : List Nat) (s : Int) : Option State := do
  let todo ← (tbl.splitResult pmids).mapM fun list => do
    tbl.findDomainAgent (domain (← list.head?))
  some {
    agent := tbl.agent
    todo
    badStore := tbl.badResult pmids ≠ []
    sts := 0
    s
    notReady := false
    wait := { busy := [], ready := [] }
    down := false
    cleaned := []
    failed := []
    accepted := []
    heard := if Table.Unready tbl.agent todo then hear s [] else []
    selected := 0
  }

structure Sound (tbl : Table) (pmids : List Nat) (st : State) : Prop where
  shutdown : st.down → st.selected < 0
  cleanup : ∀ i, i ∈ st.cleaned ↔ i ∈ st.failed
  success : st.Finished → 0 ≤ st.result → ∀ pmid ∈ pmids, tbl.agentOf pmid ∈ st.accepted

-- The last failure of any agent calls for what the status that is at hand calls for: of the send
-- that fails, of the select, and of the agent that accepts its part.
def Agrees (agents : Agents) (st : State) (op : Op) : Prop :=
  st.down = false →
    match op, st.todo with
    | .store, i :: _ => ∀ ap, st.agent[i]? = some ap →
      ap.isDso = false → ap.notReady = false → agents.send i < 0 →
        agents.send i ≠ pmErrIpc → agents.send i ≠ -epipe →
          (lastOf st.heard = pmErrTimeout ↔ agents.send i = pmErrTimeout)
    | .wait (.select s fds), [] =>
      st.wait.Fits (.select s fds) → s ≠ 0 → st.heard ≠ [] → s < 0
    | .wait .reply, [] => ∀ i ap, st.wait.next = some i → st.agent[i]? = some ap →
      0 ≤ (replyStatus ap (agents.reply i)).1 → ¬replyFails (lastOf st.heard)
    | .store, [] | .wait _, _ :: _ => True

theorem mem_record [Decidable p] : k ∈ record p i l ↔ p ∧ k = i ∨ k ∈ l := by
  unfold record
  split <;> simp_all

theorem record_iff [Decidable p] [Decidable q] (hi : i ∉ failed)
    (h : ∀ k, k ∈ cleaned ↔ k ∈ failed) :
    (∀ k, k ∈ record p i cleaned ↔ k ∈ record q i failed) ↔ (p ↔ q) := by
  simp only [mem_record, h]
  constructor
  · intro hk
    simpa [hi] using hk i
  · intro hp k
    rw [hp]

structure Kept (tbl : Table) (pmids : List Nat) (st : State) : Prop where
  wait : st.wait.Valid st.agent.length
  daemon : ∀ i ∈ st.wait.busy, ∀ ap, st.agent[i]? = some ap → ap.isDso = false
  bound : ∀ i ∈ st.todo, i < st.agent.length
  nodup : st.todo.Nodup
  todo : ∀ i ∈ st.todo, i ∉ st.wait.busy ∧ i ∉ st.failed
  busy : ∀ i ∈ st.wait.busy, i ∉ st.failed
  covered : ∀ pmid ∈ pmids, tbl.agentOf pmid ∈ st.todo ∨ tbl.agentOf pmid ∈ st.wait.busy ∨
    tbl.agentOf pmid ∈ st.accepted ∨ st.badStore ∨ st.notReady ∨ st.sts < 0

namespace Kept

variable {tbl : Table} {pmids : List Nat} {st : State} {agents : Agents}

theorem success (h : Kept tbl pmids st) (hf : st.Finished) (hr : 0 ≤ st.result) :
    ∀ pmid ∈ pmids, tbl.agentOf pmid ∈ st.accepted := by
  intro pmid hm
  obtain ⟨ht, hb, -⟩ := hf
  have hc := h.covered pmid hm
  have h₁ : ¬0 ≤ pmErrNoagent := by decide
  have h₂ : ¬0 ≤ pmErrAgain := by decide
  have h₃ : ¬0 ≤ pmErrIpc := by decide
  have h₄ : ¬0 ≤ pmErrTimeout := by decide
  unfold State.result at hr
  grind

theorem cleanupAgent (h : Kept tbl pmids st) (i : Nat) : Kept tbl pmids (st.cleanupAgent i) where
  wait := by simpa [State.cleanupAgent] using h.wait
  daemon := by
    intro k hk ap ha
    have := h.daemon k hk
    simp only [State.cleanupAgent, getElem?_modify] at ha
    split at ha <;> grind
  bound := by simpa [State.cleanupAgent] using h.bound
  nodup := h.nodup
  todo := h.todo
  busy := h.busy
  covered := h.covered

theorem advance {notReady : Bool} (h : Kept tbl pmids st) (ht : st.todo = i :: is)
    (hf : ∀ k, k ∈ failed → k ∈ st.failed ∨ k = i)
    (hc : i ∈ accepted ∨ notReady ∨ sts < 0) (ha : ∀ k ∈ st.accepted, k ∈ accepted)
    (hn : st.notReady → notReady) (hs : st.sts < 0 → sts < 0) :
    Kept tbl pmids
      { st with todo := st.todo.tail, failed, accepted, notReady, sts, s, cleaned, heard } where
  wait := h.wait
  daemon := h.daemon
  bound := fun k hk => h.bound k (mem_of_mem_tail hk)
  nodup := h.nodup.tail
  todo := by
    intro k hk
    have := h.todo k (mem_of_mem_tail hk)
    have := (nodup_cons.mp (ht ▸ h.nodup)).left
    grind
  busy := by
    intro k hk
    have := h.busy k hk
    have := h.todo i (by simp [ht])
    grind
  covered := by
    intro pmid hm
    have := h.covered pmid hm
    grind

theorem await (h : Kept tbl pmids st) (ht : st.todo = i :: is) (hi : st.agent[i]? = some ap)
    (hd : ap.isDso = false) :
    Kept tbl pmids { st with
      todo := st.todo.tail, s, heard
      wait := { st.wait with busy := st.wait.busy ++ [i] } } where
  wait := by
    have hb := h.bound i (by simp [ht])
    have hn := (h.todo i (by simp [ht])).left
    refine ⟨?_, ?_, ?_, h.wait.ready⟩
    · intro k hk
      rcases mem_append.mp hk with hk | hk
      · exact h.wait.bound k hk
      · exact mem_singleton.mp hk ▸ hb
    · intro k hk
      exact mem_append_left _ (h.wait.sub k hk)
    · exact nodup_append.mpr ⟨h.wait.busy, nodup_singleton i, by grind⟩
  daemon := by
    intro k hk ap' ha
    have := h.daemon k
    grind
  bound := fun k hk => h.bound k (mem_of_mem_tail hk)
  nodup := h.nodup.tail
  todo := by
    intro k hk
    have := h.todo k (mem_of_mem_tail hk)
    have := (nodup_cons.mp (ht ▸ h.nodup)).left
    grind
  busy := by
    intro k hk
    have := h.busy k
    have := h.todo i (by simp [ht])
    grind
  covered := by
    intro pmid hm
    have := h.covered pmid hm
    grind

theorem storePart (agents : Agents) (h : Kept tbl pmids st) (ht : st.todo = i :: is)
    (hi : st.agent[i]? = some ap) :
    ∃ st', st.storePart agents i = some st' ∧ Kept tbl pmids st' := by
  refine ⟨_, by simp only [State.storePart, hi]; rfl, ?_⟩
  have hm : ∀ {k l} {p : Prop} [Decidable p], k ∈ l → k ∈ record p i l :=
    fun hk => mem_record.mpr (.inr hk)
  have hs : ∀ {s : Int}, st.sts < 0 → (if s < 0 then s else st.sts) < 0 := by
    intro s h
    split <;> assumption
  unfold State.passOn
  split
  · refine h.advance ht (fun _ => .inl) ?_ (fun _ => hm) id hs
    by_cases hn : agents.store i < 0
    · simp [hn]
    · exact .inl (mem_record.mpr (.inl ⟨by omega, rfl⟩))
  split
  · exact h.advance ht (fun _ => .inl) (.inr (.inl rfl)) (fun _ => id) (fun _ => rfl) hs
  split
  case isTrue h₀ =>
    have hn : ¬agents.send i < 0 := by omega
    simp only [hn]
    exact h.await ht hi (by simpa using ‹¬ap.isDso = true›)
  case isFalse h₀ =>
    have hn : agents.send i < 0 := by omega
    have hf : ∀ k, k ∈ record (sendFails (agents.send i)) i st.failed → k ∈ st.failed ∨ k = i :=
      fun k hk => (mem_record.mp hk).symm.imp_right And.right
    have ha : Kept tbl pmids { st with
        todo := st.todo.tail, failed := record (sendFails (agents.send i)) i st.failed,
        sts := agents.send i, s := agents.send i, heard := hear (agents.send i) st.heard } :=
      h.advance ht hf (.inr (.inr hn)) (fun _ => id) id fun _ => hn
    by_cases hw : agents.send i = pmErrIpc ∨ st.sts = pmErrTimeout ∨ agents.send i = -epipe
    · simp only [hw, State.cleanupAgent, hn, if_true]
      exact ha.cleanupAgent i
    · simp only [hw, hn, if_false]
      exact ha

theorem foldl_cleanupAgent (is : List Nat) (st : State) : ∃ agent,
    is.foldl State.cleanupAgent st = { st with agent, cleaned := is.reverse ++ st.cleaned } := by
  induction is generalizing st
  case nil => exact ⟨st.agent, rfl⟩
  case cons i is ih =>
    obtain ⟨agent, h⟩ := ih (st.cleanupAgent i)
    exact ⟨agent, h.trans (by simp [State.cleanupAgent])⟩

theorem expire (ht : st.todo = []) : Kept tbl pmids st.expire := by
  obtain ⟨agent, hf⟩ := foldl_cleanupAgent st.wait.busy st
  simp only [State.expire, hf]
  have hs : pmErrIpc < 0 := by decide
  exact ⟨⟨by simp, by simp, by simp, by simp⟩, by simp, by simp [ht], by simp [ht], by simp [ht],
    by simp, by simp [hs]⟩

theorem select (h : Kept tbl pmids st) (ht : st.todo = []) (s : Int) (fds : List Nat) :
    Kept tbl pmids (st.select s fds) := by
  simp only [State.select]
  split
  · exact expire ht
  split
  · exact ⟨h.wait, h.daemon, h.bound, h.nodup, h.todo, h.busy, h.covered⟩
  · exact ⟨h.wait.select fds, h.daemon, h.bound, h.nodup, h.todo, h.busy, h.covered⟩

theorem isDso_replyStatus (ap : AgentInfo) (reply : Reply) :
    (replyStatus ap reply).2.isDso = ap.isDso := by
  unfold replyStatus checkError
  grind

theorem answer (h : Kept tbl pmids st) (ht : st.todo = []) (hn : st.wait.next = some i)
    (hi : st.agent[i]? = some ap) (hd : ap'.isDso = ap.isDso) (sts : Int) :
    Kept tbl pmids (st.answer sts ap' i) where
  wait := by simpa [State.answer] using h.wait.read hn
  daemon := by
    intro k hk ap₁ ha
    have := h.daemon k ((Wait.mem_read_busy h.wait).mp hk).right
    simp only [State.answer] at ha
    grind
  bound := by simpa [State.answer] using h.bound
  nodup := h.nodup
  todo := by simp [State.answer, ht]
  busy := by
    intro k hk
    have := (Wait.mem_read_busy h.wait).mp hk
    have := h.busy k
    grind [State.answer, mem_record]
  covered := by
    intro pmid hm
    have := h.covered pmid hm
    have := Wait.mem_read_busy (i := i) (j := tbl.agentOf pmid) h.wait
    simp only [State.answer, mem_record]
    grind

theorem readReply (agents : Agents) (h : Kept tbl pmids st) (ht : st.todo = [])
    (hn : st.wait.next = some i) (hi : st.agent[i]? = some ap) :
    ∃ st', st.readReply agents i = some st' ∧ Kept tbl pmids st' := by
  refine ⟨_, by simp only [State.readReply, hi]; rfl, ?_⟩
  have hk := h.answer ht hn hi (isDso_replyStatus ap (agents.reply i))
  split
  · exact (hk _).cleanupAgent i
  · exact hk _

theorem agent_todo (h : Kept tbl pmids st) (ht : st.todo = i :: is) :
    ∃ ap, st.agent[i]? = some ap :=
  ⟨_, getElem?_eq_getElem (h.bound i (by simp [ht]))⟩

theorem agent_next (h : Kept tbl pmids st) (hn : st.wait.next = some i) :
    ∃ ap, st.agent[i]? = some ap :=
  ⟨_, getElem?_eq_getElem (h.wait.bound i (h.wait.next hn))⟩

end Kept

-- The overall status is the last failure. If the next agent is not ready, it becomes so with `s`.
structure Heard (st : State) : Prop where
  neg : ∀ sts ∈ st.heard, sts < 0
  last : ¬Table.Unready st.agent st.todo → st.sts = lastOf st.heard
  stale : Table.Unready st.agent st.todo → (if st.s < 0 then st.s else st.sts) = lastOf st.heard

namespace Heard

variable {st : State} {agents : Agents}

@[simp]
theorem lastOf_hear : lastOf (hear sts heard) = if sts < 0 then sts else lastOf heard := by
  unfold hear
  split <;> rfl

theorem neg_hear (h : ∀ sts ∈ heard, sts < 0) : ∀ sts' ∈ hear sts heard, sts' < 0 := by
  unfold hear
  split
  case isTrue hs => exact forall_mem_cons.mpr ⟨hs, h⟩
  case isFalse => exact h

theorem settled (hn : ∀ sts ∈ st.heard, sts < 0) (hl : st.sts = lastOf st.heard)
    (hs : st.s < 0 → st.s = st.sts) : Heard st := by
  refine ⟨hn, fun _ => hl, fun _ => ?_⟩
  split
  case isTrue h => exact (hs h).trans hl
  case isFalse => exact hl

theorem sts_neg (h : Heard st) (ht : st.todo = []) : st.sts < 0 ↔ st.heard ≠ [] := by
  have hn := h.neg
  rw [h.last (by simp [Table.Unready, ht])]
  cases hh : st.heard with
  | nil => simp [lastOf]
  | cons x l => simpa [lastOf] using hn x (by simp [hh])

theorem ready (h : Heard st) (ht : st.todo = i :: is) (hi : st.agent[i]? = some ap)
    (hr : ap.isDso = true ∨ ap.notReady = false) : st.sts = lastOf st.heard := by
  refine h.last ?_
  rintro ⟨_, hj, _, hk, hd, hn⟩
  rw [ht, head?_cons, Option.mem_some_iff] at hj
  rw [← hj, hi, Option.mem_some_iff] at hk
  simp_all

theorem passOn_sts (st : State) : (st.passOn agents ap i).sts = st.sts := by
  unfold State.passOn State.cleanupAgent
  grind

theorem passOn_heard (h : Heard st) (agents : Agents) (ht : st.todo = i :: is)
    (hi : st.agent[i]? = some ap) :
    (∀ sts ∈ (st.passOn agents ap i).heard, sts < 0) ∧
      lastOf (st.passOn agents ap i).heard =
        if (st.passOn agents ap i).s < 0 then (st.passOn agents ap i).s else st.sts := by
  have hn := h.neg
  unfold State.passOn
  split
  case isTrue hd => exact ⟨neg_hear hn, by simp [h.ready ht hi (.inl hd)]⟩
  split
  case isTrue hd hr =>
    have hu : Table.Unready st.agent st.todo :=
      ⟨i, by simp [ht], ap, hi, by simpa using hd, hr⟩
    exact ⟨hn, (h.stale hu).symm⟩
  case isFalse hd hr =>
    have hl := h.ready ht hi (.inr (by simpa using hr))
    split
    case isTrue h₀ =>
      have h₁ : ¬agents.send i < 0 := by omega
      exact ⟨hn, by simp [h₁, hl]⟩
    case isFalse =>
      dsimp only
      split <;> exact ⟨neg_hear hn, lastOf_hear.trans (hl ▸ rfl)⟩

theorem storePart (h : Heard st) (ht : st.todo = i :: is) (hi : st.agent[i]? = some ap)
    (hs : st.storePart agents i = some st') : Heard st' := by
  obtain ⟨hn, hl⟩ := h.passOn_heard agents ht hi
  simp only [State.storePart, hi, Option.bind_eq_bind, Option.bind_some, Option.some.injEq] at hs
  subst hs
  refine settled hn ?_ fun hs => (if_pos hs).symm
  rw [hl, passOn_sts]

theorem of_todo (ht : st.todo = []) (hn : ∀ sts ∈ st.heard, sts < 0)
    (hl : st.sts = lastOf st.heard) : Heard st := by
  have hu : ¬Table.Unready st.agent st.todo := by simp [Table.Unready, ht]
  exact ⟨hn, fun _ => hl, fun h => absurd h hu⟩

theorem select (h : Heard st) (ht : st.todo = []) (s : Int) (fds : List Nat) :
    Heard (st.select s fds) := by
  have hl := h.last (by simp [Table.Unready, ht])
  simp only [State.select]
  split
  case isTrue =>
    obtain ⟨agent, hf⟩ := Kept.foldl_cleanupAgent st.wait.busy { st with selected := s }
    simp only [State.expire, hf]
    exact of_todo ht (forall_mem_cons.mpr ⟨by decide, h.neg⟩) rfl
  case isFalse =>
    split <;> exact of_todo ht h.neg hl

theorem readReply (h : Heard st) (ht : st.todo = []) (hi : st.agent[i]? = some ap)
    (hs : st.readReply agents i = some st') : Heard st' := by
  have hl := h.last (by simp [Table.Unready, ht])
  simp only [State.readReply, hi, Option.bind_eq_bind, Option.bind_some, Option.some.injEq] at hs
  subst hs
  split <;> exact of_todo ht (neg_hear h.neg) (by simp [State.cleanupAgent, State.answer, hl])

end Heard

-- The code keeps to what it should do in a state, whatever has been decided before.
def Agreed (st : State) : Prop :=
  (st.down → st.selected < 0) ∧ ∀ i, i ∈ st.cleaned ↔ i ∈ st.failed

section

variable {tbl : Table} {pmids : List Nat} {st : State} {agents : Agents}

theorem agreed_storePart (h : Kept tbl pmids st) (hh : Heard st) (hg : Agreed st)
    (hd : st.down = false) (ht : st.todo = i :: is) (hi : st.agent[i]? = some ap)
    (hs : st.storePart agents i = some st') : Agreed st' ↔ Agrees agents st .store := by
  have hn := (h.todo i (by simp [ht])).right
  simp only [State.storePart, hi, Option.bind_eq_bind, Option.bind_some, Option.some.injEq] at hs
  subst hs
  simp only [Agrees, ht, hi, Option.some.injEq, forall_eq']
  unfold State.passOn
  split
  case isTrue hx => exact iff_of_true hg (by simp [hx])
  split
  case isTrue hx => exact iff_of_true hg (by simp [hx])
  split
  case isTrue hx =>
    exact iff_of_true hg fun _ _ _ hlt => absurd hx (by omega)
  case isFalse hx =>
    have hl := hh.ready ht hi (.inr (by simpa using ‹¬ap.notReady = true›))
    rw [← hl]
    have hr := record_iff (p := agents.send i = pmErrIpc ∨ st.sts = pmErrTimeout ∨
      agents.send i = -epipe) (q := sendFails (agents.send i)) hn hg.right
    by_cases hw : agents.send i = pmErrIpc ∨ st.sts = pmErrTimeout ∨ agents.send i = -epipe
    · simp only [hw, record] at hr
      simp only [hw]
      refine (and_iff_right (by simp [State.cleanupAgent, hd])).trans (hr.trans ?_)
      unfold sendFails
      grind
    · simp only [hw, record] at hr
      simp only [hw]
      refine (and_iff_right (by simp [hd])).trans (hr.trans ?_)
      unfold sendFails
      grind

theorem agreed_expire (hd : st.down = false) (hc : ∀ i, i ∈ st.cleaned ↔ i ∈ st.failed) :
    Agreed st.expire := by
  obtain ⟨agent, he⟩ := Kept.foldl_cleanupAgent st.wait.busy st
  simp only [Agreed, State.expire, he]
  simp [hd, hc]

theorem agreed_select (hh : Heard st) (hg : Agreed st) (hd : st.down = false) (ht : st.todo = [])
    (hf : st.wait.Fits (.select s fds)) :
    Agreed (st.select s fds) ↔ Agrees agents st (.wait (.select s fds)) := by
  simp only [Agrees, ht, hd, hf, true_implies, State.select, ← hh.sts_neg ht]
  split
  case isTrue hs =>
    exact iff_of_true (agreed_expire rfl hg.right) fun h => absurd hs h
  case isFalse hs =>
    split
    case isTrue hn => simp [Agreed, hs, show st.sts < 0 from hn, hg.right]
    case isFalse hn => exact iff_of_true ⟨by simp, hg.right⟩ fun _ h => absurd h hn

theorem agreed_readReply (h : Kept tbl pmids st) (hh : Heard st) (hg : Agreed st)
    (hd : st.down = false) (ht : st.todo = []) (hn : st.wait.next = some i)
    (hi : st.agent[i]? = some ap)
    (hs : st.readReply agents i = some st') : Agreed st' ↔ Agrees agents st (.wait .reply) := by
  have hb := h.wait.next hn
  have hdso := Kept.isDso_replyStatus ap (agents.reply i)
  rw [h.daemon i hb ap hi] at hdso
  have ha : Agrees agents st (.wait .reply) ↔
      (0 ≤ (replyStatus ap (agents.reply i)).1 → ¬replyFails st.sts) := by
    simp only [Agrees, ht, hd, hn, true_implies, ← hh.last (by simp [Table.Unready, ht])]
    constructor
    · intro h
      exact h i ap rfl hi
    · rintro h _ _ ⟨⟩ hi'
      cases hi.symm.trans hi'
      exact h
  simp only [State.readReply, hi, Option.bind_eq_bind, Option.bind_some, Option.some.injEq] at hs
  subst hs
  rw [ha]
  generalize replyStatus ap (agents.reply i) = r at hdso
  have hr := record_iff (p := replyFails (if r.1 < 0 then r.1 else st.sts)) (q := replyFails r.1)
    (h.busy i hb) hg.right
  have hn : replyFails r.1 → r.1 < 0 := by
    rintro (h | h) <;> rw [h] <;> decide
  by_cases hw : replyFails (if r.1 < 0 then r.1 else st.sts)
  · simp only [hw, record] at hr
    simp only [hdso, State.answer, hw]
    refine (and_iff_right (by simp [State.cleanupAgent, hd])).trans (hr.trans ?_)
    grind
  · simp only [hw, record] at hr
    simp only [State.answer, hw, and_false, if_false]
    refine (and_iff_right (by simp [hd])).trans (hr.trans ?_)
    grind

theorem step_eq (h : Kept tbl pmids st) (hh : Heard st) (hg : Agreed st) (op : Op) :
    ∃ st', step agents st op = some st' ∧ (Kept tbl pmids st' ∧ Heard st') ∧
      (Agreed st' ↔ Agrees agents st op) := by
  unfold step
  split
  case isTrue hd => exact ⟨st, rfl, ⟨h, hh⟩, iff_of_true hg (by simp [Agrees, hd])⟩
  case isFalse hd =>
    have hd : st.down = false := by simpa using hd
    split
    case h_1 i is ht =>
      obtain ⟨ap, hi⟩ := h.agent_todo ht
      obtain ⟨st', hs, hk⟩ := h.storePart agents ht hi
      exact ⟨st', hs, ⟨hk, hh.storePart ht hi hs⟩, agreed_storePart h hh hg hd ht hi hs⟩
    case h_2 e ht =>
      split
      case isTrue hf =>
        cases e
        case select s fds =>
          exact ⟨_, rfl, ⟨h.select ht s fds, hh.select ht s fds⟩, agreed_select hh hg hd ht hf⟩
        case reply =>
          obtain ⟨i, hn⟩ := Option.isSome_iff_exists.mp hf
          obtain ⟨ap, hi⟩ := h.agent_next hn
          obtain ⟨st', hs, hk⟩ := h.readReply agents ht hn hi
          exact ⟨st', by simp [hn, hs], ⟨hk, hh.readReply ht hi hs⟩,
            agreed_readReply h hh hg hd ht hn hi hs⟩
      case isFalse hf =>
        refine ⟨st, rfl, ⟨h, hh⟩, iff_of_true hg ?_⟩
        cases e
        case select => simp [Agrees, ht, hf]
        case reply =>
          simp only [Wait.Fits, Option.not_isSome_iff_eq_none] at hf
          simp [Agrees, ht, hf]
    case h_3 ht => exact ⟨st, rfl, ⟨h, hh⟩, iff_of_true hg (by simp [Agrees, ht])⟩
    case h_4 ht => exact ⟨st, rfl, ⟨h, hh⟩, iff_of_true hg (by simp [Agrees, ht])⟩

theorem findDomainAgent_eq (hl : tbl.agentOf pmid < tbl.agent.length) :
    tbl.findDomainAgent (domain pmid) = some (tbl.agentOf pmid) := by
  have hp : (tbl.agent.get ⟨tbl.agentOf pmid, hl⟩).pmDomainId = domain pmid :=
    (of_decide_eq_true (findIdx_getElem (w := hl))).left
  refine findIdx?_eq_some_iff_getElem.mpr ⟨hl, by simpa using hp, fun k hk he => ?_⟩
  have hn := pairwise_iff_getElem.mp tbl.nodup k (tbl.agentOf pmid)
    (by simpa using Nat.lt_trans hk hl) (by simpa using hl) hk
  simp only [get_eq_getElem] at hp
  simp only [getElem_map, hp] at hn
  exact hn (by simpa using he)

def used (tbl : Table) (pmids : List Nat) : List Nat :=
  (List.range tbl.agent.length).filter (tbl.metrics pmids · ≠ [])

theorem mapM_map {f : β → Option α} {l : List α} (h : ∀ a ∈ l, f (g a) = some a) :
    (l.map g).mapM f = some l := by
  induction l
  case nil => rfl
  case cons a l ih =>
    simp [h a (by simp), ih fun b hb => h b (by simp [hb])]

theorem agents_splitResult (tbl : Table) (pmids : List Nat) :
    ((tbl.splitResult pmids).mapM fun list => do tbl.findDomainAgent (domain (← list.head?))) =
      some (used tbl pmids) := by
  have hs : tbl.splitResult pmids = (used tbl pmids).map (tbl.metrics pmids) := by
    simp [Table.splitResult, used, filter_map, Function.comp_def]
  rw [hs]
  refine mapM_map fun i hi => ?_
  obtain ⟨hl, hm⟩ := by simpa [used] using hi
  obtain ⟨pmid, hp⟩ := Option.isSome_iff_exists.mp (isSome_head?.mpr hm)
  obtain rfl := of_decide_eq_true (mem_filter.mp (mem_of_head? hp)).right
  simp [hp, findDomainAgent_eq hl]

theorem start_heard (st : State) (h : st.heard =
    if Table.Unready st.agent st.todo then hear st.s [] else []) (hs : st.sts = 0) : Heard st := by
  by_cases hu : Table.Unready st.agent st.todo
  · rw [if_pos hu] at h
    exact ⟨h ▸ Heard.neg_hear (by simp), (absurd hu ·),
      fun _ => by rw [h, hs, Heard.lastOf_hear]; rfl⟩
  · rw [if_neg hu] at h
    exact ⟨by simp [h], fun _ => by simp [h, hs, lastOf], (absurd · hu)⟩

theorem start_eq (tbl : Table) (pmids : List Nat) (s : Int) :
    ∃ st, start tbl pmids s = some st ∧ Kept tbl pmids st ∧ Heard st ∧ Agreed st := by
  refine ⟨_, by rw [start, agents_splitResult]; rfl, ?_, start_heard _ rfl rfl, by simp [Agreed]⟩
  refine ⟨⟨by simp, by simp, by simp, by simp⟩, by simp, ?_, ?_, by simp, by simp,
    fun pmid hm => ?_⟩
  · simp +contextual [used]
  · exact nodup_range.filter _
  · have hle : tbl.agentOf pmid ≤ tbl.agent.length := findIdx_le_length
    have hne : tbl.metrics pmids (tbl.agentOf pmid) ≠ [] :=
      ne_nil_of_mem (mem_filter.mpr ⟨hm, by simp⟩)
    rcases Nat.lt_or_eq_of_le hle with hl | he
    · exact .inl (by simp [used, hl, hne])
    · simp [Table.badResult, ← he, hne]

theorem exec_isolated (tbl : Table) (pmids : List Nat) (s : Int) (agents : Agents) (ops : List Op) :
    ∃ st, start tbl pmids s = some st ∧
      (Run.Always (step agents) (Sound tbl pmids) st ops ↔
        Run.Guarded (step agents) (Agrees agents) st ops) := by
  obtain ⟨st, hs, hk, hh, hg⟩ := start_eq tbl pmids s
  have hsound : ∀ st, Kept tbl pmids st → (Sound tbl pmids st ↔ Agreed st) := fun st hk =>
    ⟨fun h => ⟨h.shutdown, h.cleanup⟩, fun h => ⟨h.left, h.right, hk.success⟩⟩
  refine ⟨st, hs, Run.always_iff_guarded
    (I := fun st => (Kept tbl pmids st ∧ Heard st) ∧ Agreed st)
    (fun st h => (hsound st h.left.left).mpr h.right) (fun st op h _ => ?_) ⟨⟨hk, hh⟩, hg⟩
    Run.guarded_true⟩
  obtain ⟨st', hs, hk', ha⟩ := step_eq h.left.left h.left.right h.right op
  exact ⟨st', hs, (hsound st' hk'.left).trans ha, fun h => ⟨hk', ha.mpr h⟩⟩

end

def threeAgents : Table where
  agent := [⟨0, true, true, false⟩, ⟨1, false, true, false⟩, ⟨2, false, true, false⟩]
  nodup := by decide

-- The status of the DSO shuts pmcd down, and that of the first daemon disconnects the second one.
theorem exec_refused_down :
    let pmids := [0, 4194304, 8388608]
    let ops := [.store, .store, .store, .wait (.select 2 [1, 2])]
    (∃ st st', start threeAgents pmids 0 = some st ∧
      Run.exec (step ⟨fun _ => -12364, fun _ => 0, fun _ => .error 0 0⟩) st ops = some st' ∧
      st'.down ∧ ¬Sound threeAgents pmids st') ∧
    ∃ st st', start threeAgents pmids 0 = some st ∧
      Run.exec (step ⟨fun _ => 0, fun _ => 0, fun i => if i = 1 then .other 1 else .error 0 0⟩) st
        (ops ++ [.wait .reply, .wait .reply]) = some st' ∧
      2 ∈ st'.accepted ∧ 2 ∈ st'.cleaned ∧ ¬Sound threeAgents pmids st' := by
  constructor
  · refine ⟨_, _, rfl, rfl, rfl, fun h => absurd (h.shutdown rfl) (by decide)⟩
  · refine ⟨_, _, rfl, rfl, by decide, by decide, fun h => ?_⟩
    exact absurd ((h.cleanup 2).mp (by decide)) (by decide)

end Pmcd.Store
