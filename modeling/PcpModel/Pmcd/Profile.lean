import Mathlib.Data.List.Basic
import PcpModel.Library.Run

-- How pmcd passes the profiles of its clients on to the agents (client.c, dopdus.c, dofetch.c).
namespace Pmcd.Profile

open List Option

variable {π : Type}

-- The profiles that have been received since the client has connected are recorded, last one first.
structure ClientInfo (π : Type) where
  connected : Bool
  profile : List (Option π)
  received : List (Nat × π)

-- The profile that the agent has been given last is recorded.
structure AgentInfo (π : Type) where
  profClient : Option Nat
  profIndex : Nat
  given : Option π

structure Server (π : Type) where
  base : Nat
  client : List (ClientInfo π)
  nClients : Nat
  agent : List (AgentInfo π)
  sent : Option (Nat × Nat × Nat)

-- sizeof(ClientInfo)
def clientInfoSize : Nat :=
  48

def minClientsAlloc : Nat :=
  8

namespace ClientInfo

def new : ClientInfo π :=
  ⟨false, [], []⟩

def latest (cp : ClientInfo π) (ctxnum : Nat) : Option π :=
  (cp.received.find? (·.1 = ctxnum)).map (·.2)

-- NULL is `none`.
def get (cp : ClientInfo π) (ctxnum : Nat) : Option π :=
  cp.profile.getD ctxnum none

def grow (profile : List (Option π)) (ctxnum : Nat) : List (Option π) :=
  if ctxnum ≥ profile.length then
    let size := if ctxnum - profile.length < 4 then profile.length + 4 else ctxnum + 1
    profile ++ .replicate (size - profile.length) none
  else
    profile

def setProfile (cp : ClientInfo π) (ctxnum : Nat) (prof : π) : ClientInfo π :=
  { cp with
    profile := (grow cp.profile ctxnum).set ctxnum (some prof)
    received := (ctxnum, prof) :: cp.received
  }

def connect (cp : ClientInfo π) : ClientInfo π :=
  { cp with connected := true, received := [] }

def delete (cp : ClientInfo π) : ClientInfo π :=
  { cp with connected := false, profile := cp.profile.map fun _ => none }

end ClientInfo

namespace Server

variable (s : Server π)

-- &client[k]
def addr (k : Nat) : Nat :=
  s.base + k * clientInfoSize

-- The first element that is not in use, or the one behind the last.
def freeSlot : Nat :=
  (s.client.take s.nClients).findIdx (!·.connected)

def invalidate (p : AgentInfo π → Prop) [DecidablePred p] : Server π :=
  { s with agent := s.agent.map fun ap => if p ap then { ap with profClient := none } else ap }

-- The number of elements that are added to the table when it is full.
def extent : Nat :=
  (if s.client.length = 0 then minClientsAlloc else s.client.length * 2) - s.client.length

def growClients (newBase : Nat) : Server π :=
  { s with base := newBase, client := s.client ++ List.replicate s.extent .new }

def newClient (newBase : Nat) : Server π :=
  let i := s.freeSlot
  let s := if i = s.client.length then s.growClients newBase else s
  { s with nClients := if i ≥ s.nClients then i + 1 else s.nClients }

def lastConnected (client : List (ClientInfo π)) : Nat → Nat
  | 0 => 0
  | n + 1 => if client[n]?.any (·.connected) then n + 1 else lastConnected client n

def deleteClient (k : Nat) : Server π :=
  { s with
    nClients := if k + 1 = s.nClients then lastConnected s.client k else s.nClients
    client := s.client.modify k .delete
  }

-- The connection is refused if `accept` fails.
def acceptNewClient (newBase : Nat) (accepted : Bool) : Server π :=
  let i := s.freeSlot
  let s := s.newClient newBase
  if accepted then
    { s with client := s.client.modify i .connect }
  else
    s.deleteClient i

def cleanupClient (k : Nat) : Server π :=
  (s.deleteClient k).invalidate (·.profClient = some (s.addr k))

def doProfile (k ctxnum : Nat) (prof : π) : Server π :=
  let s := { s with client := s.client.modify k (·.setProfile ctxnum prof) }
  s.invalidate fun ap => ap.profClient = some (s.addr k) ∧ ap.profIndex = ctxnum

-- The profile is sent if need be. The agent may fail to accept it.
def sendProfile (ap : AgentInfo π) (cp : ClientInfo π) (k ctxnum : Nat) (accepted : Bool) :
    Option (AgentInfo π) :=
  if ap.profClient ≠ some (s.addr k) ∨ ctxnum ≠ ap.profIndex then
    if accepted then
      some { profClient := some (s.addr k), profIndex := ctxnum, given := cp.get ctxnum }
    else
      none
  else
    some ap

def sendFetch (k ctxnum i : Nat) (accepted : Bool) : Server π :=
  match s.client[k]?, s.agent[i]? with
  | some cp, some ap =>
    if (cp.get ctxnum).isNone then
      s
    else
      match s.sendProfile ap cp k ctxnum accepted with
      | some ap => { s with agent := s.agent.set i ap, sent := some (i, k, ctxnum) }
      | none => s
  | _, _ => s

-- The agent is a new process then, but the entry in the table of agents is the old one.
def restartAgent (i : Nat) : Server π :=
  { s with agent := s.agent.modify i fun ap => { ap with given := none } }

end Server

inductive Op (π : Type)
  | connect (newBase : Nat) (accepted : Bool) -- `newBase` is what realloc returns
  | profile (k ctxnum : Nat) (prof : π)
  | fetch (k ctxnum i : Nat) (accepted : Bool)
  | disconnect (k : Nat)
  | restart (i : Nat)

namespace Server

def isConnected (s : Server π) (k : Nat) : Bool :=
  s.client[k]?.any (·.connected)

-- Input is read only from clients that are connected.
def step (s : Server π) (op : Op π) : Option (Server π) :=
  let s := { s with sent := none }
  match op with
  | .connect newBase accepted => some (s.acceptNewClient newBase accepted)
  | .profile k ctxnum prof => some (if s.isConnected k then s.doProfile k ctxnum prof else s)
  | .fetch k ctxnum i accepted =>
    some (if s.isConnected k then s.sendFetch k ctxnum i accepted else s)
  | .disconnect k => some (if s.isConnected k then s.cleanupClient k else s)
  | .restart i => some (s.restartAgent i)

def new (n : Nat) : Server π where
  base := 0
  client := []
  nClients := 0
  agent := .replicate n { profClient := none, profIndex := 0, given := none }
  sent := none

-- A profile is forgotten whenever a pointer to its client might come to mean something else.
def Allows (s : Server π) : Op π → Prop
  | .connect newBase _ =>
    s.freeSlot = s.client.length → ∀ ap ∈ s.agent, ∀ p ∈ ap.profClient,
      (newBase = s.base ∧ ∃ k < s.client.length, p = s.addr k) ∨
      ∀ k < s.client.length + s.extent, p ≠ (s.growClients newBase).addr k
  | .restart i => ∀ ap ∈ s.agent[i]?, ap.profClient = none
  | _ => True

instance (s : Server π) (op : Op π) : Decidable (s.Allows op) := by
  cases op <;> unfold Allows <;> infer_instance

-- The agent that has last been sent a fetch has the profile that is to be used for it.
def Fresh (s : Server π) : Prop :=
  ∀ i k c, s.sent = some (i, k, c) → ∃ ap cp, s.agent[i]? = some ap ∧ s.client[k]? = some cp ∧
    ap.given.isSome ∧ ap.given = cp.latest c

end Server

namespace ClientInfo

variable {cp : ClientInfo π}

theorem length_grow (profile : List (Option π)) (c : Nat) : c < (grow profile c).length := by
  unfold grow
  split
  · simp only [length_append, length_replicate]
    split <;> omega
  · omega

theorem getD_grow (profile : List (Option π)) (c c' : Nat) :
    (grow profile c).getD c' none = profile.getD c' none := by
  unfold grow
  split
  · grind
  · rfl

theorem get_setProfile (c c' : Nat) (prof : π) :
    (cp.setProfile c prof).get c' = if c = c' then some prof else cp.get c' := by
  have hl := length_grow cp.profile c
  have hg := getD_grow cp.profile c c'
  simp only [get, setProfile, getD_eq_getElem?_getD, getElem?_set, hl] at hg ⊢
  split
  · rfl
  · exact hg

theorem latest_setProfile (c c' : Nat) (prof : π) :
    (cp.setProfile c prof).latest c' = if c = c' then some prof else cp.latest c' := by
  by_cases h : c = c' <;> simp [latest, setProfile, h]

@[simp]
theorem get_delete (c : Nat) : cp.delete.get c = none := by
  simp only [get, delete, getD_eq_getElem?_getD, getElem?_map]
  cases cp.profile[c]? <;> rfl

@[simp]
theorem get_connect (c : Nat) : cp.connect.get c = cp.get c :=
  rfl

@[simp]
theorem latest_connect (c : Nat) : cp.connect.latest c = none :=
  rfl

@[simp]
theorem get_new (c : Nat) : (new : ClientInfo π).get c = none :=
  rfl

end ClientInfo

namespace Server

variable {s : Server π}

theorem addr_inj (h : s.addr k = s.addr k') : k = k' := by
  simp only [addr, clientInfoSize] at h
  omega

theorem lt_lastConnected {client : List (ClientInfo π)} (h : client[j]? = some cp)
    (hc : cp.connected) (hj : j < n) : j < lastConnected client n := by
  induction n
  case zero => contradiction
  case succ n ih =>
    unfold lastConnected
    split
    · exact hj
    case isFalse hn =>
      have : j ≠ n := by
        rintro rfl
        simp [h, hc] at hn
      exact ih (by omega)

theorem lastConnected_le (client : List (ClientInfo π)) (n : Nat) : lastConnected client n ≤ n := by
  induction n
  case zero => exact Nat.le_refl 0
  case succ n ih =>
    unfold lastConnected
    split <;> omega

structure Valid (s : Server π) : Prop where
  bound : s.nClients ≤ s.client.length
  inUse : ∀ (k : Nat) (cp : ClientInfo π), s.client[k]? = some cp → cp.connected → k < s.nClients
  stored : ∀ (k : Nat) (cp : ClientInfo π), s.client[k]? = some cp →
    ∀ c, cp.get c = if cp.connected then cp.latest c else none
  given : ∀ ap ∈ s.agent, ∀ (k : Nat) (cp : ClientInfo π), s.client[k]? = some cp →
    ap.profClient = some (s.addr k) → cp.connected ∧ ap.given = cp.get ap.profIndex

theorem freeSlot_le (s : Server π) : s.freeSlot ≤ s.nClients :=
  Nat.le_trans findIdx_le_length (length_take_le ..)

theorem Valid.freeSlot_free (h : s.Valid) (hc : s.client[s.freeSlot]? = some cp) :
    cp.connected = false := by
  by_contra hn
  have hu := h.inUse _ _ hc (by simpa using hn)
  have ht : (s.client.take s.nClients)[s.freeSlot]? = some cp := by
    rw [List.getElem?_take_of_lt hu, hc]
  obtain ⟨hl, he⟩ := List.getElem?_eq_some_iff.mp ht
  have hf := List.findIdx_getElem (w := hl)
  rw [← he] at hn
  exact hn (by simpa [freeSlot] using hf)

theorem mem_invalidate [DecidablePred p] (h : ap ∈ (s.invalidate p).agent)
    (hp : ap.profClient.isSome) : ap ∈ s.agent ∧ ¬p ap := by
  obtain ⟨ap', hm, rfl⟩ := mem_map.mp h
  split at hp
  · contradiction
  case isFalse hn => simpa [hn] using hm

namespace Valid

theorem forget (h : s.Valid) : { s with sent := none }.Valid :=
  ⟨h.bound, h.inUse, h.stored, h.given⟩

theorem invalidate (h : s.Valid) (p : AgentInfo π → Prop) [DecidablePred p] :
    (s.invalidate p).Valid where
  bound := h.bound
  inUse := h.inUse
  stored := h.stored
  given := fun ap ha k cp hk hp =>
    h.given ap (mem_invalidate ha (isSome_of_eq_some hp)).left k cp hk hp

-- A client may be changed if the profile that is remembered by an agent stays what it is.
theorem modify (h : s.Valid) (hb : n ≤ s.client.length)
    (hu : ∀ (j : Nat) (cp : ClientInfo π), s.client[j]? = some cp → j ≠ k → cp.connected → j < n)
    (hk : ∀ (cp : ClientInfo π), s.client[k]? = some cp → (f cp).connected → k < n)
    (hs : ∀ (cp : ClientInfo π), s.client[k]? = some cp →
      ∀ c, (f cp).get c = if (f cp).connected then (f cp).latest c else none)
    (hg : ∀ (cp : ClientInfo π), s.client[k]? = some cp → cp.connected →
      ∀ ap ∈ s.agent, ap.profClient = some (s.addr k) →
        (f cp).connected ∧ (f cp).get ap.profIndex = cp.get ap.profIndex) :
    { s with nClients := n, client := s.client.modify k f }.Valid where
  bound := by simpa using hb
  inUse := by
    intro j cp hj hc
    rw [getElem?_modify] at hj
    split at hj <;> grind
  stored := by
    intro j cp hj
    rw [getElem?_modify] at hj
    split at hj
    · obtain ⟨cp, hj, rfl⟩ := map_eq_some_iff.mp hj
      grind
    · have := h.stored j
      grind
  given := by
    intro ap ha j cp hj hp
    rw [getElem?_modify] at hj
    have := h.given ap ha j
    split at hj <;> grind [addr]

theorem growClients (h : s.Valid) (hf : s.freeSlot = s.client.length)
    (ha : s.Allows (.connect newBase a)) : (s.growClients newBase).Valid where
  bound := by simpa [Server.growClients] using Nat.le_add_right_of_le h.bound
  inUse := by
    intro k cp hk hc
    have := h.inUse k cp
    unfold Server.growClients at hk ⊢
    grind [ClientInfo.new]
  stored := by
    intro k cp hk
    unfold Server.growClients at hk
    rw [List.getElem?_append] at hk
    split at hk
    · exact h.stored k cp hk
    · obtain rfl := List.eq_of_mem_replicate (List.mem_of_getElem? hk)
      exact ClientInfo.get_new
  given := by
    intro ap hm k cp hk hp
    have hl : k < s.client.length + s.extent := by
      simpa [Server.growClients] using (List.getElem?_eq_some_iff.mp hk).choose
    rcases ha hf ap hm _ hp with ⟨rfl, j, hj, he⟩ | hn
    · obtain rfl := addr_inj he
      rw [Server.growClients, List.getElem?_append_left hj] at hk
      exact h.given ap hm k cp hk hp
    · exact absurd rfl (hn k hl)

theorem reserve (h : s.Valid) (hi : i < s.client.length) :
    { s with nClients := if i ≥ s.nClients then i + 1 else s.nClients }.Valid where
  bound := by
    have := h.bound
    show ite .. ≤ s.client.length
    split <;> omega
  inUse := by
    intro k cp hk hc
    have := h.inUse k cp hk hc
    show k < ite ..
    split <;> omega
  stored := h.stored
  given := h.given

theorem freeSlot_lt (h : s.Valid) (newBase : Nat) :
    s.freeSlot < (s.newClient newBase).client.length := by
  have := s.freeSlot_le
  have := h.bound
  unfold Server.newClient Server.growClients extent minClientsAlloc
  grind

theorem lt_nClients_newClient : s.freeSlot < (s.newClient newBase).nClients := by
  simp only [Server.newClient]
  split <;> split <;> omega

theorem newClient (h : s.Valid) (ha : s.Allows (.connect newBase a)) :
    (s.newClient newBase).Valid := by
  have hl := h.freeSlot_lt newBase
  simp only [Server.newClient] at hl ⊢
  split at hl <;> rename_i hf
  · simpa only [hf, if_true] using (h.growClients hf ha).reserve hl
  · simpa only [hf, if_false] using h.reserve hl

theorem deleteClient (h : s.Valid)
    (hn : ∀ ap ∈ s.agent, k < s.client.length → ap.profClient ≠ some (s.addr k)) :
    (s.deleteClient k).Valid := by
  have hb := h.bound
  have hl := lastConnected_le s.client k
  refine h.modify (by split <;> omega) ?_ (by simp [ClientInfo.delete]) ?_ ?_
  · intro j cp hj hk hc
    have := h.inUse j cp hj hc
    have := lt_lastConnected (n := k) hj hc
    split <;> omega
  · intro cp _ c
    exact ClientInfo.get_delete c
  · intro cp hk _ ap ha hp
    exact absurd hp (hn ap ha (List.getElem?_eq_some_iff.mp hk).choose)

theorem acceptNewClient (h : s.Valid) (ha : s.Allows (.connect newBase a)) :
    (s.acceptNewClient newBase a).Valid := by
  have hv := h.newClient ha
  have hf : ∀ cp, (s.newClient newBase).client[s.freeSlot]? = some cp → cp.connected = false := by
    intro cp hc
    have hf : s.client[s.freeSlot]? = some cp → cp.connected = false := h.freeSlot_free
    unfold Server.newClient Server.growClients at hc
    grind [ClientInfo.new]
  unfold Server.acceptNewClient
  split
  · refine hv.modify hv.bound (fun j cp hj _ hc => hv.inUse j cp hj hc) ?_ ?_ ?_
    · intro _ _ _
      exact lt_nClients_newClient
    · intro cp hc c
      have := hv.stored _ cp hc c
      simpa [hf cp hc] using this
    · intro cp hc ht
      simp [hf cp hc] at ht
  · refine hv.deleteClient fun ap hm hk hp => ?_
    have hc := getElem?_eq_getElem hk
    have := hv.given ap hm _ _ hc hp
    simp [hf _ hc] at this

theorem cleanupClient (h : s.Valid) (k : Nat) : (s.cleanupClient k).Valid :=
  h.invalidate (·.profClient = some (s.addr k))
    |>.deleteClient fun _ ha _ hp => (mem_invalidate ha (isSome_of_eq_some hp)).right hp

theorem doProfile (h : s.Valid) (hk : s.isConnected k) (c : Nat) (prof : π) :
    (s.doProfile k c prof).Valid := by
  refine (h.invalidate fun ap => ap.profClient = some (s.addr k) ∧ ap.profIndex = c).modify
    h.bound (fun j cp hj _ hc => h.inUse j cp hj hc) (fun cp hj hc => h.inUse k cp hj hc) ?_ ?_
  · intro cp hj c'
    have hs := h.stored k cp hj c'
    have hc : cp.connected := by
      simpa [isConnected, show s.client[k]? = some cp from hj] using hk
    rw [ClientInfo.get_setProfile, ClientInfo.latest_setProfile, hs]
    simp [ClientInfo.setProfile, hc]
  · intro cp _ hc ap hm hp
    have hn := (mem_invalidate hm (isSome_of_eq_some hp)).right
    refine ⟨hc, ?_⟩
    rw [ClientInfo.get_setProfile, if_neg fun he => hn ⟨hp, he.symm⟩]

theorem sendProfile (h : s.Valid) (hk : s.client[k]? = some cp) (hi : ap ∈ s.agent)
    (hp : s.sendProfile ap cp k c a = some ap') :
    ap' = { profClient := some (s.addr k), profIndex := c, given := cp.get c } := by
  unfold Server.sendProfile at hp
  split at hp
  · split at hp
    · exact (some.inj hp).symm
    · contradiction
  case isFalse hn =>
    obtain ⟨hc, rfl⟩ := not_or.mp hn |>.imp not_not.mp not_not.mp
    obtain rfl := some.inj hp
    simp [← (h.given ap hi k cp hk hc).right, ← hc]

theorem setAgent {cp : ClientInfo π} (h : s.Valid) (hk : s.client[k]? = some cp)
    (hc : cp.connected) :
    { s with agent := s.agent.set i ⟨some (s.addr k), c, cp.get c⟩, sent := o }.Valid where
  bound := h.bound
  inUse := h.inUse
  stored := h.stored
  given := by
    intro ap hm j cp' hj hp
    rcases mem_or_eq_of_mem_set hm with hm | rfl
    · exact h.given ap hm j cp' hj hp
    · obtain rfl := addr_inj (some.inj hp)
      obtain rfl := some.inj (hk.symm.trans hj)
      exact ⟨hc, rfl⟩

theorem sendFetch (h : s.Valid) (hs : s.sent = none) (hc : s.isConnected k) (c i : Nat) (a : Bool) :
    (s.sendFetch k c i a).Valid ∧ (s.sendFetch k c i a).Fresh := by
  have hn : s.Valid ∧ s.Fresh := ⟨h, fun _ _ _ h => by simp [hs] at h⟩
  unfold Server.sendFetch
  split
  case h_2 => exact hn
  case h_1 cp ap hk hi =>
    split
    · exact hn
    case isFalse hg =>
      split
      case h_2 => exact hn
      case h_1 ap' hp =>
        have hc : cp.connected := by simpa [isConnected, hk] using hc
        obtain rfl := h.sendProfile hk (List.mem_of_getElem? hi) hp
        refine ⟨h.setAgent hk hc, ?_⟩
        rintro _ _ _ ⟨⟩
        refine ⟨_, cp, List.getElem?_set_self (List.getElem?_eq_some_iff.mp hi).choose, hk, ?_, ?_⟩
        · simpa [isSome_iff_ne_none] using hg
        · simp [h.stored k cp hk c, hc]

theorem restartAgent (h : s.Valid) (ha : s.Allows (.restart i)) : (s.restartAgent i).Valid where
  bound := h.bound
  inUse := h.inUse
  stored := h.stored
  given := by
    intro ap hm k cp hk hp
    obtain ⟨j, hj⟩ := mem_iff_getElem?.mp hm
    rw [Server.restartAgent, getElem?_modify] at hj
    split at hj
    case isTrue he =>
      obtain ⟨ap', hj', rfl⟩ := map_eq_some_iff.mp hj
      simp [ha ap' (he ▸ hj')] at hp
    case isFalse he =>
      exact h.given ap (mem_of_getElem? (by simpa using hj)) k cp hk hp

theorem sent_acceptNewClient (s : Server π) (newBase : Nat) (a : Bool) :
    (s.acceptNewClient newBase a).sent = s.sent := by
  simp only [Server.acceptNewClient, Server.newClient]
  split <;> split <;> rfl

theorem fresh (hs : s.sent = none) : s.Fresh := by
  intro _ _ _ h
  simp [hs] at h

theorem step (h : s.Valid) (ha : s.Allows op) :
    ∃ s', s.step op = some s' ∧ s'.Valid ∧ s'.Fresh := by
  have hf := h.forget
  cases op
  case connect newBase a =>
    exact ⟨_, rfl, hf.acceptNewClient ha, fresh (sent_acceptNewClient ..)⟩
  case profile k c prof =>
    refine ⟨_, rfl, ?_⟩
    split
    case isTrue hk => exact ⟨hf.doProfile hk c prof, fresh rfl⟩
    case isFalse => exact ⟨hf, fresh rfl⟩
  case fetch k c i a =>
    refine ⟨_, rfl, ?_⟩
    split
    case isTrue hk => exact hf.sendFetch rfl hk c i a
    case isFalse => exact ⟨hf, fresh rfl⟩
  case disconnect k =>
    refine ⟨_, rfl, ?_⟩
    split
    case isTrue => exact ⟨hf.cleanupClient k, fresh rfl⟩
    case isFalse => exact ⟨hf, fresh rfl⟩
  case restart i =>
    exact ⟨_, rfl, hf.restartAgent ha, fresh rfl⟩

theorem init (n : Nat) : (new n : Server π).Valid where
  bound := Nat.le_refl 0
  inUse := by simp [new]
  stored := by simp [new]
  given := by simp [new]

end Valid

-- Whenever a fetch is sent, the agent has the profile that has been received last.
theorem exec_fresh (hg : Run.Guarded step Allows (new n : Server π) ops) :
    Run.Always step Fresh (new n) ops :=
  Run.always_invariant (P := Fresh) (I := fun s => s.Valid ∧ s.Fresh) (fun _ h => h.right)
    (fun _ _ h => h.left.step) ⟨.init n, Valid.fresh rfl⟩ hg

-- The second client takes over the slot of the first one, and the table is moved with it.
theorem exec_fresh_reused :
    let ops : List (Op Nat) :=
      [.connect 4096 true, .profile 0 0 1, .fetch 0 0 0 true, .disconnect 0] ++
      replicate 8 (.connect 4096 true) ++ [.profile 0 0 2, .fetch 0 0 0 true] ++
      [.connect 8192 true, .fetch 0 0 0 true, .profile 0 0 3, .fetch 0 0 0 true]
    Run.Always step Fresh (new 1) ops :=
  exec_fresh (by decide +kernel)

-- The table of clients is moved away and back, and a profile is received in between.
theorem exec_moved_not_fresh :
    let ops : List (Op Nat) :=
      replicate 8 (.connect 4096 true) ++ [.profile 0 0 1, .fetch 0 0 0 true] ++
      [.connect 8192 true, .profile 0 0 2] ++ replicate 8 (.connect 4096 true) ++
      [.fetch 0 0 0 true]
    ∃ s, Run.exec step (new 1) ops = some s ∧ ¬s.Fresh := by
  intro ops
  obtain ⟨s, hs, hn⟩ := map_eq_some_iff.mp <|
    show (Run.exec step (new 1) ops).map (fun s => (s.sent, s.agent[0]?.map (·.given),
      s.client[0]?.map (·.latest 0))) = some (some (0, 0, 0), some (some 1), some (some 2)) by
        decide +kernel
  refine ⟨s, hs, fun hf => ?_⟩
  simp only [Prod.mk.injEq, map_eq_some_iff] at hn
  obtain ⟨h₁, ⟨ap', h₂, h₃⟩, ⟨cp', h₄, h₅⟩⟩ := hn
  obtain ⟨ap, cp, h₆, h₇, -, h₈⟩ := hf _ _ _ h₁
  simp_all

end Server

end Pmcd.Profile
