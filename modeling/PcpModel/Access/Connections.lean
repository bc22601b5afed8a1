import Mathlib.Data.List.Induction
import Mathlib.Data.List.Perm.Basic
import PcpModel.Access.Client

-- The counts of connections over the lifetime of pmcd (pmcd.c and access.c).
namespace Access

open List HostInfo Pcp

-- A client that is cleaned up with such a status has not contributed to the counts.
def Refused (sts : Int) : Prop :=
  sts = pmErrPermission ∨ sts = pmErrConnlimit

instance : Decidable (Refused sts) :=
  inferInstanceAs (Decidable (_ ∨ _))

abbrev Status :=
  { sts : Int // ¬Refused sts }

structure Server where
  hosts : List HostInfo
  client : List SockAddr

-- A client connects, and `s` is the status of sending it an acknowledgement, or it is cleaned up.
inductive Event
  | connect (addr : SockAddr) (s : Status)
  | cleanup (i : Nat) (sts : Status)

namespace Server

variable (net : Network) (allOps : Ops)

def cleanupClient (srv : Server) (i : Nat) (sts : Int) : Option Server :=
  srv.client[i]?.map fun addr =>
    { hosts := if Refused sts then srv.hosts else accDelClient net srv.hosts addr
      client := srv.client.eraseIdx i }

def checkNewClient (srv : Server) (addr : SockAddr) (s : Int) : Option Server :=
  let r := accAddClient net allOps srv.hosts addr
  let accepted := r.sts ≥ 0 ∧ s ≥ 0
  let sts := if r.sts ≥ 0 ∧ s < 0 then s else r.sts
  let srv' : Server := { hosts := r.hosts, client := srv.client ++ [addr] }
  if accepted then some srv' else srv'.cleanupClient net srv.client.length sts

def step (srv : Server) : Event → Option Server
  | .connect addr s => srv.checkNewClient net allOps addr s
  | .cleanup i sts => srv.cleanupClient net i sts

end Server

def Network.clientIds (net : Network) (addr : SockAddr) : List SockAddr :=
  match net.getClientIds addr with
  | .error _ => []
  | .ok ids => ids

section Limits

variable (hosts : List HostInfo) (ids : List SockAddr)

-- What is denied after the addresses of a client.
def denied : Ops :=
  ids.foldl (fun ops id => hosts.foldr (fun hp ops =>
    if hp.Matches id then (ops &&& ~~~hp.specOps) ||| hp.denyOps else ops) ops) 0

-- The most specific entry for the last address that has one.
def limiting : Option HostInfo :=
  ids.foldl (fun l id => (hosts.find? (·.Matches id)).or l) none

variable (allOps : Ops)

-- The addresses before are counted when an address is looked at.
def Refuses (k : Nat) : Prop :=
  denied hosts (ids.take (k + 1)) = allOps ∨ ∃ hp ∈ limiting hosts (ids.take (k + 1)),
    hp.maxcons ≠ 0 ∧ hp.curcons + (ids.take k).countP (hp.Matches ·) ≥ hp.maxcons

instance : DecidablePred (Refuses hosts ids allOps) :=
  fun _ => inferInstanceAs (Decidable (_ ∨ _))

-- No address is counted before one that is refused.
def Clean : Prop :=
  ∀ k < ids.length, Refuses hosts ids allOps k ∧ (∀ j < k, ¬Refuses hosts ids allOps j) →
    ∀ id ∈ ids.take k, ∀ hp ∈ hosts, hp.maxcons ≠ 0 → ¬hp.Matches id

-- The entries have room for all addresses, if none is refused.
def Roomy : Prop :=
  (∀ k < ids.length, ¬Refuses hosts ids allOps k) →
    ∀ id ∈ ids, ∀ hp ∈ hosts.find? (·.Matches id), hp.maxcons ≠ 0 →
      hp.curcons + ids.countP (hp.Matches ·) ≤ hp.maxcons

instance : Decidable (Clean hosts ids allOps) := by
  unfold Clean
  infer_instance

instance : Decidable (Roomy hosts ids allOps) := by
  unfold Roomy
  infer_instance

end Limits

def HostInfo.countAll (n : Int) (ids : List SockAddr) (hp : HostInfo) : HostInfo :=
  if hp.maxcons ≠ 0 then { hp with curcons := hp.curcons + n * ids.countP (hp.Matches ·) } else hp

namespace Server

variable (net : Network) (allOps : Ops) (srv : Server)

-- Every entry with a limit has the number of the addresses of connected clients that match it.
def Counted : Prop :=
  ∀ hp ∈ srv.hosts, hp.maxcons ≠ 0 →
    hp.curcons = (srv.client.flatMap net.clientIds).countP (hp.Matches ·)

def Exact : Event → Prop
  | .connect addr _ =>
    let r := accAddClient net allOps srv.hosts addr
    (r.sts < 0 → r.hosts = srv.hosts) ∧
    (r.sts ≥ 0 → ∀ id ∈ net.clientIds addr, ∀ hp ∈ r.hosts.find? (·.Matches id),
      hp.maxcons ≠ 0 → 0 ≤ hp.curcons ∧ hp.curcons ≤ hp.maxcons)
  | .cleanup _ _ => True

def Correct (e : Event) : Prop :=
  srv.Exact net allOps e ∧ ∀ srv', srv.step net allOps e = some srv' → srv'.Counted net

def Allows : Event → Prop
  | .connect addr _ =>
    Clean srv.hosts (net.clientIds addr) allOps ∧ Roomy srv.hosts (net.clientIds addr) allOps
  | .cleanup _ _ => True

instance : DecidablePred (srv.Allows net allOps)
  | .connect .. => inferInstanceAs (Decidable (_ ∧ _))
  | .cleanup .. => .isTrue trivial

end Server

namespace HostInfo

variable {hp : HostInfo} {id : SockAddr}

@[simp]
theorem count_toStatement : (hp.count n id).toStatement = hp.toStatement := by
  unfold count
  split <;> rfl

@[simp]
theorem count_maxcons : (hp.count n id).maxcons = hp.maxcons := by
  unfold count
  split <;> rfl

@[simp]
theorem countAll_toStatement : (hp.countAll n ids).toStatement = hp.toStatement := by
  unfold countAll
  split <;> rfl

@[simp]
theorem countAll_maxcons : (hp.countAll n ids).maxcons = hp.maxcons := by
  unfold countAll
  split <;> rfl

theorem countAll_curcons (h : hp.maxcons ≠ 0) :
    (hp.countAll n ids).curcons = hp.curcons + n * ids.countP (hp.Matches ·) := by
  simp [countAll, h]

@[simp]
theorem map_countAll_nil {hosts : List HostInfo} : hosts.map (.countAll n []) = hosts := by
  have h : countAll n [] = fun hp => hp := by simp [funext_iff, countAll]
  simp [h]

theorem countAll_unlimited (h : hp.maxcons = 0) : hp.countAll n ids = hp := by
  simp [countAll, h]

theorem eq_of_curcons (hs : hp.toStatement = hp'.toStatement) (hm : hp.maxcons = hp'.maxcons)
    (hc : hp.curcons = hp'.curcons) : hp = hp' := by
  cases hp
  simp_all

theorem countAll_concat : hp.countAll n (ids ++ [id]) = (hp.countAll n ids).count n id := by
  refine eq_of_curcons (by simp) (by simp) ?_
  by_cases h₀ : hp.maxcons = 0
  · simp [countAll, count, h₀]
  · by_cases hm : hp.Matches id
    · simp [countAll_curcons h₀, count, hm, h₀, Int.mul_add]
      omega
    · simp [countAll_curcons h₀, count, hm]

theorem countAll_eq_self (h : hp.maxcons ≠ 0) :
    hp.countAll 1 ids = hp ↔ ∀ id ∈ ids, ¬hp.Matches id := by
  have hc : hp.countAll 1 ids = hp ↔ ids.countP (hp.Matches ·) = 0 := by
    refine ⟨fun he => ?_, fun he => eq_of_curcons (by simp) (by simp) ?_⟩
    · have hc : (hp.countAll 1 ids).curcons = _ := countAll_curcons h
      rw [he] at hc
      omega
    · simp [countAll_curcons h, he]
  simp [hc]

theorem countAll_neg : (hp.countAll 1 ids).countAll (-1) ids = hp := by
  by_cases h₀ : hp.maxcons = 0
  · simp [countAll_unlimited, h₀]
  · refine eq_of_curcons (by simp) (by simp) ?_
    rw [countAll_curcons (by simpa using h₀), countAll_curcons h₀, countAll_toStatement]
    omega

theorem map_countAll_neg {hosts : List HostInfo} :
    (hosts.map (.countAll 1 ids)).map (.countAll (-1) ids) = hosts := by
  simp [Function.comp_def, countAll_neg]

end HostInfo

variable {net : Network} {allOps : Ops} {hosts : List HostInfo} {ids : List SockAddr}
    {id : SockAddr}

theorem foldl_count : ids.foldl (fun hosts id => hosts.map (count n id)) hosts =
    hosts.map (.countAll n ids) := by
  induction ids using List.reverseRecOn
  case nil => simp
  case append_singleton ids id hi => simp [hi, countAll_concat]

theorem accDelClient_eq :
    accDelClient net hosts addr = hosts.map (.countAll (-1) <| net.clientIds addr) := by
  cases h : net.getClientIds addr <;> simp [accDelClient, Network.clientIds, h, foldl_count]

theorem scan_map : scan id (hosts.map (.countAll n ids)) i acc = scan id hosts i acc := by
  induction hosts generalizing i
  case nil => rfl
  case cons hp hosts hi => simp [scan, hi]

theorem scan_fst : (scan id hosts i acc).fst = hosts.foldr (fun hp ops =>
    if hp.Matches id then (ops &&& ~~~hp.specOps) ||| hp.denyOps else ops) acc.fst := by
  induction hosts generalizing i
  case nil => rfl
  case cons hp hosts hi =>
    simp only [scan, foldr_cons, ← hi (i := i + 1)]
    split <;> rfl

theorem scan_snd : (scan id hosts i acc).snd =
    ((hosts.findIdx? (·.Matches id)).map (· + i)).or acc.snd := by
  induction hosts generalizing i
  case nil => rfl
  case cons hp hosts hi =>
    simp only [scan, findIdx?_cons]
    by_cases hm : hp.Matches id
    · simp [hm]
    · simp [hm, hi, Function.comp_def, Nat.add_left_comm, Nat.add_comm]

-- What is carried over from one address to the next one.
structure Carries (hosts : List HostInfo) (pre : List SockAddr) (acc : Ops × Option Nat) :
    Prop where
  denied : acc.fst = denied hosts pre
  limiting : acc.snd.bind (hosts[·]?) = limiting hosts pre

theorem Carries.scan (h : Carries hosts pre acc) (id : SockAddr) :
    Carries hosts (pre ++ [id]) (scan id hosts 0 acc) where
  denied := by simp [scan_fst, Access.denied, h.denied]
  limiting := by
    rw [Access.limiting, foldl_concat, ← Access.limiting, ← h.limiting, scan_snd,
      find?_eq_bind_findIdx?_getElem?]
    cases hf : hosts.findIdx? (·.Matches id)
    case none => simp
    case some i =>
      have hi := (findIdx?_eq_some_iff_getElem.mp hf).choose
      simp [hi]

theorem check_eq (h : Carries hosts pre acc) (allOps : Ops) (id : SockAddr) (ids : List SockAddr) :
    let r := check allOps id acc (hosts.map (countAll 1 pre))
    (r = .ok (scan id hosts 0 acc) ∧ ¬Refuses hosts (pre ++ id :: ids) allOps pre.length) ∨
      (∃ e, r = .error e ∧ Refused e.fst) ∧ Refuses hosts (pre ++ id :: ids) allOps pre.length := by
  intro r
  have hs := h.scan id
  have hl : (∃ hp ∈ (scan id hosts 0 acc).snd.bind ((hosts.map (countAll 1 pre))[·]?),
      Full hp) ↔ ∃ hp ∈ limiting hosts (pre ++ [id]),
        hp.maxcons ≠ 0 ∧ hp.curcons + pre.countP (hp.Matches ·) ≥ hp.maxcons := by
    rw [← hs.limiting]
    cases hi : (scan id hosts 0 acc).snd
    case none => simp
    case some i =>
      cases hg : hosts[i]?
      case none => simp [hg]
      case some hp =>
        by_cases h₀ : hp.maxcons = 0
        · simp [hg, Full, h₀]
        · simp [hg, Full, h₀, countAll_curcons h₀]
  have ht : (pre ++ id :: ids).take (pre.length + 1) = pre ++ [id] := by
    rw [append_cons]
    exact take_left' (by simp)
  have ht' : (pre ++ id :: ids).take pre.length = pre := by simp
  rw [Refuses, ht, ht', ← hs.denied, ← hl]
  simp only [r, check, scan_map]
  split
  case isTrue hd => exact .inr ⟨⟨_, rfl, .inl rfl⟩, .inl hd⟩
  case isFalse hd =>
    split
    case isTrue hf => exact .inr ⟨⟨_, rfl, .inr rfl⟩, .inr hf⟩
    case isFalse hf => exact .inl ⟨rfl, not_or.mpr ⟨hd, hf⟩⟩

theorem admitAll_cases (h : Carries hosts pre acc) (allOps : Ops) (ids : List SockAddr) :
    let r := admitAll allOps ids acc (hosts.map (countAll 1 pre))
    (r.sts = 0 ∧ r.hosts = hosts.map (countAll 1 (pre ++ ids)) ∧
      ∀ k < (pre ++ ids).length, pre.length ≤ k → ¬Refuses hosts (pre ++ ids) allOps k) ∨
    ∃ k < (pre ++ ids).length, Refuses hosts (pre ++ ids) allOps k ∧
      (∀ j < k, pre.length ≤ j → ¬Refuses hosts (pre ++ ids) allOps j) ∧ Refused r.sts ∧
      r.hosts = hosts.map (countAll 1 ((pre ++ ids).take k)) := by
  intro r
  induction ids generalizing pre acc
  case nil => exact .inl ⟨rfl, by simp [r, admitAll], by simp; omega⟩
  case cons id ids hi =>
    simp only [r, admitAll]
    obtain ⟨hc, hn⟩ | ⟨⟨e, hc, he⟩, hr⟩ := check_eq h allOps id ids
    case inl =>
      have hm : (hosts.map (countAll 1 pre)).map (count 1 id) =
          hosts.map (countAll 1 (pre ++ [id])) := by simp [countAll_concat]
      rw [hc]
      simp only [hm]
      have hi := hi (h.scan id)
      simp only [append_assoc, singleton_append] at hi
      have hj : ∀ j, pre.length ≤ j → ((pre ++ [id]).length ≤ j →
          ¬Refuses hosts (pre ++ id :: ids) allOps j) →
            ¬Refuses hosts (pre ++ id :: ids) allOps j := by
        intro j hj h
        by_cases he : j = pre.length
        · exact he ▸ hn
        · exact h (by simp; omega)
      rcases hi with ⟨hs, hh, hk⟩ | ⟨k, hk, hr, hf, hs⟩
      · exact .inl ⟨hs, hh, fun k hl hp => hj k hp (hk k hl)⟩
      · exact .inr ⟨k, hk, hr, fun j hl hp => hj j hp (hf j hl), hs⟩
    case inr =>
      rw [hc]
      refine .inr ⟨pre.length, by simp, hr, fun j hj hp => absurd hj (by omega), he, by simp⟩

theorem getClientIds_refused (h : net.getClientIds addr = .error sts) : Refused sts := by
  unfold Network.getClientIds at h
  split at h
  · split at h <;> cases h <;> exact .inl rfl
  · contradiction

variable (net allOps hosts addr) in
theorem accAddClient_cases :
    let r := accAddClient net allOps hosts addr
    let ids := net.clientIds addr
    (r.sts = 0 ∧ r.hosts = hosts.map (countAll 1 ids) ∧
      (hosts = [] ∨ ∀ k < ids.length, ¬Refuses hosts ids allOps k)) ∨
    (Refused r.sts ∧ r.hosts = hosts ∧ ids = []) ∨
    (Refused r.sts ∧ ∃ k < ids.length, Refuses hosts ids allOps k ∧
      (∀ j < k, ¬Refuses hosts ids allOps j) ∧ r.hosts = hosts.map (countAll 1 (ids.take k))) := by
  intro r ids
  cases h : net.getClientIds addr
  case error e =>
    have hr : r = ⟨e, none, hosts⟩ := by simp [r, accAddClient, h]
    rw [hr]
    exact .inr (.inl ⟨getClientIds_refused h, rfl, by simp [ids, Network.clientIds, h]⟩)
  case ok ids' =>
    obtain rfl : ids = ids' := by simp [ids, Network.clientIds, h]
    by_cases hn : hosts = []
    · exact .inl (by simp [r, accAddClient, h, hn])
    · have hr : r = admitAll allOps ids (0, none) hosts := by simp [r, accAddClient, h, hn]
      have h₀ : Carries hosts [] (0, none) := ⟨rfl, rfl⟩
      have hc := admitAll_cases h₀ allOps ids
      simp only [map_countAll_nil, nil_append, length_nil, Nat.zero_le, forall_const] at hc
      rw [hr]
      obtain ⟨hs, hh, hk⟩ | ⟨k, hk, hk', hj, hs, hh⟩ := hc
      · exact .inl ⟨hs, hh, .inr hk⟩
      · exact .inr (.inr ⟨hs, k, hk, hk', hj, hh⟩)

theorem Refused.neg (h : Refused sts) : sts < 0 := by
  rcases h with rfl | rfl <;> decide

namespace Server

variable {srv srv' : Server}

theorem cleanupClient_append {client : List SockAddr} :
    cleanupClient net ⟨hosts, client ++ [addr]⟩ client.length sts =
      some ⟨if Refused sts then hosts else accDelClient net hosts addr, client⟩ := by
  simp [cleanupClient, eraseIdx_append_of_length_le]

theorem checkNewClient_cases (s : Status) (h : srv.checkNewClient net allOps addr s = some srv') :
    let r := accAddClient net allOps srv.hosts addr
    (r.sts < 0 ∧ srv' = { srv with hosts := r.hosts }) ∨
    (r.sts = 0 ∧ r.hosts = srv.hosts.map (.countAll 1 <| net.clientIds addr) ∧
      (srv' = { hosts := r.hosts, client := srv.client ++ [addr] } ∨ srv' = srv)) := by
  simp only [checkNewClient, cleanupClient_append] at h
  have hc := accAddClient_cases net allOps srv.hosts addr
  generalize accAddClient net allOps srv.hosts addr = r at h hc
  replace hc := hc.imp_right fun hc => hc.elim And.left And.left
  rcases hc with ⟨h₀, hr, -⟩ | hf
  · refine .inr ⟨h₀, hr, ?_⟩
    by_cases h₁ : s.val ≥ 0
    · simp only [h₀, h₁, Int.le_refl, true_and] at h
      exact .inl (Option.some_inj.mp h).symm
    · have h₁' : s.val < 0 := by omega
      simp only [h₀, h₁, h₁', Int.le_refl, true_and, if_true,
        s.property] at h
      have hd : accDelClient net r.hosts addr = srv.hosts := by
        rw [accDelClient_eq, hr, map_countAll_neg]
      rw [hd] at h
      exact .inr (Option.some_inj.mp h).symm
  · have hn : ¬0 ≤ r.sts := Int.not_le.mpr hf.neg
    simp only [hn, false_and, if_false, hf] at h
    exact .inl ⟨hf.neg, (Option.some_inj.mp h).symm⟩

theorem Counted.admitted (h : srv.Counted net) :
    Counted net ⟨srv.hosts.map (.countAll 1 <| net.clientIds addr), srv.client ++ [addr]⟩ := by
  intro hp' hm' h₀
  obtain ⟨hp, hm, rfl⟩ := mem_map.mp hm'
  rw [countAll_maxcons] at h₀
  simp only [countAll_curcons h₀, h hp hm h₀]
  simp

theorem Counted.cleanup (h : srv.Counted net) (hi : srv.client[i]? = some addr) :
    Counted net ⟨srv.hosts.map (.countAll (-1) <| net.clientIds addr), srv.client.eraseIdx i⟩ := by
  intro hp' hm' h₀
  obtain ⟨hp, hm, rfl⟩ := List.mem_map.mp hm'
  rw [countAll_maxcons] at h₀
  obtain ⟨hlt, rfl⟩ := List.getElem?_eq_some_iff.mp hi
  have hperm := (List.getElem_cons_eraseIdx_perm hlt).flatMap_right net.clientIds
  have hc := hperm.countP_eq (hp.Matches ·)
  simp only [List.flatMap_cons, List.countP_append] at hc
  simp only [countAll_curcons h₀, countAll_toStatement, h hp hm h₀]
  omega

theorem cleanupClient_counted (sts : Status) (h : srv.Counted net)
    (hs : srv.cleanupClient net i sts = some srv') : srv'.Counted net := by
  obtain ⟨addr, hi, rfl⟩ := Option.map_eq_some_iff.mp hs
  simp only [sts.property, accDelClient_eq]
  exact h.cleanup hi

theorem map_countAll_eq : hosts.map (countAll 1 ids) = hosts ↔
    ∀ id ∈ ids, ∀ hp ∈ hosts, hp.maxcons ≠ 0 → ¬hp.Matches id := by
  have hm : hosts.map (countAll 1 ids) = hosts ↔ ∀ hp ∈ hosts, hp.countAll 1 ids = hp := by
    simpa using @map_inj_left _ _ hosts (countAll 1 ids) fun hp => hp
  rw [hm]
  refine ⟨fun h id hi hp hp' h₀ => (countAll_eq_self h₀).mp (h hp hp') id hi, fun h hp hp' => ?_⟩
  by_cases h₀ : hp.maxcons = 0
  · exact countAll_unlimited h₀
  · exact (countAll_eq_self h₀).mpr fun id hi => h id hi hp hp' h₀

theorem limited_iff (h : srv.Counted net) (id : SockAddr) :
    (∀ hp ∈ (srv.hosts.map (countAll 1 ids)).find? (·.Matches id),
      hp.maxcons ≠ 0 → 0 ≤ hp.curcons ∧ hp.curcons ≤ hp.maxcons) ↔
    ∀ hp ∈ srv.hosts.find? (·.Matches id), hp.maxcons ≠ 0 →
      hp.curcons + ids.countP (hp.Matches ·) ≤ hp.maxcons := by
  have hf : ((fun hp : HostInfo => decide (hp.Matches id)) ∘ countAll 1 ids) =
      fun hp => decide (hp.Matches id) := by
    funext hp
    simp
  simp only [find?_map, hf, Option.mem_map, forall_exists_index, and_imp, forall_apply_eq_imp_iff₂,
    countAll_maxcons]
  refine forall₃_congr fun hp hm h₀ => ?_
  have hc := h hp (mem_of_find?_eq_some hm) h₀
  rw [countAll_curcons h₀]
  omega

theorem exact_iff_allows (e : Event) (h : srv.Counted net) :
    srv.Exact net allOps e ↔ srv.Allows net allOps e := by
  cases e
  case cleanup i sts => exact Iff.rfl
  case connect addr s =>
    simp only [Exact, Allows]
    rcases accAddClient_cases net allOps srv.hosts addr with
      ⟨h₀, hr, hk⟩ | ⟨hf, hr, hn⟩ | ⟨hf, k, hk, hk', hj, hr⟩
    · simp only [h₀, hr, Int.lt_irrefl, false_imp_iff, true_and, ge_iff_le, Int.le_refl,
        forall_const, limited_iff h]
      refine ⟨fun h => ⟨fun k hl hf => ?_, fun _ => h⟩, fun h => ?_⟩
      · rcases hk with hn | hk
        · simp [hn]
        · exact absurd hf.left (hk k hl)
      · rcases hk with hn | hk
        · simp [hn]
        · exact h.right hk
    · simp [hr, hn, Clean, Roomy]
    · have hn : ¬(accAddClient net allOps srv.hosts addr).sts ≥ 0 := Int.not_le.mpr hf.neg
      simp only [hf.neg, hn, hr, forall_const, false_imp_iff, and_true, map_countAll_eq]
      refine ⟨fun h => ⟨fun k' _ ⟨hr', hj'⟩ => ?_, fun h => absurd hk' (h k hk)⟩, fun h =>
        h.left k hk ⟨hk', hj⟩⟩
      obtain rfl : k' = k := by
        rcases Nat.lt_trichotomy k' k with hl | he | hl
        · exact absurd hr' (hj k' hl)
        · exact he
        · exact absurd hk' (hj' k hl)
      exact h

theorem Exact.counted (he : srv.Exact net allOps e) (h : srv.Counted net)
    (hs : srv.step net allOps e = some srv') : srv'.Counted net := by
  cases e
  case cleanup i sts => exact cleanupClient_counted sts h hs
  case connect addr s =>
    rcases checkNewClient_cases s hs with ⟨hn, rfl⟩ | ⟨_, hr, rfl | rfl⟩
    · rw [he.left hn]
      exact h
    · rw [hr]
      exact h.admitted
    · exact h

theorem correct_iff_allows (e : Event) (h : srv.Counted net) :
    srv.Correct net allOps e ↔ srv.Allows net allOps e :=
  (and_iff_left_of_imp fun he _ => he.counted h).trans (exact_iff_allows e h)

theorem Allows.counted (ha : srv.Allows net allOps e) (h : srv.Counted net)
    (hs : srv.step net allOps e = some srv') : srv'.Counted net :=
  ((correct_iff_allows e h).mpr ha).right srv' hs

theorem exec_counted (h : ∀ hp ∈ hosts, hp.curcons = 0) :
    Run.Guarded (step net allOps) (Correct net allOps) ⟨hosts, []⟩ es ↔
      Run.Guarded (step net allOps) (Allows net allOps) ⟨hosts, []⟩ es := by
  refine Run.guarded_congr (I := Counted net) ?_ ?_ ?_
  · exact fun srv e hc => correct_iff_allows e hc
  · exact fun srv e srv' hc ha hs => ha.counted hc hs
  · intro hp hm _
    simpa using h hp hm

def twoAddresses : Network where
  getAddrInfo := fun _ => none
  myhost := some ([], [.inet 0x0a000001, .inet 0x0a000002])
  ipv6 := false
  parseIPv6WildCard := fun _ => none

def limit (addr : BitVec 32) (level maxcons : Nat) : HostInfo where
  hostid := .inet addr
  hostmask := .inet (inetMask level)
  level := level
  specOps := 0
  denyOps := 0
  maxcons := maxcons
  curcons := 0

def ok : Status :=
  ⟨0, by decide⟩

theorem exec_counted_local :
    Run.Guarded (step twoAddresses 3) (Correct twoAddresses 3)
      ⟨[limit 0x0a000001 0 2, limit 0x0a000000 1 6], []⟩
      [.connect (.inet 0x7f000001) ok, .connect (.inet 0x0a000003) ok,
        .connect (.inet 0x7f000001) ok,
        .cleanup 0 ok] :=
  (exec_counted (by decide)).mpr (by decide +kernel)

-- The second address is refused because of the first one, or limited by another entry.
theorem exec_miscounted :
    let addr := SockAddr.inet 0x7f000001
    let srv := Server.mk [limit 0x0a000001 0 1] []
    (accAddClient twoAddresses 3 srv.hosts addr).sts = pmErrConnlimit ∧
    (∃ srv', srv.step twoAddresses 3 (.connect addr ok) = some srv' ∧ srv'.client = [] ∧
      ¬srv'.Counted twoAddresses) ∧
    ¬Correct twoAddresses 3 ⟨[limit 0x0a000002 0 5, limit 0x0a000000 1 1], []⟩
      (.connect addr ok) := by
  refine ⟨by decide +kernel, ⟨_, rfl, rfl, fun h => ?_⟩, fun h => ?_⟩
  · have := h _ (.head _) (by decide)
    revert this
    decide +kernel
  · have := (correct_iff_allows _ (by simp [Counted, limit])).mp h
    revert this
    decide +kernel

end Server

end Access
