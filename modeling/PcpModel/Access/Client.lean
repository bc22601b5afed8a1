import Mathlib.Data.List.Pairwise
import PcpModel.Access.Host
import PcpModel.Pmapi.Header

-- The admission of clients according to the host access list (access.c).
namespace Access

open List Pcp

def Network.getClientIds (net : Network) (hostid : SockAddr) : Except Int (List SockAddr) :=
  if hostid.isLoopBack then
    match net.myhost with
    | none => .error pmErrPermission
    | some (_, []) => .error pmErrPermission
    | some (_, addrs) => .ok addrs
  else
    .ok [hostid]

def scan (id : SockAddr) : List HostInfo → Nat → Ops × Option Nat → Ops × Option Nat
  | [], _, acc => acc
  | hp :: hps, i, acc =>
    let (denyOps, lastmatch) := scan id hps (i + 1) acc
    if hp.Matches id then
      ((denyOps &&& ~~~hp.specOps) ||| hp.denyOps, some i)
    else
      (denyOps, lastmatch)

def HostInfo.Full (hp : HostInfo) : Prop :=
  hp.maxcons ≠ 0 ∧ hp.curcons ≥ hp.maxcons

instance (hp : HostInfo) : Decidable hp.Full :=
  inferInstanceAs (Decidable (_ ∧ _))

def HostInfo.count (n : Int) (id : SockAddr) (hp : HostInfo) : HostInfo :=
  if hp.Matches id ∧ hp.maxcons ≠ 0 then { hp with curcons := hp.curcons + n } else hp

structure Admission where
  sts : Int
  denyOps : Option Ops
  hosts : List HostInfo

-- Either the status and the denied operations of a refusal, or the result of the scan.
def check (allOps : Ops) (id : SockAddr) (acc : Ops × Option Nat) (hosts : List HostInfo) :
    Except (Int × Ops) (Ops × Option Nat) :=
  let (denyOps, lastmatch) := scan id hosts 0 acc
  if denyOps = allOps then
    .error (pmErrPermission, denyOps)
  else if ∃ hp ∈ lastmatch.bind (hosts[·]?), hp.Full then
    .error (pmErrConnlimit, allOps)
  else
    .ok (denyOps, lastmatch)

def admitAll (allOps : Ops) : List SockAddr → Ops × Option Nat → List HostInfo → Admission
  | [], (denyOps, _), hosts => { sts := 0, denyOps, hosts }
  | id :: ids, acc, hosts =>
    match check allOps id acc hosts with
    | .error (sts, denyOps) => { sts, denyOps, hosts }
    | .ok acc => admitAll allOps ids acc (hosts.map (.count 1 id))

section AddClient

variable (net : Network) (allOps : Ops) (hosts : List HostInfo) (hostid : SockAddr)

-- __pmAccAddClient
def accAddClient : Admission :=
  match net.getClientIds hostid with
  | .error sts => { sts, denyOps := none, hosts }
  | .ok ids =>
    if hosts = [] then
      { sts := 0, denyOps := some 0, hosts }
    else
      admitAll allOps ids (0, none) hosts

-- __pmAccDelClient
def accDelClient : List HostInfo :=
  match net.getClientIds hostid with
  | .error _ => hosts
  | .ok ids => ids.foldl (fun hosts id => hosts.map (.count (-1) id)) hosts

end AddClient

variable {net : Network} {allOps : Ops} {id : SockAddr}

theorem HostInfo.Valid.getLsbD (hv : HostInfo.Valid hp) (denyOps : Ops) :
    ((denyOps &&& ~~~hp.specOps) ||| hp.denyOps).getLsbD op =
      if hp.specOps.getLsbD op then hp.denyOps.getLsbD op else denyOps.getLsbD op := by
  have hd := hv.denied op
  by_cases h : op < 32
  · cases hs : hp.specOps.getLsbD op <;> simp_all
  · simp [BitVec.getLsbD_of_ge _ _ (Nat.le_of_not_lt h)]

theorem scan_getLsbD (hv : ∀ hp ∈ hosts, hp.Valid) : (scan id hosts i acc).fst.getLsbD op =
    ((statements hosts).findSome? (·.verdict id op)).getD (acc.fst.getLsbD op) := by
  induction hosts generalizing i
  case nil => rfl
  case cons hp hosts hi =>
    have ⟨hp', hv⟩ := forall_mem_cons.mp hv
    have hs : (hp.toStatement.verdict id op) =
      if hp.Matches id ∧ hp.specOps.getLsbD op then some (hp.denyOps.getLsbD op) else none := rfl
    simp only [scan, statements, map_cons, findSome?_cons]
    by_cases hm : hp.Matches id
    · simp only [hm, if_true, hp'.getLsbD, hs, true_and]
      split
      · rfl
      · exact hi hv
    · simp only [hm, hs]
      exact hi hv

theorem Lists.not_full (hl : Lists hosts ss) (h : hp ∈ hosts) : ¬hp.Full := by
  intro ⟨h₀, hf⟩
  have := hl.idle hp h
  omega

def outcome (allOps : Ops) (hosts : List HostInfo) (id : SockAddr) : Int × Ops :=
  if hosts = [] then
    (0, 0)
  else
    let denyOps := (scan id hosts 0 (0, none)).fst
    (if denyOps = allOps then pmErrPermission else 0, denyOps)

variable (net allOps) in
theorem Lists.accAddClient_eq (hl : Lists hosts ss) (h : ¬id.isLoopBack) :
    ∃ hosts', accAddClient net allOps hosts id =
      ⟨(outcome allOps hosts id).fst, (outcome allOps hosts id).snd, hosts'⟩ := by
  simp only [accAddClient, Network.getClientIds, h, outcome]
  by_cases hn : hosts = []
  · exact ⟨hosts, by simp [hn]⟩
  · have hf : ¬∃ hp ∈ (scan id hosts 0 (0, none)).snd.bind (hosts[·]?), hp.Full := by
      intro ⟨hp, hm, hf⟩
      obtain ⟨i, _, hm⟩ := Option.bind_eq_some_iff.mp hm
      exact hl.not_full (List.mem_of_getElem? hm) hf
    by_cases hd : (scan id hosts 0 (0, none)).fst = allOps
    · exact ⟨hosts, by simp only [hn, admitAll, check, hd, Bool.false_eq_true, if_true, if_false]⟩
    · exact ⟨hosts.map (.count 1 id), by
        simp only [hn, admitAll, check, hd, hf, Bool.false_eq_true, if_false]⟩

theorem Ordered.eq_of_sameHost (h : Ordered hosts) (h₁ : hp ∈ hosts) (h₂ : hp' ∈ hosts)
    (hs : SameHost hp.toSpec hp'.toSpec) : hp = hp' := by
  by_contra hn
  have : Std.Symm fun hp hp' : HostInfo => ¬SameHost hp.toSpec hp'.toSpec :=
    ⟨fun _ _ h hs => h ⟨hs.left.symm, hs.right.symm⟩⟩
  exact h.unique.forall h₁ h₂ hn hs

theorem Lists.agree (hl : Lists hosts ss)
    (h₁ : (k, b) ∈ Access.rules (.inet a) op (statements hosts))
    (h₂ : (k, b') ∈ Access.rules (.inet a) op (statements hosts)) : b = b' := by
  obtain ⟨s, hs, hk, hb⟩ := h₁
  obtain ⟨s', hs', hk', hb'⟩ := h₂
  obtain ⟨hp, hm, rfl⟩ := mem_map.mp hs
  obtain ⟨hp', hm', rfl⟩ := mem_map.mp hs'
  simp only [Statement.verdict, Option.ite_none_right_eq_some] at hb hb'
  have hlevel : hp.level = hp'.level := hk.trans hk'.symm
  have hhost : hp.hostid = hp'.hostid :=
    (hl.valid hp hm).spec.eq_of_matches (hl.valid hp' hm').spec hlevel hb.left.left hb'.left.left
  cases hl.toOrdered.eq_of_sameHost hm hm' ⟨hhost, hlevel⟩
  exact Option.some_inj.mp (hb.right.symm.trans hb'.right)

theorem Lists.scan_iff_denies (hl : Lists hosts ss) :
    (scan (.inet a) hosts i (0, none)).fst.getLsbD op ↔ Denies (statements hosts) (.inet a) op := by
  have hs : (statements hosts).Pairwise (·.level ≤ ·.level) := pairwise_map.mpr hl.sorted
  rw [Denies, Access.rules, Precedence.decides_iff_findSome? hs fun _ _ _ => hl.agree,
    scan_getLsbD hl.valid]
  cases h : (statements hosts).findSome? (Statement.verdict (.inet a) op ·) <;> simp_all

theorem Lists.outcome_iff_denies (hl : Lists hosts ss) :
    (outcome allOps hosts (.inet a)).snd.getLsbD op ↔ Denies ss (.inet a) op := by
  rw [Denies, ← hl.rules, ← Denies, ← hl.scan_iff_denies, outcome]
  split
  case isTrue h => simp [h, scan]
  case isFalse => rfl

theorem Lists.outcome_eq (hl : Lists hosts ss) (hl' : Lists hosts' ss') (hp : ss'.Perm ss) :
    outcome allOps hosts' (.inet a) = outcome allOps hosts (.inet a) := by
  have hr : ∀ op, Access.rules (.inet a) op ss' = Access.rules (.inet a) op ss := by
    intro op
    simp only [Access.rules, Precedence.rules, hp.mem_iff]
  have hd : (outcome allOps hosts' (.inet a)).snd = (outcome allOps hosts (.inet a)).snd := by
    refine BitVec.eq_of_getLsbD_eq fun op _ => Bool.eq_iff_iff.mpr ?_
    rw [hl.outcome_iff_denies, hl'.outcome_iff_denies, Denies, Denies, hr]
  have he : hosts' = [] ↔ hosts = [] := by
    rw [hl.empty, hl'.empty, ← length_eq_zero_iff, hp.length_eq, length_eq_zero_iff]
  simp only [outcome, he] at hd ⊢
  split
  case isTrue => rfl
  case isFalse h =>
    simp only [h, if_false] at hd
    simp only [hd]

variable (net allOps) in
theorem accAddClient_denies
    (hg : Run.Guarded (stepAddHost net allOps) (NonClashing net allOps) [] calls) :
    ∃ hosts, Run.exec (stepAddHost net allOps) [] calls = some hosts ∧ Ordered hosts ∧
      ∀ a, ¬(SockAddr.inet a).isLoopBack →
        let r := accAddClient net allOps hosts (.inet a)
        (∃ denyOps, r.denyOps = some denyOps ∧
          ∀ op, denyOps.getLsbD op ↔
            Denies (calls.flatMap (·.statements net allOps)) (.inet a) op) ∧
        ∀ calls' hosts', calls'.Perm calls →
          Run.Guarded (stepAddHost net allOps) (NonClashing net allOps) [] calls' →
          Run.exec (stepAddHost net allOps) [] calls' = some hosts' →
          let r' := accAddClient net allOps hosts' (.inet a)
          r'.sts = r.sts ∧ r'.denyOps = r.denyOps := by
  obtain ⟨hosts, he, hl⟩ := Lists.nil.exec hg
  refine ⟨hosts, he, hl.toOrdered, fun a ha => ?_⟩
  obtain ⟨_, hr⟩ := hl.accAddClient_eq net allOps ha
  simp only [hr]
  refine ⟨⟨_, rfl, fun op => hl.outcome_iff_denies⟩, fun calls' hosts' hp hg' he' => ?_⟩
  obtain ⟨hosts₁, he₁, hl'⟩ := Lists.nil.exec hg'
  cases he'.symm.trans he₁
  obtain ⟨_, hr'⟩ := hl'.accAddClient_eq net allOps ha
  have hs := hp.flatMap_right (AddHost.statements net allOps)
  rw [hr', hl.outcome_eq hl' hs]
  exact ⟨rfl, rfl⟩

theorem accAddClient_denies_three :
    let net : Network :=
      { getAddrInfo := fun _ => some [.inet 0x0a010203], myhost := none, ipv6 := false,
        parseIPv6WildCard := fun _ => none }
    let calls : List AddHost :=
      [{ name := "*".toList, specOps := 3, denyOps := 2, maxcons := 0 },
        { name := "10.1.2.3".toList, specOps := 2, denyOps := 0, maxcons := 5 },
        { name := "10.1.*".toList, specOps := 1, denyOps := 1, maxcons := 1 }]
    ∃ hosts, Run.exec (stepAddHost net 3) [] calls = some hosts ∧ Ordered hosts ∧
      hosts.length = 3 := by
  intro net calls
  have hg : Run.Guarded (stepAddHost net 3) (NonClashing net 3) [] calls := by decide +kernel
  obtain ⟨hosts, he, ho, _⟩ := accAddClient_denies net 3 hg
  have hlen : (Run.exec (stepAddHost net 3) [] calls).map length = some 3 := by decide +kernel
  rw [he] at hlen
  exact ⟨hosts, he, ho, Option.some_inj.mp hlen⟩

end Access
