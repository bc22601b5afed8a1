import PcpModel.Access.Spec
import PcpModel.Library.Precedence
import PcpModel.Library.Run

-- The host access list (access.c).
namespace Access

open List

abbrev Ops := BitVec 32

structure Statement extends Spec where
  specOps : Ops
  denyOps : Ops

structure HostInfo extends Statement where
  maxcons : Nat
  curcons : Int

namespace HostInfo

def new (s : Statement) (maxcons : Nat) : HostInfo where
  toSpec := s.toSpec
  specOps := s.specOps
  denyOps := s.specOps &&& s.denyOps
  maxcons := maxcons
  curcons := 0

variable (hp : HostInfo) (s : Statement) (maxcons : Nat)

def Clashes : Prop :=
  (hp.maxcons ≠ 0 ∧ maxcons ≠ 0 ∧ hp.maxcons ≠ maxcons) ∨
    (hp.specOps &&& s.specOps ≠ 0 ∧ (hp.specOps &&& hp.denyOps) ^^^ (s.specOps &&& s.denyOps) ≠ 0)

instance : Decidable (hp.Clashes s maxcons) :=
  inferInstanceAs (Decidable (_ ∨ _))

def augment : HostInfo :=
  { hp with
    specOps := hp.specOps ||| s.specOps
    denyOps := hp.denyOps ||| (s.specOps &&& s.denyOps)
    maxcons := if maxcons ≠ 0 then maxcons else hp.maxcons }

end HostInfo

-- Either augments the entry for the same host or inserts a new entry, unless there is a clash.
def addSpec (s : Statement) (maxcons : Nat) : List HostInfo → Option (List HostInfo)
  | [] => some [.new s maxcons]
  | hp :: hps =>
    if hp.level > s.level then
      some (.new s maxcons :: hp :: hps)
    else if s.hostid = hp.hostid ∧ s.level = hp.level then
      if hp.Clashes s maxcons then none else some (hp.augment s maxcons :: hps)
    else
      (addSpec s maxcons hps).map (hp :: ·)

def addSpecs (maxcons : Nat) : List Statement → List HostInfo → List HostInfo × Nat
  | [], hosts => (hosts, 0)
  | s :: ss, hosts =>
    match addSpec s maxcons hosts with
    | none => addSpecs maxcons ss hosts
    | some hosts =>
      let (hosts, found) := addSpecs maxcons ss hosts
      (hosts, found + 1)

structure AddHost where
  name : List Char
  specOps : Ops
  denyOps : Ops
  maxcons : Int

section AddHost

variable (net : Network) (allOps : Ops)

def AddHost.statements (call : AddHost) : List Statement :=
  if call.specOps &&& ~~~allOps ≠ 0 then
    []
  else if call.maxcons < 0 then
    []
  else
    match net.getAccessSpecs call.name with
    | .error _ => []
    | .ok specs =>
      specs.map fun spec => { spec with specOps := call.specOps, denyOps := call.denyOps }

-- __pmAccAddHost
def accAddHost (hosts : List HostInfo) (call : AddHost) : Int × List HostInfo :=
  if call.specOps &&& ~~~allOps ≠ 0 then
    (-einval, hosts)
  else if call.maxcons < 0 then
    (-einval, hosts)
  else
    match net.getAccessSpecs call.name with
    | .error sts => (sts, hosts)
    | .ok specs =>
      let ss := specs.map fun spec => { spec with specOps := call.specOps, denyOps := call.denyOps }
      let (hosts, found) := addSpecs call.maxcons.toNat ss hosts
      (if found ≠ 0 then 0 else -einval, hosts)

end AddHost

-- Whether a statement denies an operation of a client, if it specifies it at all.
def Statement.verdict (id : SockAddr) (op : Nat) (s : Statement) : Option Bool :=
  if s.Matches id ∧ s.specOps.getLsbD op then some (s.denyOps.getLsbD op) else none

def rules (id : SockAddr) (op : Nat) (ss : List Statement) : Set (Nat × Bool) :=
  Precedence.rules (·.level) (Statement.verdict id op) ss

def Denies (ss : List Statement) (id : SockAddr) (op : Nat) : Prop :=
  Precedence.Decides (rules id op ss) true

def statements (hosts : List HostInfo) : List Statement :=
  hosts.map (·.toStatement)

def Statement.Says (s : Statement) (op : Nat) (denied : Bool) : Prop :=
  s.specOps.getLsbD op ∧ s.denyOps.getLsbD op = denied

def SameHost (s s' : Spec) : Prop :=
  s.hostid = s'.hostid ∧ s.level = s'.level

structure Ordered (hosts : List HostInfo) : Prop where
  sorted : hosts.Pairwise (·.level ≤ ·.level)
  unique : hosts.Pairwise (¬SameHost ·.toSpec ·.toSpec)

structure HostInfo.Valid (hp : HostInfo) : Prop where
  spec : hp.toSpec.Valid
  denied : ∀ op, hp.denyOps.getLsbD op → hp.specOps.getLsbD op

structure Sound (hosts : List HostInfo) : Prop extends Ordered hosts where
  valid : ∀ hp ∈ hosts, hp.Valid

structure Lists (hosts : List HostInfo) (ss : List Statement) : Prop extends Sound hosts where
  rules : ∀ a op, rules (.inet a) op (statements hosts) = rules (.inet a) op ss
  idle : ∀ hp ∈ hosts, hp.curcons = 0
  empty : hosts = [] ↔ ss = []

theorem Lists.nil : Lists [] [] where
  sorted := .nil
  unique := .nil
  valid := by simp
  rules := by simp [statements]
  idle := by simp
  empty := by simp

-- A new entry is behind those of lower and the same levels.
theorem addSpec_cases (hs : hosts.Pairwise (·.level ≤ ·.level))
    (h : addSpec s maxcons hosts = some hosts') :
    (∃ l l', hosts = l ++ l' ∧ hosts' = l ++ .new s maxcons :: l' ∧ (∀ hp ∈ l, hp.level ≤ s.level) ∧
      (∀ hp ∈ l', s.level < hp.level) ∧ ∀ hp ∈ l, ¬SameHost s.toSpec hp.toSpec) ∨
    (∃ l hp l', hosts = l ++ hp :: l' ∧ hosts' = l ++ hp.augment s maxcons :: l' ∧
      SameHost s.toSpec hp.toSpec ∧ ¬hp.Clashes s maxcons) := by
  induction hosts generalizing hosts'
  case nil =>
    cases h
    exact .inl ⟨[], [], by simp⟩
  case cons hp hps hi =>
    have ⟨hp', hs⟩ := pairwise_cons.mp hs
    simp only [addSpec] at h
    split at h
    case isTrue hl =>
      cases h
      refine .inl ⟨[], hp :: hps, rfl, rfl, by simp, ?_, by simp⟩
      intro hp₁ h₁
      cases mem_cons.mp h₁
      case inl h₁ => exact h₁ ▸ hl
      case inr h₁ => exact Nat.lt_of_lt_of_le hl (hp' hp₁ h₁)
    case isFalse hl =>
      split at h
      case isTrue he =>
        split at h
        · contradiction
        · cases h
          exact .inr ⟨[], hp, hps, rfl, rfl, he, ‹_›⟩
      case isFalse he =>
        obtain ⟨hosts₁, h₁, rfl⟩ := Option.map_eq_some_iff.mp h
        rcases hi hs h₁ with ⟨l, l', rfl, rfl, hle, hlt, hn⟩ | ⟨l, hp₁, l', rfl, rfl, hs', hc⟩
        · refine .inl ⟨hp :: l, l', rfl, rfl, ?_, hlt, ?_⟩
          · exact forall_mem_cons.mpr ⟨Nat.le_of_not_lt hl, hle⟩
          · exact forall_mem_cons.mpr ⟨he, hn⟩
        · exact .inr ⟨hp :: l, hp₁, l', rfl, rfl, hs', hc⟩

namespace HostInfo

variable {hp : HostInfo} {s : Statement} {id : SockAddr} {maxcons : Nat}

theorem new_verdict : (new s maxcons).verdict id op = s.verdict id op := by
  have hm : (new s maxcons).Matches id ↔ s.Matches id := Iff.rfl
  simp only [Statement.verdict]
  simp only [new, BitVec.getLsbD_and]
  split
  case isTrue h => simp [h.right]
  case isFalse => rfl

theorem new_valid (h : s.toSpec.Valid) : (new s maxcons).Valid where
  spec := h
  denied := by simp +contextual [new]

theorem augment_valid (h : hp.Valid) : (hp.augment s maxcons).Valid where
  spec := h.spec
  denied op := by
    simp only [augment, BitVec.getLsbD_or, BitVec.getLsbD_and, Bool.or_eq_true, Bool.and_eq_true]
    exact Or.imp (h.denied op) And.left

theorem agree_of_not_clashes (h : ¬hp.Clashes s maxcons) (h₁ : hp.specOps.getLsbD op)
    (h₂ : s.specOps.getLsbD op) : hp.denyOps.getLsbD op = s.denyOps.getLsbD op := by
  simp only [Clashes, not_or, not_and, not_not] at h
  have ho : hp.specOps &&& s.specOps ≠ 0 := by
    intro h₀
    have := congrArg (BitVec.getLsbD · op) h₀
    simp [h₁, h₂] at this
  have he := congrArg (BitVec.getLsbD · op) (BitVec.xor_eq_zero_iff.mp <| h.right ho)
  simpa [h₁, h₂] using he

theorem augment_verdict (hv : hp.Valid) (hm : hp.Matches id ↔ s.Matches id)
    (hc : ¬hp.Clashes s maxcons) : (hp.augment s maxcons).verdict id op = some b ↔
      hp.verdict id op = some b ∨ s.verdict id op = some b := by
  have ha : hp.specOps.getLsbD op → s.specOps.getLsbD op → _ := agree_of_not_clashes hc
  have hd := hv.denied op
  have hm' : (hp.augment s maxcons).Matches id ↔ hp.Matches id := Iff.rfl
  simp only [Statement.verdict, ← hm]
  simp only [augment, BitVec.getLsbD_or]
  by_cases h : hp.Matches id
  · simp only [h]
    cases h₁ : hp.specOps.getLsbD op <;> cases h₂ : s.specOps.getLsbD op
    all_goals simp_all
  · simp [h]

end HostInfo

section Rules

variable {s : Statement} {hp : HostInfo} {id : SockAddr} {maxcons : Nat}

theorem rules_new : rules id op [(HostInfo.new s maxcons).toStatement] = rules id op [s] := by
  have hl : (HostInfo.new s maxcons).level = s.level := rfl
  simp [rules, Precedence.rules, HostInfo.new_verdict, hl]

theorem rules_augment (hv : hp.Valid) (hs : s.toSpec.Valid) (h : SameHost s.toSpec hp.toSpec)
    (hc : ¬hp.Clashes s maxcons) : rules (.inet a) op [(hp.augment s maxcons).toStatement] =
      rules (.inet a) op [hp.toStatement] ∪ rules (.inet a) op [s] := by
  ext p
  have hm : hp.Matches (.inet a) ↔ s.Matches (.inet a) :=
    hv.spec.matches_congr hs h.left.symm h.right.symm
  have hl : (hp.augment s maxcons).level = hp.level := rfl
  simp [rules, Precedence.rules, HostInfo.augment_verdict hv hm hc, h.right, hl, and_or_left]

theorem rules_insert : rules id op (statements (l ++ hp :: l')) =
    rules id op [hp.toStatement] ∪ rules id op (statements (l ++ l')) := by
  simp only [rules, statements, map_append, map_cons, Precedence.rules_append]
  rw [Precedence.rules_cons, Set.union_left_comm]

end Rules

theorem Ordered.augment {hp : HostInfo} (h : Ordered (l ++ hp :: l')) :
    Ordered (l ++ hp.augment s maxcons :: l') where
  sorted := by
    have hs := pairwise_append.mp h.sorted
    refine pairwise_append.mpr ⟨hs.left, ?_, ?_⟩
    · exact pairwise_cons.mpr (pairwise_cons.mp hs.right.left)
    · intro hp₁ h₁
      have h₂ := forall_mem_cons.mp (hs.right.right hp₁ h₁)
      exact forall_mem_cons.mpr h₂
  unique := by
    have hu := pairwise_append.mp h.unique
    refine pairwise_append.mpr ⟨hu.left, ?_, ?_⟩
    · exact pairwise_cons.mpr (pairwise_cons.mp hu.right.left)
    · intro hp₁ h₁
      have h₂ := forall_mem_cons.mp (hu.right.right hp₁ h₁)
      exact forall_mem_cons.mpr h₂

theorem Ordered.insert (h : Ordered (l ++ l')) (hle : ∀ hp ∈ l, hp.level ≤ s.level)
    (hlt : ∀ hp ∈ l', s.level < hp.level) (hn : ∀ hp ∈ l, ¬SameHost s.toSpec hp.toSpec) :
    Ordered (l ++ .new s maxcons :: l') where
  sorted := by
    have ⟨h₁, h₂, h₃⟩ := pairwise_append.mp h.sorted
    refine pairwise_append.mpr ⟨h₁, ?_, fun hp hp' => ?_⟩
    · exact pairwise_cons.mpr ⟨fun hp' h' => Nat.le_of_lt (hlt hp' h'), h₂⟩
    · exact forall_mem_cons.mpr ⟨hle hp hp', h₃ hp hp'⟩
  unique := by
    have ⟨h₁, h₂, h₃⟩ := pairwise_append.mp h.unique
    refine pairwise_append.mpr ⟨h₁, ?_, fun hp hp' => ?_⟩
    · refine pairwise_cons.mpr ⟨fun hp' h' he => ?_, h₂⟩
      exact absurd he.right (Nat.ne_of_lt (hlt hp' h'))
    · refine forall_mem_cons.mpr ⟨fun he => ?_, h₃ hp hp'⟩
      exact hn hp hp' ⟨he.left.symm, he.right.symm⟩

theorem forall_mem_middle {P : HostInfo → Prop} :
    (∀ hp' ∈ l ++ hp :: l', P hp') ↔ P hp ∧ ∀ hp' ∈ l ++ l', P hp' := by
  simp only [forall_mem_append, forall_mem_cons]
  tauto

theorem Sound.add (hl : Sound hosts) (hs : s.toSpec.Valid)
    (h : addSpec s maxcons hosts = some hosts') : Sound hosts' := by
  rcases addSpec_cases hl.sorted h with ⟨l, l', rfl, rfl, hle, hlt, hn⟩ |
    ⟨l, hp, l', rfl, rfl, he, hc⟩
  · refine { toOrdered := hl.toOrdered.insert hle hlt hn, valid := ?_ }
    exact forall_mem_middle.mpr ⟨HostInfo.new_valid hs, hl.valid⟩
  · have ⟨hv, hvs⟩ := forall_mem_middle.mp hl.valid
    refine { toOrdered := hl.toOrdered.augment, valid := ?_ }
    exact forall_mem_middle.mpr ⟨HostInfo.augment_valid hv, hvs⟩

-- A statement that clashes is left out.
theorem Sound.addSpecs (hl : Sound hosts) (hv : ∀ s ∈ ss, s.toSpec.Valid) :
    Sound (addSpecs maxcons ss hosts).fst := by
  fun_induction Access.addSpecs maxcons ss hosts
  case case1 => exact hl
  case case2 hi => exact hi hl (forall_mem_cons.mp hv).right
  case case3 h _ _ _ hi =>
    obtain ⟨hs, hv⟩ := forall_mem_cons.mp hv
    simpa [*] using hi (hl.add hs h) hv

theorem Lists.add (hl : Lists hosts ss) (hs : s.toSpec.Valid)
    (h : addSpec s maxcons hosts = some hosts') : Lists hosts' (ss ++ [s]) := by
  have hr : ∀ id op,
      Access.rules id op (ss ++ [s]) = Access.rules id op [s] ∪ Access.rules id op ss := by
    intro id op
    rw [Set.union_comm]
    exact Precedence.rules_append
  rcases addSpec_cases hl.sorted h with ⟨l, l', rfl, rfl, hle, hlt, hn⟩ |
    ⟨l, hp, l', rfl, rfl, he, hc⟩
  · refine { toSound := hl.toSound.add hs h, rules := ?_, idle := ?_, empty := by simp }
    · intro a op
      rw [rules_insert, rules_new, hl.rules, hr]
    · exact forall_mem_middle.mpr ⟨rfl, hl.idle⟩
  · have ⟨hv, hvs⟩ := forall_mem_middle.mp hl.valid
    have ⟨hd, hds⟩ := forall_mem_middle.mp hl.idle
    refine { toSound := hl.toSound.add hs h, rules := ?_, idle := ?_, empty := by simp }
    · intro a op
      rw [rules_insert, rules_augment hv hs he hc, hr, ← hl.rules, rules_insert]
      rw [Set.union_comm (Access.rules _ _ [hp.toStatement]), Set.union_assoc]
    · exact forall_mem_middle.mpr ⟨hd, hds⟩

section AddHosts

variable (net : Network) (allOps : Ops)

def NonClashing (hosts : List HostInfo) (call : AddHost) : Prop :=
  ((call.statements net allOps).foldlM (fun hosts s => addSpec s call.maxcons.toNat hosts)
    hosts).isSome

instance : Decidable (NonClashing net allOps hosts call) :=
  inferInstanceAs (Decidable (_ = true))

def stepAddHost (hosts : List HostInfo) (call : AddHost) : Option (List HostInfo) :=
  some (accAddHost net allOps hosts call).snd

variable {net allOps}

theorem addSpecs_eq (h : ss.foldlM (fun hosts s => addSpec s maxcons hosts) hosts = some hosts') :
    addSpecs maxcons ss hosts = (hosts', ss.length) := by
  induction ss generalizing hosts
  case nil =>
    cases h
    rfl
  case cons s ss hi =>
    simp only [foldlM_cons, Option.bind_eq_bind, Option.bind_eq_some_iff] at h
    obtain ⟨hosts₁, h₁, h⟩ := h
    simp [addSpecs, h₁, hi h]

theorem Lists.addAll (hl : Lists hosts ss) (hv : ∀ s ∈ ss', s.toSpec.Valid)
    (h : ss'.foldlM (fun hosts s => addSpec s maxcons hosts) hosts = some hosts') :
    Lists hosts' (ss ++ ss') := by
  induction ss' generalizing hosts ss
  case nil =>
    cases h
    simpa using hl
  case cons s ss' hi =>
    simp only [foldlM_cons, Option.bind_eq_bind, Option.bind_eq_some_iff] at h
    obtain ⟨hosts₁, h₁, h⟩ := h
    have ⟨hs, hv⟩ := forall_mem_cons.mp hv
    simpa using hi (hl.add hs h₁) hv h

theorem accAddHost_snd : (accAddHost net allOps hosts call).snd =
    (addSpecs call.maxcons.toNat (call.statements net allOps) hosts).fst := by
  unfold accAddHost AddHost.statements
  split
  · rfl
  · split
    · rfl
    · split <;> rfl

theorem AddHost.statements_valid : ∀ s ∈ AddHost.statements net allOps call, s.toSpec.Valid := by
  unfold AddHost.statements
  split
  · simp
  · split
    · simp
    · split
      · simp
      · intro s hs
        obtain ⟨spec, hm, rfl⟩ := mem_map.mp hs
        exact Network.getAccessSpecs_valid ‹_› spec hm

theorem Sound.exec (h : Run.exec (stepAddHost net allOps) [] calls = some hosts) :
    Sound hosts := by
  refine Run.exec_preserves ?_ Lists.nil.toSound h
  rintro hosts call _ hl ⟨⟩
  rw [accAddHost_snd]
  exact hl.addSpecs AddHost.statements_valid

theorem Lists.addHost (hl : Lists hosts ss) (h : NonClashing net allOps hosts call) :
    Lists (accAddHost net allOps hosts call).snd (ss ++ call.statements net allOps) := by
  obtain ⟨hosts', h⟩ := Option.isSome_iff_exists.mp h
  rw [accAddHost_snd, addSpecs_eq h]
  exact hl.addAll AddHost.statements_valid h

theorem Lists.exec (hl : Lists hosts ss)
    (h : Run.Guarded (stepAddHost net allOps) (NonClashing net allOps) hosts calls) :
    ∃ hosts', Run.exec (stepAddHost net allOps) hosts calls = some hosts' ∧
      Lists hosts' (ss ++ calls.flatMap (·.statements net allOps)) := by
  induction calls generalizing hosts ss
  case nil => exact ⟨hosts, rfl, by simpa using hl⟩
  case cons call calls hi =>
    have ⟨hc, h⟩ := h
    have ⟨hosts', he, hl'⟩ := hi (hl.addHost hc) (h _ rfl)
    exact ⟨hosts', he, by simpa using hl'⟩

end AddHosts

namespace HostInfo

variable (hp : HostInfo) (s : Statement) (maxcons : Nat)

-- The limits differ, or an operation that both specify is denied by one of them only.
def Conflicts : Prop :=
  (hp.maxcons ≠ 0 ∧ maxcons ≠ 0 ∧ hp.maxcons ≠ maxcons) ∨ ∃ op b, hp.Says op b ∧ s.Says op !b

-- An operation is specified by both, and one that is specified by only one of them is denied.
def Overreaches : Prop :=
  (∃ op b b', hp.Says op b ∧ s.Says op b') ∧
    ∃ op, (hp.Says op true ∧ ∀ b, ¬s.Says op b) ∨ (s.Says op true ∧ ∀ b, ¬hp.Says op b)

structure Joined (hp' : HostInfo) : Prop where
  spec : hp'.toSpec = hp.toSpec
  ops : ∀ op b, hp'.Says op b ↔ hp.Says op b ∨ s.Says op b
  maxcons : hp'.maxcons = max hp.maxcons maxcons
  curcons : hp'.curcons = hp.curcons

variable {hp s maxcons}

theorem ops_ne_iff {y : Ops} : x ≠ y ↔ ∃ op, x.getLsbD op ≠ y.getLsbD op := by
  constructor
  · intro h
    by_contra hn
    push Not at hn
    exact h (BitVec.eq_of_getLsbD_eq fun op _ => hn op)
  · rintro ⟨op, h⟩ rfl
    exact h rfl

theorem overlap_iff : hp.specOps &&& s.specOps ≠ 0 ↔ ∃ op b b', hp.Says op b ∧ s.Says op b' := by
  simp [ops_ne_iff, Statement.Says]

theorem denied_ne_iff : (hp.specOps &&& hp.denyOps) ^^^ (s.specOps &&& s.denyOps) ≠ 0 ↔
    (∃ op b, hp.Says op b ∧ s.Says op !b) ∨
      ∃ op, (hp.Says op true ∧ ∀ b, ¬s.Says op b) ∨ (s.Says op true ∧ ∀ b, ¬hp.Says op b) := by
  rw [ops_ne_iff, ← exists_or]
  refine exists_congr fun op => ?_
  simp only [Statement.Says, BitVec.getLsbD_xor, BitVec.getLsbD_and]
  cases hp.specOps.getLsbD op <;> cases s.specOps.getLsbD op <;> simp
  all_goals grind

theorem clashes_iff : hp.Clashes s maxcons ↔ hp.Conflicts s maxcons ∨ hp.Overreaches s := by
  have hi : (∃ op b, hp.Says op b ∧ s.Says op !b) → ∃ op b b', hp.Says op b ∧ s.Says op b' :=
    fun ⟨op, b, h⟩ => ⟨op, b, _, h⟩
  rw [Clashes, overlap_iff, denied_ne_iff, and_or_left, and_iff_right_of_imp hi, ← or_assoc]
  rfl

theorem augment_joined (hv : hp.Valid) (hc : ¬hp.Clashes s maxcons) :
    hp.Joined s maxcons (hp.augment s maxcons) where
  spec := rfl
  ops op b := by
    have ha : hp.specOps.getLsbD op → s.specOps.getLsbD op → _ := agree_of_not_clashes hc
    have hd := hv.denied op
    simp only [Statement.Says, augment, BitVec.getLsbD_or]
    cases h₁ : hp.specOps.getLsbD op <;> cases h₂ : s.specOps.getLsbD op
    all_goals simp_all
  maxcons := by
    simp only [Clashes] at hc
    simp only [augment]
    split <;> omega
  curcons := rfl

end HostInfo

theorem addSpec_same {hp : HostInfo} (ho : Ordered (l ++ hp :: l'))
    (hs : SameHost s.toSpec hp.toSpec) :
    addSpec s maxcons (l ++ hp :: l') =
      if hp.Clashes s maxcons then none else some (l ++ hp.augment s maxcons :: l') := by
  induction l
  case nil => simp [addSpec, hs.left, hs.right]
  case cons hp₁ l hi =>
    have ⟨hl, hs'⟩ := pairwise_cons.mp ho.sorted
    have ⟨hu, hu'⟩ := pairwise_cons.mp ho.unique
    have hm : hp ∈ l ++ hp :: l' := by simp
    have hn : ¬(s.hostid = hp₁.hostid ∧ s.level = hp₁.level) := by
      rintro ⟨h, h'⟩
      exact hu hp hm ⟨h ▸ hs.left, h' ▸ hs.right⟩
    have hle : ¬hp₁.level > s.level := by
      rw [hs.right]
      exact Nat.not_lt.mpr (hl hp hm)
    simp only [cons_append, addSpec, if_neg hle, if_neg hn, hi ⟨hs', hu'⟩]
    split <;> rfl

theorem addSpecs_append : (addSpecs maxcons (ss ++ ss') hosts).fst =
    (addSpecs maxcons ss' (addSpecs maxcons ss hosts).fst).fst := by
  fun_induction addSpecs maxcons ss hosts <;> simp_all [addSpecs]

-- A statement for the host of an entry is refused exactly if it conflicts with the entry, unless
-- one of them denies an operation that the other does not specify.
theorem accAddHost_joins {hp : HostInfo}
    (he : Run.exec (stepAddHost net allOps) [] calls = some hosts)
    (h : call.statements net allOps = ss ++ s :: ss')
    (h₁ : (addSpecs call.maxcons.toNat ss hosts).fst = l ++ hp :: l')
    (hs : SameHost s.toSpec hp.toSpec) :
    let r := addSpec s call.maxcons.toNat (l ++ hp :: l')
    (accAddHost net allOps hosts call).snd =
      (addSpecs call.maxcons.toNat ss' (r.getD (l ++ hp :: l'))).fst ∧
    (∀ hosts', r = some hosts' → ∃ hp', hosts' = l ++ hp' :: l' ∧
      hp.Joined s call.maxcons.toNat hp') ∧
    ((r = none ↔ hp.Conflicts s call.maxcons.toNat) ↔
      (hp.Overreaches s → hp.Conflicts s call.maxcons.toNat)) := by
  intro r
  have hss : ∀ s ∈ ss, s.toSpec.Valid := fun s hm =>
    @AddHost.statements_valid net allOps call s (h ▸ mem_append_left _ hm)
  have hl : Sound (l ++ hp :: l') := h₁ ▸ (Sound.exec he).addSpecs hss
  have hv : hp.Valid := hl.valid hp (by simp)
  have hr : r = _ := addSpec_same hl.toOrdered hs
  refine ⟨?_, ?_, ?_⟩
  · rw [accAddHost_snd, h, addSpecs_append, h₁, addSpecs]
    cases hc : addSpec s call.maxcons.toNat (l ++ hp :: l') <;> simp [r, hc]
  · intro hosts' h'
    rw [hr] at h'
    split at h'
    · contradiction
    · cases h'
      exact ⟨_, rfl, HostInfo.augment_joined hv ‹_›⟩
  · have hn : r = none ↔ hp.Clashes s call.maxcons.toNat := by
      rw [hr]
      split <;> simp [*]
    rw [hn, HostInfo.clashes_iff]
    exact or_iff_left_iff_imp

def noNames : Network where
  getAddrInfo := fun _ => none
  myhost := none
  ipv6 := false
  parseIPv6WildCard := fun _ => none

def anyHost (specOps denyOps : Ops) : AddHost :=
  ⟨".*".toList, specOps, denyOps, 0⟩

def allowed : HostInfo :=
  .new ⟨inetSpec [] 4, 1, 0⟩ 0

theorem accAddHost_joins_apart :
    addSpec ⟨inetSpec [] 4, 2, 2⟩ 0 [allowed] = none ↔
      allowed.Conflicts ⟨inetSpec [] 4, 2, 2⟩ 0 := by
  have h : (anyHost 2 2).statements noNames 3 = [] ++ ⟨inetSpec [] 4, 2, 2⟩ :: [] := rfl
  have h₁ : (addSpecs 0 [] [allowed]).fst = [] ++ allowed :: [] := rfl
  have he : Run.exec (stepAddHost noNames 3) [] [anyHost 1 0] = some [allowed] := rfl
  refine (accAddHost_joins he h h₁ ⟨rfl, rfl⟩).right.right.mpr fun ho => ?_
  exact absurd rfl (HostInfo.overlap_iff.mpr ho.left)

-- One statement allows the operation 1, and the other one also allows it and denies 2.
theorem accAddHost_overreaches :
    (accAddHost noNames 3 [] (anyHost 1 0)).snd = [allowed] ∧
    accAddHost noNames 3 [allowed] (anyHost 3 2) = (-einval, [allowed]) ∧
    ¬allowed.Conflicts ⟨inetSpec [] 4, 3, 2⟩ 0 := by
  refine ⟨rfl, rfl, ?_⟩
  rintro (h | ⟨op, b, h, h'⟩)
  · exact h.left rfl
  · have ho : op = 0 := by simpa [allowed, HostInfo.new] using h.left
    rw [ho] at h h'
    cases b
    · exact absurd h'.right (by decide)
    · exact absurd h.right (by decide)

end Access
