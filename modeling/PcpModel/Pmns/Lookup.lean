import Mathlib.Algebra.GroupWithZero.Nat
import Mathlib.Data.List.Forall2
import PcpModel.Pmns.Trim
import PcpModel.Pmapi.Header

-- Lookup of names in a local name space, and among the derived metrics (pmns.c).
namespace Pmns

open List Pcp

-- The node of a name: a metric with its pmid, or `none` if it has children.
def Tree.node (t : Tree) (name : List String) : Option (Option Nat) :=
  if t.locate [] name then some ((t.leaves.find? (·.1 = name)).map (·.2)) else none

-- A PMDA of a local context. Before PMDA_INTERFACE_4, there is no function `pmid`.
abbrev Dso := Option (List String → Except Int Nat)

-- Names are split at the dots. `dsos` is only there in local contexts, by domain.
structure Env where
  pmns : Tree
  dsos : Option (Nat → Option Dso)
  derived : List (List String × Nat)

def isDynamic (pmid : Nat) : Bool :=
  pmid / 2 ^ 22 % 2 ^ 9 = 511 ∧ pmid % 2 ^ 10 = 0

def cluster (pmid : Nat) : Nat :=
  pmid / 2 ^ 10 % 2 ^ 12

-- An entry of `pmidlist`, where `none` is PM_ID_NULL, and the status and the failures so far.
abbrev Found := Option Nat × Int × Nat

namespace Env

variable (env : Env)

-- Looks for the root of a dynamic subtree, from the longest proper part of the name on.
def findDynamic (name : List String) (sts : Int) (nfail : Nat) : Nat → Found
  | 0 => (none, sts, nfail)
  | n + 1 =>
    match (env.pmns.node (name.take (n + 1))).join.filter isDynamic, env.dsos with
    | none, _ => findDynamic name sts nfail n
    | some pmid, none => (some pmid, sts, nfail - 1)
    | some pmid, some dsos =>
      match dsos (cluster pmid) with
      | none => (none, if sts ≥ 0 then pmErrNoagent else sts, nfail)
      | some none => findDynamic name sts nfail n
      | some (some f) =>
        match f name with
        | .error _ => (none, sts, nfail)
        | .ok pmid => (some pmid, sts, nfail - 1)

def lookup (name : List String) (sts : Int) (nfail : Nat) : Found :=
  match env.pmns.node name with
  | some (some pmid) => (some pmid, sts, nfail)
  | some none => (none, pmErrNonleaf, nfail + 1)
  | none => env.findDynamic name sts (nfail + 1) (name.length - 1)

def lookupAll (sts : Int) (nfail : Nat) : List (List String) → List (Option Nat) × Int × Nat
  | [] => ([], sts, nfail)
  | name :: names =>
    let (pmid, sts, nfail) := env.lookup name sts nfail
    let (pmids, sts, nfail) := lookupAll sts nfail names
    (pmid :: pmids, sts, nfail)

def dmgetpmid (name : List String) : Option Nat :=
  (env.derived.find? (·.1 = name)).map (·.2)

def addDerived (nfail : Nat) : List (List String) → List (Option Nat) → List (Option Nat) × Nat
  | name :: names, pmid :: pmids =>
    let pmid' := pmid.or (env.dmgetpmid name)
    let (pmids, nfail) := addDerived (if pmid'.isNone then nfail + 1 else nfail) names pmids
    (pmid' :: pmids, nfail)
  | _, _ => ([], nfail)

def pmLookupName (names : List (List String)) : Int × List (Option Nat) :=
  let numpmid := names.length
  if numpmid < 1 then (pmErrToosmall, []) else
    let (pmids, sts, nfail) := env.lookupAll 0 0 names
    let sts := if sts = 0 then (numpmid : Int) - nfail else sts
    let (pmids, sts) :=
      if sts < 0 ∨ nfail > 0 then
        let (pmids, nfail) := env.addDerived 0 names pmids
        (pmids, if nfail = 0 then ↑numpmid else sts)
      else
        (pmids, sts)
    (if sts = 0 ∧ numpmid = 1 then pmErrName else sts, pmids)

section Spec

variable (name : List String)

-- A part of the name is a root that answers for the names below, or has no agent.
def Answers (n root : Nat) : Prop :=
  env.pmns.node (name.take n) = some (some root) ∧ isDynamic root ∧
    ∀ dsos, env.dsos = some dsos → dsos (cluster root) ≠ some none

-- The root among the parts of at most `k` components. The longest one is taken.
def Root (k root : Nat) : Prop :=
  ∃ n, 0 < n ∧ n ≤ k ∧ env.Answers name n root ∧ ∀ m, n < m → m ≤ k → ∀ r, ¬env.Answers name m r

-- Below a root, the PMDA knows the pmid, or else it is that of the root.
def Says (root pmid : Nat) : Prop :=
  (env.dsos = none ∧ pmid = root) ∨
    ∃ dsos f, env.dsos = some dsos ∧ dsos (cluster root) = some (some f) ∧ f name = .ok pmid

def InSpace (pmid : Nat) : Prop :=
  env.pmns.node name = some (some pmid) ∨
    env.pmns.node name = none ∧ ∃ root, env.Root name (name.length - 1) root ∧
      env.Says name root pmid

-- The name has children, or there is no agent for it.
def Bad : Prop :=
  env.pmns.node name = some none ∨
    env.pmns.node name = none ∧ ∃ root, env.Root name (name.length - 1) root ∧
      ∃ dsos, env.dsos = some dsos ∧ dsos (cluster root) = none

-- The name space comes before the derived metrics.
def Names (pmid : Nat) : Prop :=
  env.InSpace name pmid ∨ (∀ p, ¬env.InSpace name p) ∧ env.dmgetpmid name = some pmid

open Classical in
-- Unless all names are known, those of derived metrics do not count.
structure Looked (names : List (List String)) (sts : Int) (pmids : List (Option Nat)) : Prop where
  pmids : Forall₂ (fun name pmid => ∀ p, pmid = some p ↔ env.Names name p) names pmids
  all : (∀ name ∈ names, ∃ p, env.Names name p) → sts = names.length
  bad : ∀ name ∈ names, env.Bad name → (∃ name ∈ names, ∀ p, ¬env.Names name p) → sts < 0
  some : (∀ name ∈ names, ¬env.Bad name) → (∃ name ∈ names, ∀ p, ¬env.Names name p) →
    let n := names.countP fun name => ∃ p, env.InSpace name p
    sts = if n = 0 ∧ names.length = 1 then pmErrName else (n : Int)

end Spec

variable {env : Env} {name : List String} {names : List (List String)}

theorem Root.unique (h : env.Root name k root) (h' : env.Root name k root') : root = root' := by
  obtain ⟨n, -, hn, ha, hl⟩ := h
  obtain ⟨n', -, hn', ha', hl'⟩ := h'
  obtain rfl : n = n' := by
    rcases Nat.lt_trichotomy n n' with h | h | h
    · exact absurd ha' (hl n' h hn' root')
    · exact h
    · exact absurd ha (hl' n h hn root)
  simpa using ha.left.symm.trans ha'.left

theorem root_succ (h : ∀ r, ¬env.Answers name (k + 1) r) :
    env.Root name (k + 1) root ↔ env.Root name k root := by
  refine exists_congr fun n => and_congr_right fun _ => ?_
  refine ⟨fun ⟨hn, ha, hl⟩ => ?_, fun ⟨hn, ha, hl⟩ => ?_⟩
  · have : n ≠ k + 1 := by
      rintro rfl
      exact h root ha
    exact ⟨by omega, ha, fun m hm hk => hl m hm (by omega)⟩
  · refine ⟨by omega, ha, fun m hm hk => ?_⟩
    by_cases he : m = k + 1
    · exact he ▸ h
    · exact hl m hm (by omega)

theorem root_self (h : env.Answers name (k + 1) r) : env.Root name (k + 1) root ↔ root = r := by
  have hr : env.Root name (k + 1) r := ⟨k + 1, by omega, Nat.le_refl _, h, fun m _ _ => by omega⟩
  exact ⟨fun h' => h'.unique hr, fun h' => h' ▸ hr⟩

structure Lookup (sts : Int) (nfail : Nat) (r : Found) (found : Nat → Prop) (bad : Prop) :
    Prop where
  pmid : ∀ p, r.1 = some p ↔ found p
  sts : (bad → r.2.1 < 0) ∧ (¬bad → r.2.1 = sts)
  nfail : r.2.2 = nfail + if r.1.isNone then 1 else 0

variable (name) in
theorem findDynamic_lookup (sts : Int) (nfail k : Nat) :
    Lookup sts nfail (env.findDynamic name sts (nfail + 1) k)
      (fun p => ∃ root, env.Root name k root ∧ env.Says name root p)
      (∃ root, env.Root name k root ∧
        ∃ dsos, env.dsos = some dsos ∧ dsos (cluster root) = none) := by
  induction k
  case zero =>
    have hr : ∀ root, ¬env.Root name 0 root := fun _ ⟨n, h, h', _⟩ => by omega
    exact ⟨by simp [findDynamic, hr], by simp [findDynamic, hr], by simp [findDynamic]⟩
  case succ k hi =>
    rw [findDynamic]
    split
    case h_1 hn =>
      have ha : ∀ r, ¬env.Answers name (k + 1) r := by
        rintro r ⟨hr, hd, -⟩
        simp [hr, hd] at hn
      simpa only [root_succ ha] using hi
    case h_2 root hp hd =>
      simp only [Option.filter_eq_some_iff, Option.join_eq_some_iff] at hp
      have ha : env.Answers name (k + 1) root := ⟨hp.1, hp.2, by simp [hd]⟩
      simp only [root_self ha, exists_eq_left]
      exact ⟨by simp [Says, hd, eq_comm], by simp [hd], by simp⟩
    case h_3 root dsos hp hd =>
      simp only [Option.filter_eq_some_iff, Option.join_eq_some_iff] at hp
      split
      case h_1 hc =>
        have ha : env.Answers name (k + 1) root := ⟨hp.1, hp.2, by simp [hd, hc]⟩
        simp only [root_self ha, exists_eq_left]
        refine ⟨by simp [Says, hd, hc], ⟨fun _ => ?_, fun h => absurd ⟨dsos, hd, hc⟩ h⟩, by simp⟩
        dsimp only [pmErrNoagent]
        split <;> omega
      case h_2 hc =>
        have ha : ∀ r, ¬env.Answers name (k + 1) r := by
          rintro r ⟨hr, -, hn⟩
          cases hp.1.symm.trans hr
          exact hn dsos hd hc
        simpa only [root_succ ha] using hi
      case h_3 f hf =>
        have ha : env.Answers name (k + 1) root := ⟨hp.1, hp.2, by simp [hd, hf]⟩
        simp only [root_self ha, exists_eq_left]
        cases he : f name
        all_goals exact ⟨by simp [Says, hd, hf, he], by simp [hd, hf], by simp⟩

variable (name) in
theorem lookup_lookup (sts : Int) (nfail : Nat) :
    Lookup sts nfail (env.lookup name sts nfail) (env.InSpace name) (env.Bad name) := by
  rw [lookup]
  split
  case h_1 pmid hp => exact ⟨by simp [InSpace, hp], by simp [Bad, hp], by simp⟩
  case h_2 hp => exact ⟨by simp [InSpace, hp], by simp [Bad, hp, pmErrNonleaf], by simp⟩
  case h_3 hp =>
    have ⟨hp', hs, hn⟩ := env.findDynamic_lookup name sts nfail (name.length - 1)
    exact ⟨by simp [InSpace, hp, hp'], by simpa [Bad, hp] using hs, hn⟩

def Each (q : List String → Nat → Prop) : List (List String) → List (Option Nat) → Prop :=
  Forall₂ fun name pmid => ∀ p, pmid = some p ↔ q name p

theorem Each.mem_none (h : Each q names pmids) : none ∈ pmids ↔ ∃ name ∈ names, ∀ p, ¬q name p := by
  induction h
  case nil => simp
  case cons name pmid names pmids hp _ hi =>
    simp [hi, ← hp, Option.eq_none_iff_forall_ne_some, eq_comm]

open Classical in
theorem Each.countP (h : Each q names pmids) :
    names.countP (fun name => ∃ p, q name p) + pmids.count none = names.length := by
  induction h
  case nil => rfl
  case cons name pmid names pmids hp _ hi =>
    simp only [← hp, countP_cons, count_cons, length_cons]
    cases pmid <;> simp <;> omega

theorem lookupAll_spec (names : List (List String)) (hs : sts ≤ 0) (nfail : Nat) :
    let r := env.lookupAll sts nfail names
    Each env.InSpace names r.1 ∧ ((∃ name ∈ names, env.Bad name) → r.2.1 < 0) ∧
      ((∀ name ∈ names, ¬env.Bad name) → r.2.1 = sts) ∧ r.2.1 ≤ 0 ∧
      r.2.2 = nfail + r.1.count none := by
  induction names generalizing sts nfail
  case nil => exact ⟨.nil, by simp, by simp [lookupAll], hs, by simp [lookupAll]⟩
  case cons name names hi =>
    have hl := env.lookup_lookup name sts nfail
    rcases hr : env.lookup name sts nfail with ⟨pmid, sts₁, nfail₁⟩
    rw [hr] at hl
    have hs₁ : sts₁ ≤ 0 := by
      have ⟨hb, hn⟩ := hl.sts
      by_cases h : env.Bad name <;> grind
    have ⟨he, hb, hg, hs', hn⟩ := hi hs₁ nfail₁
    have hl' : nfail₁ = nfail + if pmid.isNone then 1 else 0 := hl.nfail
    simp only [lookupAll, hr, mem_cons, exists_eq_or_imp, forall_eq_or_imp]
    refine ⟨.cons hl.pmid he, ?_, ?_, hs', ?_⟩
    · have := hl.sts.left
      by_cases h : ∃ name ∈ names, env.Bad name <;> grind
    · rintro ⟨h, h'⟩
      rw [hg h']
      exact hl.sts.right h
    · simp only [hn, count_cons]
      cases pmid <;> simp at hl' ⊢ <;> omega

theorem addDerived_spec (h : Each env.InSpace names pmids) (nfail : Nat) :
    let r := env.addDerived nfail names pmids
    Each env.Names names r.1 ∧ r.2 = nfail + r.1.count none := by
  induction h generalizing nfail
  case nil => exact ⟨.nil, rfl⟩
  case cons name pmid names pmids hp _ hi =>
    have ⟨he, hn⟩ := hi (if (pmid.or (env.dmgetpmid name)).isNone then nfail + 1 else nfail)
    simp only [addDerived]
    refine ⟨.cons (fun p => ?_) he, ?_⟩
    · simp only [Option.or_eq_some_iff, Names, hp, Option.eq_none_iff_forall_ne_some, ne_eq]
    · simp only [hn, count_cons]
      cases pmid.or (env.dmgetpmid name) <;> simp
      omega

theorem addDerived_of_count (h : pmids.length = names.length) (hc : none ∉ pmids) (nfail : Nat) :
    env.addDerived nfail names pmids = (pmids, nfail) := by
  induction pmids generalizing names
  case nil => cases names <;> simp [addDerived]
  case cons pmid pmids hi =>
    cases names
    case nil => cases h
    case cons name names =>
      cases pmid
      case none => cases hc mem_cons_self
      case some =>
        simp [addDerived, hi (Nat.succ.inj h) fun hm => hc (mem_cons_of_mem _ hm)]

theorem pmLookupName_eq (hn : names ≠ []) :
    let first := env.lookupAll 0 0 names
    let last := env.addDerived 0 names first.1
    let sts := if last.2 = 0 then (names.length : Int)
      else if first.2.1 = 0 then names.length - first.2.2 else first.2.1
    env.pmLookupName names = (if sts = 0 ∧ names.length = 1 then pmErrName else sts, last.1) := by
  obtain ⟨he, -, -, hs, hf⟩ := env.lookupAll_spec names (Int.le_refl 0) 0
  have hc : _ → env.addDerived 0 names _ = _ := fun h => addDerived_of_count he.length_eq.symm h 0
  have hl := length_pos_of_ne_nil hn
  rw [pmLookupName]
  grind

theorem pmLookupName_looked (hn : names ≠ []) :
    env.Looked names (env.pmLookupName names).1 (env.pmLookupName names).2 := by
  obtain ⟨he, hb, hg, -, hf⟩ := env.lookupAll_spec names (Int.le_refl 0) 0
  have ⟨hd, hf'⟩ := addDerived_spec he 0
  have hl := length_pos_of_ne_nil hn
  have hz : (env.addDerived 0 names (env.lookupAll 0 0 names).1).2 = 0 ↔
      ∀ name ∈ names, ∃ p, env.Names name p := by
    rw [hf', Nat.zero_add, count_eq_zero, hd.mem_none]
    simp
  have hz' : (∃ name ∈ names, ∀ p, ¬env.Names name p) →
      (env.addDerived 0 names (env.lookupAll 0 0 names).1).2 ≠ 0 := by
    simp [hz]
  simp only [pmLookupName_eq hn]
  refine ⟨hd, fun h => ?_, fun name hm hbad h => ?_, fun h h' => ?_⟩
  · simp only [hz.mpr h, if_true]
    split <;> omega
  · have := hb ⟨name, hm, hbad⟩
    simp only [hz' h, if_false]
    split_ifs <;> simp [pmErrName] <;> omega
  · have hc := he.countP
    simp only [hz' h', if_false, hg h, if_true, hf]
    grind

end Env

-- One name is a metric, and one is a derived metric.
def leafAndDerived : Env where
  pmns := ⟨[["a"]], [[(["a"], 5)]], some false, fun p => !Tree.above [(["a"], 5)] p⟩
  dsos := none
  derived := [(["b"], 7)]

theorem pmLookupName_two_of_three :
    leafAndDerived.pmLookupName [["a"], ["b"], ["c"]] = (1, [some 5, some 7, none]) := by
  decide

theorem pmLookupName_looked_three :
    leafAndDerived.Looked [["a"], ["b"], ["c"]] 1 [some 5, some 7, none] := by
  have h : leafAndDerived.pmLookupName [["a"], ["b"], ["c"]] = (1, [some 5, some 7, none]) := by
    decide
  have hn : [["a"], ["b"], ["c"]] ≠ [] := by simp
  have hl := leafAndDerived.pmLookupName_looked hn
  rwa [h] at hl

end Pmns
