import Mathlib.Data.List.Induction
import Mathlib.Data.List.Nodup
import PcpModel.Derive.Parser
import PcpModel.Pmapi.Header

-- The names below a name (derive.c, pmns.c).
namespace Derive

open List Pcp

def dot : Int8 :=
  46

inductive Match
  | other
  | self
  | below (rest : Text)

structure Child where
  name : Text
  nonleaf : Bool
  deriving DecidableEq

def matchName (name m : Text) : Match :=
  let rest := m.drop name.length
  if name = [] ∨ name.isPrefixOf m ∧ (rest.head? = some dot ∨ rest = []) then
    if rest = [] then .self else .below (m.drop (if 0 < name.length then name.length + 1 else 0))
  else .other

-- Components are compared in place, so that only a name that continues after one is recognised.
def known (children : List Child) (rest : Text) : Bool :=
  children.any fun c => c.name.isPrefixOf rest ∧ (rest.drop c.name.length).head? = some dot

def component (rest : Text) : Text :=
  rest.takeWhile (· ≠ dot)

def newChild (rest : Text) : Child :=
  ⟨component rest, rest.drop (component rest).length ≠ []⟩

def addChild (children : List Child) (rest : Text) : List Child :=
  if known children rest then children else children ++ [newChild rest]

def dmLoop (name : Text) : List Child → List Text → Option (Option (List Child))
  | children, [] => some (some children)
  | children, m :: ms =>
    match matchName name m with
    | .other => dmLoop name children ms
    | .self => if children = [] then some none else none
    | .below rest => dmLoop name (addChild children rest) ms

def dmchildren (r : Registry) (name : Text) : Option (Int × List Child) := do
  match ← dmLoop name [] r.names with
  | none => return (0, [])
  | some children =>
    if children = [] then return (pmErrName, []) else return (children.length, children)

def unlisted (offspring xs : List Child) : List Child :=
  xs.filter fun x => ¬offspring.any (·.name = x.name)

-- The number is counted down for each duplicate.
def stitchList (num : Int) (offspring xs : List Child) : Int × List Child :=
  let nNum := (if num > 0 then num + xs.length else xs.length) -
    (xs.length - (unlisted offspring xs).length)
  (nNum, offspring ++ unlisted offspring xs)

def withDerived (r : Registry) (name : Text) (num : Int) (offspring : List Child) :
    Option (Int × List Child) := do
  let (dmNum, dmOffspring) ← dmchildren r name
  if dmNum > 0 then return stitchList num offspring dmOffspring
  else if dmNum = 0 ∧ num < 0 then return (0, offspring)
  else return (num, offspring)

-- What is below a name: the rest of a name that starts with it.
def Below (name m rest : Text) : Prop :=
  if name = [] then m = rest else m = name ++ dot :: rest

theorem below_other (hn : name ≠ []) : Below name m rest ↔ m = name ++ dot :: rest := by
  rw [Below, if_neg hn]

theorem matchName_cases (name : Text) (hm : m ≠ []) :
    (matchName name m = .self ∧ m = name) ∨
    (∃ rest, matchName name m = .below rest ∧ Below name m rest) ∨
    matchName name m = .other ∧ m ≠ name ∧ ∀ rest, ¬Below name m rest := by
  by_cases hn : name = []
  case pos =>
    subst hn
    exact .inr <| .inl ⟨m, by simp [matchName, hm], rfl⟩
  case neg =>
    simp only [below_other hn]
    by_cases hp : name <+: m
    case neg =>
      refine .inr <| .inr ⟨by simp [matchName, hn, hp], ?_, ?_⟩
      · rintro rfl
        exact hp (prefix_refl _)
      · rintro rest rfl
        exact hp (prefix_append _ _)
    case pos =>
      obtain ⟨t, rfl⟩ := hp
      rcases t with _ | ⟨c, t⟩
      · exact .inl ⟨by simp [matchName], append_nil name⟩
      · by_cases hc : c = dot
        · subst hc
          exact .inr <| .inl ⟨t, by simp [matchName, length_pos_iff, hn], rfl⟩
        · exact .inr <| .inr ⟨by simp [matchName, hn, hc], by simp, by simp [hc]⟩

theorem component_append (hc : dot ∉ c) : component (c ++ dot :: t) = c := by
  have hp : ∀ x ∈ c, decide (x ≠ dot) = true := fun x hx => decide_eq_true fun h => hc (h ▸ hx)
  rw [component, takeWhile_append_of_pos hp, takeWhile_cons_of_neg (by simp),
    append_nil]

theorem dot_notMem_component (rest : Text) : dot ∉ component rest :=
  fun h => by simpa using mem_takeWhile_imp h

theorem component_cases (rest : Text) :
    (dot ∉ rest ∧ component rest = rest) ∨ ∃ t, rest = component rest ++ dot :: t := by
  induction rest
  case nil => exact .inl ⟨by simp, rfl⟩
  case cons c rest ih =>
    by_cases hc : c = dot
    case pos => exact .inr ⟨rest, by simp [component, hc]⟩
    case neg =>
      have he : component (c :: rest) = c :: component rest := by simp [component, hc]
      rw [he]
      rcases ih with ⟨hd, ih⟩ | ⟨t, ht⟩
      · exact .inl ⟨by simp [Ne.symm hc, hd], by rw [ih]⟩
      · exact .inr ⟨t, by rw [cons_append, ← ht]⟩

def Child.names (cs : List Child) : List Text :=
  cs.map (·.name)

-- The children that have been found in `rests`. A child that is a leaf stands for one of them.
structure Collected (rests : List Text) (cs : List Child) : Prop where
  names : ∀ c, c ∈ Child.names cs ↔ ∃ rest ∈ rests, component rest = c
  nonleaf : ∀ c ∈ cs, c.nonleaf = true → ∃ t, c.name ++ dot :: t ∈ rests
  isLeaf : ∀ c ∈ cs, c.nonleaf = false → c.name ∈ rests
  leaf : ∀ rest ∈ rests, dot ∉ rest → ⟨rest, false⟩ ∈ cs

namespace Collected

variable {rests : List Text} {cs : List Child}

theorem dot_notMem (hc : Collected rests cs) (h : c ∈ Child.names cs) : dot ∉ c := by
  obtain ⟨rest, -, rfl⟩ := (hc.names c).mp h
  exact dot_notMem_component rest

theorem known_iff :
    known cs rest ↔ ∃ c ∈ Child.names cs, ∃ t, rest = c ++ dot :: t := by
  simp only [known, any_eq_true, decide_eq_true_eq, Child.names, mem_map]
  constructor
  · rintro ⟨c, hm, hp, hd⟩
    obtain ⟨t, rfl⟩ := isPrefixOf_iff_prefix.mp hp
    rcases t with _ | ⟨x, t⟩
    · simp at hd
    · obtain rfl : x = dot := by simpa using hd
      exact ⟨_, ⟨c, hm, rfl⟩, t, rfl⟩
  · rintro ⟨_, ⟨c, hm, rfl⟩, t, rfl⟩
    exact ⟨c, hm, by simp, by simp⟩

theorem addChild_known (hc : Collected rests cs) (hm : c ∈ Child.names cs) :
    Collected (rests ++ [c ++ dot :: t]) cs where
  names c' := by
    have he := component_append (t := t) (hc.dot_notMem hm)
    simp only [mem_append, mem_singleton, or_and_right, exists_or, exists_eq_left, he]
    rw [hc.names]
    exact ⟨.inl, fun h => h.elim id fun h => h ▸ (hc.names c).mp hm⟩
  nonleaf d hd hl := by
    obtain ⟨t', ht⟩ := hc.nonleaf d hd hl
    exact ⟨t', mem_append_left _ ht⟩
  isLeaf d hd hl := mem_append_left _ (hc.isLeaf d hd hl)
  leaf r hr hd := by
    rcases mem_append.mp hr with hr | hr
    · exact hc.leaf r hr hd
    · obtain rfl := mem_singleton.mp hr
      exact absurd (by simp) hd

theorem addChild_new (hc : Collected rests cs) (rest : Text) :
    Collected (rests ++ [rest]) (cs ++ [newChild rest]) where
  names c := by
    have hn : Child.names (cs ++ [newChild rest]) = Child.names cs ++ [component rest] := by
      simp [Child.names, newChild]
    rw [hn, mem_append, hc.names]
    simp only [mem_append, mem_singleton, or_and_right, exists_or, exists_eq_left]
    exact or_congr_right eq_comm
  nonleaf c hm hl := by
    rcases mem_append.mp hm with hm | hm
    · obtain ⟨t, ht⟩ := hc.nonleaf c hm hl
      exact ⟨t, mem_append_left _ ht⟩
    · obtain rfl := mem_singleton.mp hm
      rcases component_cases rest with ⟨-, he⟩ | ⟨t, ht⟩
      · simp [newChild, he] at hl
      · exact ⟨t, mem_append_right _ (mem_singleton.mpr ht.symm)⟩
  isLeaf c hm hl := by
    rcases mem_append.mp hm with hm | hm
    · exact mem_append_left _ (hc.isLeaf c hm hl)
    · obtain rfl := mem_singleton.mp hm
      rcases component_cases rest with ⟨-, he⟩ | ⟨t, ht⟩
      · exact mem_append_right _ (mem_singleton.mpr he)
      · have hd : rest.drop (component rest).length = dot :: t := by
          conv_lhs => rw [ht, component_append (dot_notMem_component rest), drop_left]
        simp [newChild, hd] at hl
  leaf r hr hd := by
    rcases mem_append.mp hr with hr | hr
    · exact mem_append_left _ (hc.leaf r hr hd)
    · obtain rfl := mem_singleton.mp hr
      rcases component_cases r with ⟨-, he⟩ | ⟨t, ht⟩
      · exact mem_append_right _ (by simp [newChild, he])
      · exact absurd (ht ▸ by simp) hd

theorem addChild (hc : Collected rests cs) (rest : Text) :
    Collected (rests ++ [rest]) (addChild cs rest) := by
  unfold Derive.addChild
  split
  case isTrue hk =>
    obtain ⟨c, hm, t, rfl⟩ := known_iff.mp hk
    exact hc.addChild_known hm
  case isFalse => exact hc.addChild_new rest

theorem foldl (rests : List Text) : Collected rests (rests.foldl Derive.addChild []) := by
  induction rests using reverseRecOn
  case nil => exact ⟨by simp [Child.names], by simp, by simp, by simp⟩
  case append_singleton rests rest ih =>
    rw [foldl_append]
    exact ih.addChild rest

-- No name is at the same time the first component of another one.
def Flat (rests : List Text) : Prop :=
  ∀ c ∈ rests, dot ∉ c → ∀ t, c ++ dot :: t ∉ rests

theorem addChild_nodup (hc : Collected rests cs) (hn : (Child.names cs).Nodup) (hr : rest ∉ rests)
    (hf : Flat (rests ++ [rest])) : (Child.names (Derive.addChild cs rest)).Nodup := by
  unfold Derive.addChild
  split
  case isTrue => exact hn
  case isFalse hk =>
    have he : Child.names (cs ++ [newChild rest]) = Child.names cs ++ [component rest] := by
      simp [Child.names, newChild]
    rw [he, nodup_append_comm]
    refine nodup_cons.mpr ⟨fun hm => ?_, hn⟩
    obtain ⟨r, hmr, hcr⟩ := (hc.names _).mp hm
    rcases component_cases rest with ⟨hd, he⟩ | ⟨t, ht⟩
    · rcases component_cases r with ⟨-, he'⟩ | ⟨t, ht⟩
      · exact hr (he ▸ hcr ▸ he'.symm ▸ hmr)
      · refine hf rest (by simp) hd t (mem_append_left _ ?_)
        rwa [← he, ← hcr, ← ht]
    · exact hk (known_iff.mpr ⟨_, hm, t, ht⟩)

theorem foldl_nodup (hn : rests.Nodup) (hf : Flat rests) :
    (Child.names (rests.foldl Derive.addChild [])).Nodup := by
  induction rests using reverseRecOn
  case nil => exact .nil
  case append_singleton rests rest ih =>
    rw [foldl_append]
    have hr : rest ∉ rests ∧ rests.Nodup := by
      rwa [nodup_append_comm, singleton_append, nodup_cons] at hn
    have hf' : Flat rests := fun c hm hd t ht =>
      hf c (mem_append_left _ hm) hd t (mem_append_left _ ht)
    exact (foldl rests).addChild_nodup (ih hr.right hf') hr.left hf

end Collected

section Loop

variable {r : Registry}

def restOf (name m : Text) : Option Text :=
  match matchName name m with
  | .below rest => some rest
  | _ => none

def rests (name : Text) (ms : List Text) : List Text :=
  ms.filterMap (restOf name)

theorem below_inj (h : Below name m rest) (h' : Below name m rest') : rest = rest' := by
  by_cases hn : name = []
  case pos =>
    subst hn
    exact (show m = rest from h).symm.trans h'
  case neg =>
    rw [below_other hn] at h h'
    simpa using h.symm.trans h'

theorem below_unique (h : Below name m rest) (h' : Below name m' rest) : m = m' := by
  unfold Below at h h'
  split at h <;> simp_all

theorem below_ne (hn : name ≠ []) (h : Below name m rest) : m ≠ name := by
  rw [below_other hn] at h
  simp [h]

theorem restOf_eq_some (hm : m ≠ []) : restOf name m = some rest ↔ Below name m rest := by
  unfold restOf
  rcases matchName_cases name hm with ⟨h, rfl⟩ | ⟨rest', h, hb⟩ | ⟨h, -, hb⟩
  · simp only [h, reduceCtorEq, false_iff]
    exact fun hb => below_ne hm hb rfl
  · simp only [h, Option.some.injEq]
    exact ⟨fun he => he ▸ hb, below_inj hb⟩
  · simp only [h, reduceCtorEq, false_iff]
    exact hb rest

theorem mem_rests (hm : [] ∉ ms) : rest ∈ rests name ms ↔ ∃ m ∈ ms, Below name m rest := by
  rw [rests, mem_filterMap]
  exact exists_congr fun m => and_congr_right fun h => restOf_eq_some fun he => hm (he ▸ h)

theorem rests_nodup (hm : [] ∉ ms) (hn : ms.Nodup) : (rests name ms).Nodup := by
  refine pairwise_filterMap.mpr <| hn.imp_of_mem fun {m m'} hmm hmm' hne => ?_
  intro rest h rest' h' he
  rw [restOf_eq_some fun he => hm (he ▸ hmm)] at h
  rw [restOf_eq_some fun he => hm (he ▸ hmm'), ← he] at h'
  exact hne (below_unique h h')

theorem dmLoop_eq (hm : [] ∉ ms) (hn : name ∉ ms) :
    dmLoop name cs ms = some (some ((rests name ms).foldl addChild cs)) := by
  induction ms generalizing cs
  case nil => rfl
  case cons m ms ih =>
    obtain ⟨hm₁, hm⟩ := ne_and_not_mem_of_not_mem_cons hm
    obtain ⟨hn₁, hn⟩ := ne_and_not_mem_of_not_mem_cons hn
    rcases matchName_cases name (Ne.symm hm₁) with ⟨-, h⟩ | ⟨rest, h, -⟩ | ⟨h, -⟩
    · exact absurd h.symm hn₁
    · simp [dmLoop, rests, restOf, h, ih hm hn]
    · simp [dmLoop, rests, restOf, h, ih hm hn]

theorem dmLoop_self (hm : [] ∉ ms) (hn : name ∈ ms) :
    dmLoop name cs ms = none ∨ dmLoop name cs ms = some none := by
  induction ms generalizing cs
  case nil => simp at hn
  case cons m ms ih =>
    have hne : name ≠ [] := fun he => hm (he ▸ hn)
    obtain ⟨hm₁, hm⟩ := ne_and_not_mem_of_not_mem_cons hm
    rcases matchName_cases name (Ne.symm hm₁) with ⟨h, -⟩ | ⟨rest, h, hb⟩ | ⟨h, hne, -⟩
    · by_cases hc : cs = [] <;> simp [dmLoop, h, hc]
    · simpa [dmLoop, h] using ih hm (mem_of_ne_of_mem (Ne.symm (below_ne hne hb)) hn)
    · simpa [dmLoop, h] using ih hm (mem_of_ne_of_mem (Ne.symm hne) hn)

theorem dmLoop_leaf (hm : [] ∉ ms) (hn : name ∈ ms) (hb : rests name ms = []) :
    dmLoop name [] ms = some none := by
  induction ms
  case nil => simp at hn
  case cons m ms ih =>
    obtain ⟨hm₁, hm⟩ := ne_and_not_mem_of_not_mem_cons hm
    rcases matchName_cases name (Ne.symm hm₁) with ⟨h, -⟩ | ⟨rest, h, -⟩ | ⟨h, hne, -⟩
    · simp [dmLoop, h]
    · simp [rests, restOf, h] at hb
    · have hb : rests name ms = [] := by simpa [rests, restOf, h] using hb
      simpa [dmLoop, h] using ih hm (mem_of_ne_of_mem (Ne.symm hne) hn) hb

end Loop

section Children

def IsChild (ms : List Text) (name c : Text) : Prop :=
  ∃ m ∈ ms, ∃ rest, Below name m rest ∧ component rest = c

def IsParent (ms : List Text) (name c : Text) : Prop :=
  ∃ m ∈ ms, ∃ t, Below name m (c ++ dot :: t)

-- What `__dmchildren` is for: each component once, with its status.
structure Lists (ms : List Text) (name : Text) (sts : Int) (cs : List Child) : Prop where
  nodup : (Child.names cs).Nodup
  names : ∀ c, c ∈ Child.names cs ↔ IsChild ms name c
  status : ∀ c ∈ cs, c.nonleaf = true ↔ IsParent ms name c.name
  sts : if cs = [] then sts ≤ 0 else sts = cs.length

-- Neither the name nor a component below it is that of a metric if there are names below it.
structure Unnested (ms : List Text) (name : Text) : Prop where
  self : name ∈ ms → ∀ c, ¬IsChild ms name c
  child : ∀ c, dot ∉ c → (∃ m ∈ ms, Below name m c) → ¬IsParent ms name c

variable {r : Registry} {name : Text}

theorem flat_rests (hm : [] ∉ ms) (hu : Unnested ms name) : Collected.Flat (rests name ms) := by
  intro c hc hd t ht
  obtain ⟨m, hmm, hb⟩ := (mem_rests hm).mp ht
  exact hu.child c hd ((mem_rests hm).mp hc) ⟨m, hmm, t, hb⟩

theorem isChild_iff (hm : [] ∉ ms) :
    IsChild ms name c ↔ ∃ rest ∈ rests name ms, component rest = c := by
  simp only [mem_rests hm]
  constructor
  · rintro ⟨m, hmm, rest, hb, he⟩
    exact ⟨rest, ⟨m, hmm, hb⟩, he⟩
  · rintro ⟨rest, ⟨m, hmm, hb⟩, he⟩
    exact ⟨m, hmm, rest, hb, he⟩

theorem isParent_iff (hm : [] ∉ ms) :
    IsParent ms name c ↔ ∃ t, c ++ dot :: t ∈ rests name ms := by
  simp only [mem_rests hm]
  constructor
  · rintro ⟨m, hmm, t, hb⟩
    exact ⟨t, m, hmm, hb⟩
  · rintro ⟨t, m, hmm, hb⟩
    exact ⟨m, hmm, t, hb⟩

theorem dmchildren_notMem (hm : [] ∉ r.names) (hn : name ∉ r.names) :
    ∃ sts, dmchildren r name = some (sts, (rests name r.names).foldl addChild []) ∧
      if (rests name r.names).foldl addChild [] = [] then sts ≤ 0
      else sts = ((rests name r.names).foldl addChild []).length := by
  have hl : dmLoop name [] r.names = _ := dmLoop_eq hm hn
  by_cases hc : (rests name r.names).foldl addChild [] = []
  case pos => exact ⟨pmErrName, by simp [dmchildren, hl, hc], by simp [hc, pmErrName]⟩
  case neg => exact ⟨_, by simp [dmchildren, hl, hc]; rfl, by rw [if_neg hc]⟩

theorem unnested_of_lists (hm : [] ∉ r.names) (hd : dmchildren r name = some (sts, cs))
    (hl : Lists r.names name sts cs) : Unnested r.names name := by
  by_cases hn : name ∈ r.names
  case pos =>
    obtain ⟨-, rfl⟩ : 0 = sts ∧ [] = cs := by
      have hs : dmLoop name [] r.names = none ∨ dmLoop name [] r.names = some none :=
        dmLoop_self hm hn
      rcases hs with h | h
      · simp [dmchildren, h] at hd
      · simpa [dmchildren, h] using hd
    have hc (c : Text) : ¬IsChild r.names name c :=
      fun h => by simpa [Child.names] using (hl.names c).mpr h
    refine ⟨fun _ => hc, fun c _ _ hp => ?_⟩
    obtain ⟨m, hmm, t, hb⟩ := hp
    exact hc _ ⟨m, hmm, _, hb, rfl⟩
  case neg =>
    refine ⟨fun h => absurd h hn, fun c hdot hc hp => ?_⟩
    obtain ⟨sts', hd', -⟩ := dmchildren_notMem hm hn
    obtain ⟨-, rfl⟩ : _ ∧ _ := by simpa [hd'] using hd
    have hleaf := (Collected.foldl (rests name r.names)).leaf c ((mem_rests hm).mpr hc) hdot
    exact absurd ((hl.status _ hleaf).mpr hp) (by simp)

theorem lists_of_unnested (hm : [] ∉ r.names) (hn : r.names.Nodup) (hu : Unnested r.names name) :
    ∃ sts cs, dmchildren r name = some (sts, cs) ∧ Lists r.names name sts cs := by
  by_cases hs : name ∈ r.names
  case pos =>
    have hc := hu.self hs
    have hr : rests name r.names = [] := by
      refine eq_nil_iff_forall_not_mem.mpr fun rest h => ?_
      exact hc _ ((isChild_iff hm).mpr ⟨rest, h, rfl⟩)
    refine ⟨0, [], by simp [dmchildren, dmLoop_leaf hm hs hr], ?_⟩
    exact ⟨.nil, fun c => by simpa [Child.names] using hc c, by simp, by simp⟩
  case neg =>
    obtain ⟨sts, hd, hs⟩ := dmchildren_notMem hm hs
    have hc := Collected.foldl (rests name r.names)
    refine ⟨sts, _, hd, Collected.foldl_nodup (rests_nodup hm hn) (flat_rests hm hu), ?_, ?_, hs⟩
    · intro c
      rw [hc.names, isChild_iff hm]
    · intro c hmc
      rw [isParent_iff hm]
      refine ⟨hc.nonleaf c hmc, fun ⟨t, ht⟩ => ?_⟩
      by_contra hl
      have hl : c.nonleaf = false := by simpa using hl
      have hdot := hc.dot_notMem (mem_map_of_mem hmc)
      exact flat_rests hm hu _ (hc.isLeaf c hmc hl) hdot t ht

end Children

section Whole

variable {r : Registry} {cs xs : List Child}

theorem Child.mem_unlisted : x ∈ unlisted cs xs ↔ x ∈ xs ∧ x.name ∉ names cs := by
  simp [unlisted, names]

theorem Child.names_append : names (cs ++ xs) = names cs ++ names xs :=
  map_append

theorem Child.nodup_append_unlisted (hc : (names cs).Nodup) (hx : (names xs).Nodup) :
    (names (cs ++ unlisted cs xs)).Nodup := by
  rw [names_append, nodup_append]
  refine ⟨hc, hx.sublist (filter_sublist.map _), ?_⟩
  intro c hc d hd he
  obtain ⟨x, hm, rfl⟩ := mem_map.mp hd
  exact (mem_unlisted.mp hm).right (he ▸ hc)

theorem Child.mem_names_append_unlisted :
    c ∈ names (cs ++ unlisted cs xs) ↔ c ∈ names cs ∨ c ∈ names xs := by
  rw [names_append, mem_append]
  constructor
  · rintro (h | h)
    · exact .inl h
    · obtain ⟨x, hm, rfl⟩ := mem_map.mp h
      exact .inr (mem_map_of_mem (mem_unlisted.mp hm).left)
  · rintro (h | h)
    · exact .inl h
    · obtain ⟨x, hm, rfl⟩ := mem_map.mp h
      by_cases hx : x.name ∈ names cs
      · exact .inl hx
      · exact .inr (mem_map_of_mem (mem_unlisted.mpr ⟨hm, hx⟩))

-- The regular children, of which there are none if there is an error or a leaf.
structure Regular (num : Int) (offspring : List Child) : Prop where
  nodup : (Child.names offspring).Nodup
  num : num = offspring.length ∨ num < 0 ∧ offspring = []

theorem stitchList_eq (hr : Regular num cs) :
    stitchList num cs xs = (((cs ++ unlisted cs xs).length : Int), cs ++ unlisted cs xs) := by
  refine Prod.ext ?_ rfl
  change (if num > 0 then num + xs.length else (xs.length : Int)) -
    (xs.length - (unlisted cs xs).length) = _
  rw [length_append]
  rcases hr.num with rfl | ⟨hn, rfl⟩
  · push_cast
    split <;> omega
  · rw [if_neg (by omega)]
    simp only [length_nil]
    omega

theorem withDerived_names (hr : Regular num cs) (hd : dmchildren r name = some (sts, xs))
    (hl : Lists r.names name sts xs) :
    ∃ n all, withDerived r name num cs = some (n, all) ∧ (Child.names all).Nodup ∧
      (∀ c, c ∈ Child.names all ↔ c ∈ Child.names cs ∨ IsChild r.names name c) ∧
      (all ≠ [] → n = all.length) := by
  by_cases hs : sts > 0
  case pos =>
    refine ⟨(cs ++ unlisted cs xs).length, cs ++ unlisted cs xs, ?_,
      Child.nodup_append_unlisted hr.nodup hl.nodup, fun c => ?_, fun _ => rfl⟩
    · simp only [withDerived, hd, Option.bind_eq_bind, Option.bind_some, if_pos hs,
        stitchList_eq hr]
      rfl
    · rw [Child.mem_names_append_unlisted, hl.names]
  case neg =>
    have hx : xs = [] := by
      by_contra hx
      have := hl.sts
      rw [if_neg hx] at this
      have := length_pos_iff.mpr hx
      omega
    have hn (c : Text) : ¬IsChild r.names name c := by
      rw [← hl.names, hx]
      simp [Child.names]
    have hnum : cs ≠ [] → num = cs.length := by
      intro hc
      exact hr.num.resolve_right fun h => hc h.right
    by_cases hz : sts = 0 ∧ num < 0
    case pos =>
      refine ⟨0, cs, by simp [withDerived, hd, hz], hr.nodup, by simp [hn], fun hc => ?_⟩
      have := hnum hc
      omega
    case neg =>
      exact ⟨num, cs, by simp [withDerived, hd, hs, hz], hr.nodup, by simp [hn], hnum⟩

end Whole

theorem dmchildren_lists {r : Registry} (hm : [] ∉ r.names) (hn : r.names.Nodup) (name : Text) :
    ((∃ sts cs, dmchildren r name = some (sts, cs) ∧ Lists r.names name sts cs) ↔
      Unnested r.names name) ∧
    (Unnested r.names name → ∀ num cs, Regular num cs →
      ∃ n all, withDerived r name num cs = some (n, all) ∧ (Child.names all).Nodup ∧
        (∀ c, c ∈ Child.names all ↔ c ∈ Child.names cs ∨ IsChild r.names name c) ∧
        (all ≠ [] → n = all.length)) := by
  refine ⟨⟨?_, lists_of_unnested hm hn⟩, ?_⟩
  · rintro ⟨sts, cs, hd, hl⟩
    exact unnested_of_lists hm hd hl
  · intro hu num cs hr
    obtain ⟨sts, xs, hd, hl⟩ := lists_of_unnested hm hn hu
    exact withDerived_names hr hd hl

-- The metrics "a.b" and "a.c".
theorem dmchildren_lists_two :
    let r := Registry.empty.add [97, 46, 98] (.name [120] false)
      |>.add [97, 46, 99] (.name [120] false)
    ∃ sts cs, dmchildren r [97] = some (sts, cs) ∧ Lists r.names [97] sts cs := by
  intro r
  refine (dmchildren_lists (r := r) (by decide) (by decide) [97]).left.mpr ⟨?_, ?_⟩
  · exact fun h => absurd h (by decide)
  · rintro c - - ⟨m, hm, t, hb⟩
    rw [below_other (cons_ne_nil _ _)] at hb
    have hd : dot ∈ m.drop 2 := by simp [hb]
    exact absurd hd ((show ∀ m ∈ r.names, dot ∉ m.drop 2 by decide) m hm)

-- With "a.b" and "a" the assertion fails, and with "a.b.c" and "a.b" there are two children "b".
theorem dmchildren_nested :
    let register (m n : Text) := (Registry.empty.pmRegisterDerived m [120]).1
      |>.pmRegisterDerived n [120] |>.1
    dmchildren (register [97, 46, 98] [97]) [97] = none ∧
      dmchildren (register [97, 46, 98, 46, 99] [97, 46, 98]) [97] =
        some (2, [⟨[98], true⟩, ⟨[98], false⟩]) := by
  decide +kernel

end Derive
