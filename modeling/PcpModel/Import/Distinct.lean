import Mathlib.Data.List.Nodup
import PcpModel.Import.Basic
import PcpModel.Library.Run

-- The metrics and the instances that are added to a context (pmiAddMetric and pmiAddInstance).
namespace Import

open Pcp

inductive Add
  | metric (name : Str) (pmid : Nat) (type : PmType) (indom : Nat) (sem : Int)
  | inst (indom : Nat) (name : Str) (inst : Int)

def short (name : Str) : Str :=
  name.takeWhile (· ≠ 32)

namespace Context

def start : Context :=
  ⟨none, [], [], []⟩

variable (cur : Context)

def add : Add → Int × Context
  | .metric name pmid type indom sem => cur.addMetric name pmid type indom sem
  | .inst indom name inst => cur.addInstance indom name inst

def insts (indom : Nat) : List (Str × Int) :=
  ((cur.indom.find? (·.indom = indom)).getD { indom, inst := [] }).inst

structure Distinct : Prop where
  names : (cur.metric.map (·.name)).Nodup
  pmids : (cur.metric.map (·.pmid)).Nodup
  ids indom : ((cur.insts indom).map (·.2)).Nodup
  shorts indom : ((cur.insts indom).map (short ·.1)).Nodup

-- If a metric or an instance is added, the pmid that is chosen for it is not there, or no name of
-- an instance is equal up to the first space, where only one of the two has a space.
def Fresh : Add → Prop
  | .metric name pmid type _ sem =>
    name ∉ cur.metric.map (·.name) → pmid ∉ cur.metric.map (·.pmid) → type ≠ .other →
      sem ∈ [1, 3, 4] → pmid = pmIdNull →
      pmiDomain <<< 22 + (cur.metric.length + 1) % 1024 ∉ cur.metric.map (·.pmid)
  | .inst indom name inst =>
    inst ∉ (cur.insts indom).map (·.2) →
      ∀ j ∈ cur.insts indom, short j.1 = short name → (32 ∈ j.1 ↔ 32 ∈ name)

variable {cur : Context}

theorem nodup_concat {f : α → β} : ((l ++ [a]).map f).Nodup ↔ (l.map f).Nodup ∧ f a ∉ l.map f := by
  simp [List.nodup_append]

theorem distinct_addMetric (h : cur.Distinct) :
    (cur.addMetric name pmid type i sem).2.Distinct ↔ cur.Fresh (.metric name pmid type i sem) := by
  rw [addMetric]
  split
  case h_1 mp hf =>
    have hm := List.mem_of_find?_eq_some hf
    have he : mp.name = name ∨ mp.pmid = pmid := by simpa using List.find?_some hf
    exact iff_of_true h fun hn hp => by grind
  case h_2 hf =>
    split
    case isTrue ht => exact iff_of_true h fun _ _ hn => absurd ht hn
    split
    case isTrue hs => exact iff_of_true h fun _ _ _ hn => absurd hn hs
    case isFalse ht hs =>
      have hn : ∀ mp ∈ cur.metric, mp.name ≠ name ∧ mp.pmid ≠ pmid := by simpa using hf
      constructor
      case mp =>
        intro h' _ _ _ _ hp
        simpa [hp] using (nodup_concat.mp h'.pmids).right
      case mpr =>
        intro hk
        refine ⟨nodup_concat.mpr ⟨h.names, by grind⟩, nodup_concat.mpr ⟨h.pmids, ?_⟩, h.ids,
          h.shorts⟩
        dsimp only
        split
        case isTrue hp => exact hk (by grind) (by grind) ht (not_not.mp hs) hp
        case isFalse => grind

theorem sameInst_cons (hc : c ≠ 32) :
    sameInst (c :: name) old ↔ ∃ old', old = c :: old' ∧ sameInst name old' := by
  have hm : 32 ∈ c :: name ↔ 32 ∈ name := by simp [hc.symm]
  cases old
  case nil => simp [sameInst]
  case cons d old =>
    simp only [sameInst, hm, List.idxOf_cons_ne _ hc, List.take_succ_cons, List.cons.injEq]
    grind

theorem short_cons : short (c :: name) = if c = 32 then [] else c :: short name := by
  simp [short, List.takeWhile_cons]

theorem sameInst_iff : sameInst name old ↔ short old = short name ∧ (32 ∈ old ↔ 32 ∈ name) := by
  induction name generalizing old
  case nil =>
    have hn : short [] = [] := rfl
    cases old <;> simp [sameInst, short_cons, hn]
    grind
  case cons c name hi =>
    by_cases hc : c = 32
    · cases old <;> simp [sameInst, short_cons, hc]
      grind
    · rw [sameInst_cons hc, short_cons, if_neg hc]
      cases old
      case nil => simp [short]
      case cons d old =>
        simp only [List.cons.injEq, hi, short_cons]
        grind

theorem find?_put {l : List Indom} (h : d.indom = i) :
    ((if l.any (·.indom = i) then l else l ++ [d]).map fun e => if e.indom = i then d else e).find?
        (·.indom = i') = if i' = i then some d else l.find? (·.indom = i') := by
  have hp (e : Indom) : (if e.indom = i then d else e).indom = e.indom := by grind
  simp only [List.find?_map, Function.comp_def, hp]
  cases hf : l.find? (·.indom = i') <;> grind

theorem addInstance_ok
    (h : (cur.insts i).find? (fun j => sameInst name j.1 ∨ inst = j.2) = none) :
    ∃ l, cur.addInstance i name inst = (0, { cur with indom := l }) ∧
      ∀ i' : Nat, ({ cur with indom := l } : Context).insts i' =
        if i' = i then cur.insts i ++ [(name, inst)] else cur.insts i' := by
  have hd : ((cur.indom.find? (·.indom = i)).getD { indom := i, inst := [] }).indom = i := by
    cases hf : cur.indom.find? (·.indom = i)
    case none => rfl
    case some d => simpa using List.find?_some hf
  rw [insts] at h
  simp only [addInstance, h]
  refine ⟨_, rfl, fun i' => ?_⟩
  simp only [insts, find?_put, hd]
  split <;> rfl

theorem distinct_addInstance (h : cur.Distinct) :
    (cur.addInstance i name inst).2.Distinct ↔ cur.Fresh (.inst i name inst) := by
  cases hf : (cur.insts i).find? fun j => sameInst name j.1 ∨ inst = j.2
  case some j =>
    have hj := List.mem_of_find?_eq_some hf
    have hs : sameInst name j.1 ∨ inst = j.2 := by simpa using List.find?_some hf
    rw [insts] at hf
    simp only [addInstance, hf]
    refine iff_of_true h fun hn j' hj' he => ?_
    rcases hs with hs | rfl
    · -- The names are different up to the first space, so this is the one that was found.
      have ⟨hs, hsp⟩ := sameInst_iff.mp hs
      cases List.inj_on_of_nodup_map (h.shorts i) hj' hj (he.trans hs.symm)
      exact hsp
    · exact absurd (List.mem_map_of_mem hj) hn
  case none =>
    obtain ⟨l, he, hi⟩ := addInstance_ok hf
    have hn : ∀ j ∈ cur.insts i, ¬sameInst name j.1 ∧ inst ≠ j.2 := by simpa using hf
    rw [he]
    constructor
    case mp =>
      intro h' _ j hj hs
      have := h'.shorts i
      rw [hi, if_pos rfl] at this
      exact absurd (List.mem_map.mpr ⟨j, hj, hs⟩) (nodup_concat.mp this).right
    case mpr =>
      intro hk
      refine ⟨h.names, h.pmids, fun i' => ?_, fun i' => ?_⟩
      · rw [hi]
        split
        · refine nodup_concat.mpr ⟨h.ids i, ?_⟩
          grind
        · exact h.ids i'
      · rw [hi]
        split
        · refine nodup_concat.mpr ⟨h.shorts i, fun hm => ?_⟩
          obtain ⟨j, hj, hs⟩ := List.mem_map.mp hm
          exact (hn j hj).left (sameInst_iff.mpr ⟨hs, hk (by grind) j hj hs⟩)
        · exact h.shorts i'

theorem Distinct.step (h : cur.Distinct) (call : Add) :
    (cur.add call).2.Distinct ↔ cur.Fresh call := by
  cases call
  case metric => exact distinct_addMetric h
  case inst => exact distinct_addInstance h

theorem start_distinct : start.Distinct :=
  ⟨.nil, .nil, fun _ => .nil, fun _ => .nil⟩

theorem add_distinct_iff (calls : List Add) :
    Run.Always (fun cur call => some (cur.add call).2) Distinct start calls ↔
      Run.Guarded (fun cur call => some (cur.add call).2) Fresh start calls :=
  Run.always_iff_guarded (fun _ h => h)
    (fun _ call h _ => ⟨_, rfl, h.step call, (h.step call).mpr⟩) start_distinct Run.guarded_true

-- The second pmid is chosen although the first metric has it, and `a` is an instance beside `a b`.
theorem add_not_distinct :
    ¬Run.Always (fun cur call => some (add cur call).2) Distinct start
      [.metric [97] (pmiDomain <<< 22 + 2) .i32 pmIndomNull 1,
        .metric [98] pmIdNull .i32 pmIndomNull 1] ∧
    ¬Run.Always (fun cur call => some (add cur call).2) Distinct start
      [.inst 1 [97] 0, .inst 1 [97, 32, 98] 1] := by
  constructor
  · intro h
    exact absurd ((h.right _ rfl).right _ rfl).pmids (by decide)
  · intro h
    exact absurd (((h.right _ rfl).right _ rfl).shorts 1) (by decide)

end Context

end Import
