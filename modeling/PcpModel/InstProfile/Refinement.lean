import Mathlib.Data.Fintype.EquivFin
import PcpModel.InstProfile.Basic
import PcpModel.Library.Run

namespace InstProfile

open Profile

-- The purpose of a profile: each instance domain has a set of included instances, or a default.
@[ext]
structure Sets where
  all : Prop
  sets : InDom → Option (Set Int)

inductive Op
  | add (indom : InDom) (l : Instlist)
  | del (indom : InDom) (l : Instlist)

namespace Sets

def included (m : Sets) (indom : InDom) : Set Int :=
  m.sets indom |>.getD { _i | m.all }

def addTo (s : Set Int) (arg : List Int) : Set Int :=
  if arg = [] then .univ else s ∪ { i | i ∈ arg }

def delFrom (s : Set Int) (arg : List Int) : Set Int :=
  if arg = [] then ∅ else s \ { i | i ∈ arg }

def set (m : Sets) (all : Prop) (indom : InDom) (l : Instlist) (s : Set Int) : Sets :=
  if indom = pmInDomNull ∧ ¬l.IsNull then m
  else if indom = pmInDomNull ∧ l.len = 0 then ⟨all, fun _ => none⟩
  else { m with sets := Function.update m.sets indom (some s) }

def step (m : Sets) : Op → Sets
  | .add indom l => m.set True indom l <| addTo (m.sets indom |>.getD ∅) l.arg
  | .del indom l => m.set False indom l <| delFrom (m.sets indom |>.getD .univ) l.arg

end Sets

theorem Instlist.arg_eq_nil_iff {l : Instlist} : l.arg = [] ↔ l.len = 0 ∨ l.IsNull := by
  have ⟨len, list, valid⟩ := l
  cases list
  case none => simp [arg, IsNull]
  case some as =>
    have := valid as rfl
    simp [arg, IsNull]
    grind

theorem mem_subtract : i ∈ (subtract list arg).getD [] ↔ i ∈ list.getD [] ∧ i ∉ arg := by
  cases list <;> simp [subtract]

theorem mem_union : i ∈ (union list arg).getD [] ↔ i ∈ list.getD [] ∨ i ∈ arg := by
  cases list
  case none => simp [union]
  case some list =>
    simp only [union]
    induction arg generalizing list
    case nil => simp
    case cons a arg hi =>
      rw [List.foldl_cons]
      split <;> simp
      case isTrue h => grind
      case isFalse h => grind

namespace InDomProfile

-- The instances in the list are the exceptions to the state.
def included (p : InDomProfile) : Set Int :=
  { i | i ∈ p.list ↔ p.state = .exclude }

end InDomProfile

namespace Profile

def entry (prof : Profile) (indom : InDom) : Option InDomProfile :=
  prof.profile.find? (·.indom = indom)

def abs (prof : Profile) : Sets where
  all := prof.state = .include
  sets indom := prof.entry indom |>.map InDomProfile.included

end Profile

theorem pmInProfile_iff : pmInProfile indom (some prof) inst ↔ inst ∈ prof.abs.included indom := by
  simp only [pmInProfile, pmFindProfile, ← List.find?_eq_bind_findIdx?_getElem?, Sets.included,
    Profile.abs, entry]
  cases prof.profile.find? (·.indom = indom)
  case none => simp
  case some p => cases hs : p.state <;> simp [InDomProfile.included, hs]

theorem find?_modify {l : List InDomProfile} (h : l.findIdx? (·.indom = indom) = some i)
    (hf : ∀ p, (f p).indom = p.indom) :
    (l.modify i f).find? (·.indom = indom') =
      if indom' = indom then (l.find? (·.indom = indom')).map f
      else l.find? (·.indom = indom') := by
  induction l generalizing i
  case nil => simp at h
  case cons p l hi =>
    by_cases hp : p.indom = indom
    case pos =>
      obtain rfl : 0 = i := by simpa [List.findIdx?_cons, hp] using h
      by_cases he : indom' = indom
      case pos => simp [hf, hp, he]
      case neg => simp [hf, hp, he, Ne.symm he]
    case neg =>
      obtain ⟨j, hj, rfl⟩ : ∃ j, l.findIdx? (·.indom = indom) = some j ∧ j + 1 = i := by
        simpa [List.findIdx?_cons, hp] using h
      by_cases hp' : p.indom = indom'
      case pos => simp [hp', hp' ▸ hp]
      case neg => simpa [hp'] using hi hj

variable {e : Edit} {l : Instlist} {prof prof' : Profile} {ctx : Context}

theorem Edit.apply_indom : (e.apply l p).indom = p.indom := by
  simp only [apply]
  split
  · rfl
  · split <;> rfl

theorem pmFindProfile_eq_none_iff : pmFindProfile indom prof = none ↔ prof.entry indom = none := by
  simp [pmFindProfile, entry]

theorem entry_edit (h : pmFindProfile indom prof = some i) :
    (setProfile.edit e l prof i id).entry =
      Function.update prof.entry indom ((prof.entry indom).map (e.apply l)) := by
  funext indom'
  simp only [entry, setProfile.edit, find?_modify h fun _ => Edit.apply_indom, id]
  by_cases he : indom' = indom <;> simp [he, entry]

theorem modify_concat : (as ++ [a]).modify as.length f = as ++ [f a] := by
  induction as <;> simp_all

theorem entry_edit_newprof (h : pmFindProfile indom prof = none) :
    let start := ({ · with state := e.start })
    (setProfile.edit e l (newprof indom prof) prof.profile.length start).entry =
      Function.update prof.entry indom (some <| e.apply l ⟨indom, e.start, none⟩) := by
  have hn : prof.profile.find? (·.indom = indom) = none := pmFindProfile_eq_none_iff.mp h
  intro start
  funext indom'
  simp only [start, entry, setProfile.edit, newprof, modify_concat]
  by_cases he : indom' = indom
  case pos => simp [he, hn, Edit.apply_indom]
  case neg => simp [he, Ne.symm he, Edit.apply_indom, entry]

namespace InDomProfile

variable {p : InDomProfile}

@[simp]
theorem included_exclude_null : included ⟨i, .exclude, none⟩ = ∅ := by
  simp [included, list]

theorem included_add
    (hs : e.state = .include) (hi : e.onInclude = subtract) (he : e.onExclude = union) :
    (e.apply l p).included = Sets.addTo p.included l.arg := by
  simp only [Edit.apply, Sets.addTo, Instlist.arg_eq_nil_iff, hs, hi, he]
  split
  case isTrue => simp [included, list]
  case isFalse =>
    ext i
    cases hs : p.state
    case «include» => simp [included, list, mem_subtract, hs]; tauto
    case exclude => simp [included, list, mem_union, hs]

theorem included_del
    (hs : e.state = .exclude) (hi : e.onInclude = union) (he : e.onExclude = subtract) :
    (e.apply l p).included = Sets.delFrom p.included l.arg := by
  simp only [Edit.apply, Sets.delFrom, Instlist.arg_eq_nil_iff, hs, hi, he]
  split
  case isTrue => simp [included, list]
  case isFalse =>
    ext i
    cases hs : p.state
    case «include» => simp [included, list, mem_union, hs]
    case exclude => simp [included, list, mem_subtract, hs]

end InDomProfile

theorem Profile.abs_update (hs : prof'.state = prof.state)
    (h : prof'.entry = Function.update prof.entry indom (some p)) :
    prof'.abs =
      { prof.abs with sets := Function.update prof.abs.sets indom (some p.included) } := by
  ext1
  · simp [Profile.abs, hs]
  · funext indom'
    by_cases he : indom' = indom <;> simp [Profile.abs, h, he]

-- The effect of an edit on the sets depends only on the set that it gives to an entry.
theorem abs_setProfile (ctx : Context) (s : Set Int)
    (h : ∀ p, ctx.instprof.entry indom = some p → (e.apply l p).included = s)
    (hn : ctx.instprof.entry indom = none → (e.apply l ⟨indom, e.start, none⟩).included = s) :
    (setProfile e ctx indom l).fst.instprof.abs =
      ctx.instprof.abs.set (e.state = .include) indom l s := by
  simp only [setProfile, Sets.set]
  split
  case isTrue => rfl
  case isFalse =>
    split
    case isTrue => simp [setGlobalState, Profile.abs, entry]
    case isFalse =>
      cases hf : pmFindProfile indom ctx.instprof
      case none =>
        rw [← hn <| pmFindProfile_eq_none_iff.mp hf]
        exact abs_update rfl (entry_edit_newprof hf)
      case some i =>
        have hp : ctx.instprof.entry indom ≠ none := pmFindProfile_eq_none_iff.not.mp (by simp [hf])
        have ⟨p, hp⟩ := Option.ne_none_iff_exists'.mp hp
        rw [← h p hp]
        exact abs_update rfl (by simp [entry_edit hf, hp])

theorem abs_pmAddProfile :
    (pmAddProfile ctx indom l).fst.instprof.abs = ctx.instprof.abs.step (.add indom l) := by
  let s := ctx.instprof.abs.sets indom |>.getD ∅
  rw [pmAddProfile, abs_setProfile ctx <| Sets.addTo s l.arg]
  · simp [s, Sets.step]
  · intro p hp
    simp [s, InDomProfile.included_add, Profile.abs, hp]
  · intro hn
    simp [s, InDomProfile.included_add, Profile.abs, hn]

-- Two additions commute, whether they are to one instance domain or to two.
theorem pmAddProfile_comm (i j : { i // i ≠ pmInDomNull }) (k : Instlist) :
    pmInProfile d (some (pmAddProfile (pmAddProfile ctx i l).1 j k).1.instprof) =
      pmInProfile d (some (pmAddProfile (pmAddProfile ctx j k).1 i l).1.instprof) := by
  funext inst
  rw [Bool.eq_iff_iff, pmInProfile_iff, pmInProfile_iff]
  simp only [abs_pmAddProfile, Sets.step, Sets.set, i.2, j.2]
  obtain h | h := eq_or_ne i.1 j.1
  · by_cases l.arg = [] <;> by_cases k.arg = [] <;> simp [*, Sets.addTo, Set.union_right_comm]
  · simp [h, h.symm, Function.update_comm h]

theorem abs_setProfile_null (h : l.arg ≠ []) :
    (setProfile e ctx pmInDomNull l).fst.instprof.abs = ctx.instprof.abs.set a pmInDomNull l s := by
  have hn : ¬l.IsNull := fun hn => h <| Instlist.arg_eq_nil_iff.mpr (.inr hn)
  simp [setProfile, Sets.set, hn]

-- A new entry starts out with no instances, so that the instances are taken from nothing.
theorem abs_pmDelProfile (h : l.arg = [] ∨ ctx.instprof.entry indom ≠ none) :
    (pmDelProfile ctx indom l).fst.instprof.abs = ctx.instprof.abs.step (.del indom l) := by
  let s := ctx.instprof.abs.sets indom |>.getD .univ
  rw [pmDelProfile, abs_setProfile ctx <| Sets.delFrom s l.arg]
  · simp [s, Sets.step]
  · intro p hp
    simp [s, InDomProfile.included_del, Profile.abs, hp]
  · intro hn
    simp [InDomProfile.included_del, h.resolve_right (· hn), Sets.delFrom]

theorem abs_pmDelProfile_of_no_entry (hn : ctx.instprof.entry indom = none) :
    (pmDelProfile ctx indom l).fst.instprof.abs =
      ctx.instprof.abs.set False indom l (Sets.delFrom ∅ l.arg) := by
  rw [pmDelProfile, abs_setProfile ctx <| Sets.delFrom ∅ l.arg]
  · simp
  · simp [hn]
  · simp [InDomProfile.included_del]

theorem Sets.included_set {m : Sets} (h : indom ≠ pmInDomNull) :
    (m.set a indom l s).included indom = s := by
  simp [set, included, h]

structure Tracked where
  ctx : Context
  sets : Sets

namespace Tracked

def new : Tracked where
  ctx := .new
  sets := ⟨True, fun _ => none⟩

def step (t : Tracked) (op : Op) : Option Tracked :=
  match op with
  | .add indom l => some ⟨(pmAddProfile t.ctx indom l).fst, t.sets.step op⟩
  | .del indom l => some ⟨(pmDelProfile t.ctx indom l).fst, t.sets.step op⟩

def Faithful (t : Tracked) : Prop :=
  ∀ indom inst, pmInProfile indom (some t.ctx.instprof) inst ↔ inst ∈ t.sets.included indom

-- Instances are only removed from instance domains that have an entry.
def Allows (t : Tracked) : Op → Prop
  | .add .. => True
  | .del indom l => l.arg = [] ∨ indom = pmInDomNull ∨ pmFindProfile indom t.ctx.instprof ≠ none

variable {t t' : Tracked}

theorem step_abs (h : t.ctx.instprof.abs = t.sets) (ha : t.Allows op) :
    ∃ t', t.step op = some t' ∧ t'.ctx.instprof.abs = t'.sets := by
  cases op
  case add indom l => exact ⟨_, rfl, by rw [abs_pmAddProfile, h]⟩
  case del indom l =>
    refine ⟨_, rfl, ?_⟩
    by_cases hl : l.arg = []
    case pos => rw [abs_pmDelProfile (.inl hl), h]
    obtain rfl | ha := ha.resolve_left hl
    · exact h ▸ abs_setProfile_null hl
    · rw [abs_pmDelProfile (.inr <| pmFindProfile_eq_none_iff.not.mp ha), h]

theorem not_faithful_of_not_allows (h : t.ctx.instprof.abs = t.sets) (ha : ¬t.Allows op)
    (ht : t.step op = some t') : ¬t'.Faithful := by
  cases op
  case add => exact absurd trivial ha
  case del indom l =>
    obtain rfl := Option.some_inj.mp ht
    simp only [Allows, not_or, not_not] at ha
    have ⟨hl, hi, hn⟩ := ha
    have hn := pmFindProfile_eq_none_iff.mp hn
    have ⟨inst, hm⟩ := Infinite.exists_notMem_finset l.arg.toFinset
    have hs : t.sets.sets indom = none := by simp [← h, Profile.abs, hn]
    intro hf
    have hf := pmInProfile_iff.symm.trans (hf indom inst)
    rw [abs_pmDelProfile_of_no_entry hn, Sets.step, Sets.included_set hi, Sets.included_set hi]
      at hf
    simp_all [Sets.delFrom]

theorem exec_faithful (hg : Run.Guarded step Allows new ops) :
    ∃ t, Run.exec step new ops = some t ∧ t.Faithful ∧
      ∀ op t', ¬t.Allows op → t.step op = some t' → ¬t'.Faithful := by
  have h₀ : new.ctx.instprof.abs = new.sets := by
    simp [new, Context.new, Profile.abs, entry]
  have ⟨t, ht, h⟩ := Run.exec_invariant (fun _ _ => step_abs) h₀ hg
  exact ⟨t, ht, fun _ _ => h ▸ pmInProfile_iff, fun _ _ => not_faithful_of_not_allows h⟩

theorem exec_faithful_add_del :
    let ops := [.add 1 (.ofList [5, 6]), .del 1 (.ofList [6]), .del 2 .null]
    ∃ t, Run.exec step new ops = some t ∧ t.Faithful := by
  intro ops
  have hg : Run.Guarded step Allows new ops := by
    refine ⟨trivial, ?_⟩
    rintro _ ⟨⟩
    refine ⟨.inr <| .inr <| by decide, ?_⟩
    rintro _ ⟨⟩
    exact ⟨.inl rfl, fun _ _ => trivial⟩
  have ⟨t, ht, hf, _⟩ := exec_faithful hg
  exact ⟨t, ht, hf⟩

-- Removing the instance 5 from an instance domain without an entry also removes the instance 6.
theorem exec_del_not_faithful :
    ∃ t, Run.exec step new [.del 1 (.ofList [5])] = some t ∧
      pmInProfile 1 (some t.ctx.instprof) 6 = false ∧ 6 ∈ t.sets.included 1 := by
  refine ⟨_, rfl, by decide, ?_⟩
  rw [Sets.step, Sets.included_set (by decide)]
  simp [new, Sets.delFrom, Instlist.arg, Instlist.ofList]

end Tracked

end InstProfile
