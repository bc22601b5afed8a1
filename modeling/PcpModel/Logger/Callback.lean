import PcpModel.Library.Run
import PcpModel.Logger.Basic

-- What is in the archive after a result has been logged.
namespace Logger

open List Option

variable {desc : Nat → Desc} {f : Fetch} {last : Option Result} {m m' : List MetaRecord}
variable {vsp : ValueSet} {vs : List ValueSet} {i : Int}

def Renews (new : List MetaRecord) (i : Int) : Prop :=
  ∃ stamp insts, .indom i stamp insts ∈ new

theorem logGetInDom_append (h : ¬Renews new i) : logGetInDom i (new ++ m) = logGetInDom i m := by
  induction new
  case nil => rfl
  case cons r new ih =>
    have hn : ¬Renews new i := fun ⟨stamp, insts, hm⟩ => h ⟨stamp, insts, mem_cons_of_mem _ hm⟩
    cases r
    case desc => exact ih hn
    case indom j stamp insts =>
      have hj : j ≠ i := by
        rintro rfl
        exact h ⟨stamp, insts, mem_cons_self⟩
      rw [cons_append, logGetInDom, if_neg hj, ih hn]

theorem logGetInDom_renewed (h : Renews new i) :
    ∃ stamp insts, logGetInDom i (new ++ m) = some (stamp, insts) ∧
      .indom i stamp insts ∈ new := by
  induction new
  case nil => simp [Renews] at h
  case cons r new ih =>
    have hr : Renews new i → ∃ stamp insts, logGetInDom i (new ++ m) = some (stamp, insts) ∧
        .indom i stamp insts ∈ r :: new := by
      intro h
      obtain ⟨stamp, insts, he, hm⟩ := ih h
      exact ⟨stamp, insts, he, mem_cons_of_mem _ hm⟩
    obtain ⟨stamp, insts, hm⟩ := h
    cases r
    case desc => exact hr ⟨stamp, insts, by simpa using hm⟩
    case indom j stamp' insts' =>
      simp only [cons_append, logGetInDom]
      split
      case isTrue hj =>
        subst hj
        exact ⟨stamp', insts', rfl, mem_cons_self⟩
      case isFalse hj =>
        refine hr ⟨stamp, insts, (mem_cons.mp hm).resolve_left fun he => hj ?_⟩
        cases he
        rfl

structure Adds (f : Fetch) (need : Int → Prop) (new : List MetaRecord) : Prop where
  indoms : ∀ {i stamp insts}, .indom i stamp insts ∈ new →
    stamp = f.result.timestamp ∧ f.pmGetInDom i = some insts
  renews : ∀ {i}, Renews new i ↔ need i

def Plain (new : List MetaRecord) : Prop :=
  ∀ i, ¬Renews new i

theorem putDesc_eq (pmid : Nat) (m : List MetaRecord) :
    ∃ new, putDesc pmid m = new ++ m ∧ Plain new ∧ .desc pmid ∈ putDesc pmid m := by
  simp only [putDesc]
  split
  case isTrue h => exact ⟨[], rfl, by simp [Plain, Renews], h⟩
  case isFalse h => exact ⟨[.desc pmid], rfl, by simp [Plain, Renews], mem_cons_self⟩

theorem Plain.append (h : Plain new) (h' : Plain new') : Plain (new' ++ new) := by
  rintro i ⟨stamp, insts, hm⟩
  obtain hm | hm := mem_append.mp hm
  · exact h' i ⟨stamp, insts, hm⟩
  · exact h i ⟨stamp, insts, hm⟩

theorem foldl_putDesc_eq (ps : List Nat) (m : List MetaRecord) :
    ∃ new, ps.foldl (fun m p => putDesc p m) m = new ++ m ∧ Plain new := by
  induction ps generalizing m
  case nil => exact ⟨[], rfl, by simp [Plain, Renews]⟩
  case cons p ps ih =>
    obtain ⟨new, he, hp, -⟩ := putDesc_eq p m
    obtain ⟨new', he', hp'⟩ := ih (putDesc p m)
    refine ⟨new' ++ new, ?_, hp.append hp'⟩
    rw [foldl_cons, he', he, append_assoc]

theorem doEvents_eq (es : List (List (List Nat))) (m : List MetaRecord) :
    ∃ new, doEvents es m = new ++ m ∧ Plain new := by
  fun_induction doEvents es m
  case case1 => exact ⟨[], rfl, by simp [Plain, Renews]⟩
  case case2 => exact ⟨[], rfl, by simp [Plain, Renews]⟩
  case case3 records rest m _ ih =>
    obtain ⟨new, he, hp⟩ := foldl_putDesc_eq records.flatten m
    obtain ⟨new', he', hp'⟩ := ih
    exact ⟨new' ++ new, by rw [he', he, append_assoc], hp.append hp'⟩

def Needs (desc : Nat → Desc) (f : Fetch) (last : Option Result) (m : List MetaRecord)
    (hint : Nat) (vsp : ValueSet) (i : Int) : Prop :=
  (desc vsp.pmid).indom = some i ∧ vsp.vlist ≠ [] ∧
    needIndom f.result.timestamp last m hint vsp i

theorem logDesc_eq (desc : Nat → Desc) (vsp : ValueSet) (m : List MetaRecord) :
    ∃ new, logDesc desc vsp m = new ++ m ∧ Plain new ∧ .desc vsp.pmid ∈ logDesc desc vsp m := by
  obtain ⟨new, he, hp, hd⟩ := putDesc_eq vsp.pmid m
  simp only [logDesc]
  split
  case isFalse => exact ⟨new, he, hp, hd⟩
  case isTrue =>
    obtain ⟨new', he', hp'⟩ := doEvents_eq vsp.events (putDesc vsp.pmid m)
    refine ⟨new' ++ new, by rw [he', he, append_assoc], hp.append hp', ?_⟩
    rw [he']
    exact mem_append_right _ hd

theorem Adds.plain (h : Plain new) (hn : ∀ i, ¬need i) : Adds f need new :=
  ⟨fun hm => absurd ⟨_, _, hm⟩ (h _), fun {i} => iff_of_false (h i) (hn i)⟩

theorem logInDom_eq (h : logInDom desc f last hint vsp m = some (m', ti)) :
    ∃ new, m' = new ++ m ∧ Adds f (Needs desc f last m hint vsp) new := by
  simp only [logInDom] at h
  split at h
  case h_1 hd =>
    cases h
    refine ⟨[], rfl, .plain (by simp [Plain, Renews]) fun i hn => ?_⟩
    exact some_ne_none i (hn.left.symm.trans hd)
  case h_2 indom hd =>
    split at h
    case isFalse hn =>
      cases h
      refine ⟨[], rfl, .plain (by simp [Plain, Renews]) fun i hi => hn ?_⟩
      cases hd.symm.trans hi.left
      exact hi.right
    case isTrue hn =>
      obtain ⟨insts, hg, he⟩ := bind_eq_some_iff.mp h
      cases he
      refine ⟨[.indom indom f.result.timestamp insts], rfl, ?_, ?_⟩
      · intro i stamp insts' hm
        cases mem_singleton.mp hm
        exact ⟨rfl, hg⟩
      · intro i
        constructor
        · rintro ⟨stamp, insts', hm⟩
          cases mem_singleton.mp hm
          exact ⟨hd, hn⟩
        · intro hi
          cases hd.symm.trans hi.left
          exact ⟨_, _, mem_singleton.mpr rfl⟩

theorem renews_append : Renews (new' ++ new) i ↔ Renews new i ∨ Renews new' i := by
  simp [Renews, exists_or, or_comm]

theorem Needs.congr (h : logGetInDom i m = logGetInDom i m') :
    Needs desc f last m hint vsp i ↔ Needs desc f last m' hint vsp i := by
  rw [Needs, Needs, needIndom, needIndom, h]

theorem Adds.append (h : Adds f need new) (h' : Adds f need' new') :
    Adds f (fun i => need i ∨ need' i) (new' ++ new) := by
  refine ⟨fun hm => ?_, ?_⟩
  · obtain hm | hm := mem_append.mp hm
    · exact h'.indoms hm
    · exact h.indoms hm
  · intro i
    rw [renews_append, h.renews, h'.renews]

theorem Adds.congr (h : Adds f need new) (hn : ∀ i, need i ↔ need' i) : Adds f need' new :=
  ⟨h.indoms, fun {i} => h.renews.trans (hn i)⟩

theorem logValueSet_eq (h : logValueSet desc f last hint vsp m = some (m', ti)) :
    ∃ new, m' = new ++ m ∧ .desc vsp.pmid ∈ m' ∧ Adds f (Needs desc f last m hint vsp) new := by
  obtain ⟨new₁, he₁, hp₁, hd⟩ := logDesc_eq desc vsp m
  obtain ⟨-, h⟩ := ite_none_left_eq_some.mp h
  obtain ⟨new₂, rfl, ha⟩ := logInDom_eq h
  refine ⟨new₂ ++ new₁, by rw [he₁, append_assoc], mem_append_right _ hd, ?_⟩
  have hc : ∀ i, logGetInDom i (logDesc desc vsp m) = logGetInDom i m := fun i => by
    rw [he₁, logGetInDom_append (hp₁ i)]
  have hn : Adds f (fun _ => False) new₁ := .plain hp₁ fun _ => id
  refine (hn.append ha).congr fun i => ?_
  rw [false_or, Needs.congr (hc i)]

def Renewed (desc : Nat → Desc) (f : Fetch) (last : Option Result) (m : List MetaRecord)
    (hint : Nat) (vs : List ValueSet) (i : Int) : Prop :=
  ∃ k vsp, vs[k]? = some vsp ∧ Needs desc f last m (hint + k) vsp i

theorem Renewed.cons : Renewed desc f last m hint (vsp :: vs) i ↔
    Needs desc f last m hint vsp i ∨ Renewed desc f last m (hint + 1) vs i := by
  constructor
  · rintro ⟨k, vsp', hk, hn⟩
    cases k
    case zero =>
      cases hk
      exact .inl hn
    case succ k =>
      rw [Nat.add_comm k, ← Nat.add_assoc] at hn
      exact .inr ⟨k, vsp', hk, hn⟩
  · rintro (hn | ⟨k, vsp', hk, hn⟩)
    · exact ⟨0, vsp, rfl, hn⟩
    · rw [Nat.add_assoc, Nat.add_comm 1] at hn
      exact ⟨k + 1, vsp', hk, hn⟩

theorem logValueSets_eq (h : logValueSets desc f last hint vs m = some (m', ti)) :
    ∃ new, m' = new ++ m ∧ (∀ vsp ∈ vs, .desc vsp.pmid ∈ m') ∧
      Adds f (Renewed desc f last m hint vs) new := by
  induction vs generalizing hint m ti
  case nil =>
    cases h
    exact ⟨[], rfl, by simp, .plain (by simp [Plain, Renews]) fun i ⟨k, _, hk, _⟩ => by simp at hk⟩
  case cons vsp vs ih =>
    obtain ⟨⟨m₁, ti₁⟩, h₁, h⟩ := bind_eq_some_iff.mp h
    obtain ⟨⟨m₂, ti₂⟩, h₂, h⟩ := bind_eq_some_iff.mp h
    cases h
    obtain ⟨new₁, rfl, hd, ha⟩ := logValueSet_eq h₁
    obtain ⟨new₂, rfl, hds, hb⟩ := ih h₂
    refine ⟨new₂ ++ new₁, by rw [append_assoc], ?_, ?_⟩
    · exact forall_mem_cons.mpr ⟨mem_append_right _ hd, hds⟩
    · -- An instance domain that is not renewed by the first value set is looked up as before.
      refine (ha.append hb).congr fun i => ?_
      rw [Renewed.cons]
      by_cases hn : Needs desc f last m hint vsp i
      · exact iff_of_true (.inl hn) (.inl hn)
      · have hg := logGetInDom_append (m := m) (mt ha.renews.mp hn)
        simp [Renewed, Needs.congr hg]

def Differs (vsp : ValueSet) (last : Option Result) : Prop :=
  ∃ lrp ∈ last, ∃ lvsp ∈ lrp.vset, lvsp.pmid = vsp.pmid ∧
    ∃ l ∈ lvsp.insts, ∃ l' ∈ vsp.insts, ¬∀ inst, inst ∈ l ↔ inst ∈ l'

def Within (desc : Nat → Desc) (f : Fetch) (vsp : ValueSet) (i : Int) : Prop :=
  vsp ∈ f.result.vset ∧ (desc vsp.pmid).indom = some i

-- What the archive has after a result of the group was logged, by its state before and after that.
structure Logged (desc : Nat → Desc) (s s' : State) (group : Nat) (f : Fetch) : Prop where
  descs : ∀ vsp ∈ f.result.vset, .desc vsp.pmid ∈ s'.metadata
  insts : ∀ vsp i, Within desc f vsp i → vsp.vlist ≠ [] → ∃ stamp insts,
    logGetInDom i s'.metadata = some (stamp, insts) ∧ vsp.vlist ⊆ insts ∧
      stamp.total ≤ f.result.timestamp.total
  fresh : ∀ vsp i, Within desc f vsp i → Differs vsp (s.lastFetch group) →
    ∃ new insts, s'.metadata = new ++ s.metadata ∧ .indom i f.result.timestamp insts ∈ new
  index : ∀ e ∈ s'.index, ∃ r ∈ s'.records,
    r.vol = e.vol ∧ r.offset = e.log ∧ r.stamp = e.stamp ∧ r.mark = false

def Complete (desc : Nat → Desc) (f : Fetch) : Prop :=
  ∀ vsp i insts, Within desc f vsp i → f.pmGetInDom i = some insts → vsp.vlist ⊆ insts

-- The value set of a metric in the last result, at the same position or else the first one.
def Previous (lrp : Result) (k : Nat) (vsp lvsp : ValueSet) : Prop :=
  lvsp.pmid = vsp.pmid ∧ (lrp.vset[k]? = some lvsp ∨
    (∀ v ∈ lrp.vset[k]?, v.pmid ≠ vsp.pmid) ∧ lrp.vset.find? (·.pmid = vsp.pmid) = some lvsp)

-- A value set has an instance that the newest record has not, or it is older than that record and
-- its instances are not the ones of the last result.
def Refreshed (desc : Nat → Desc) (s : State) (group : Nat) (f : Fetch) (i : Int) : Prop :=
  ∃ k vsp, f.result.vset[k]? = some vsp ∧ (desc vsp.pmid).indom = some i ∧ vsp.vlist ≠ [] ∧
    ∀ stamp insts, logGetInDom i s.metadata = some (stamp, insts) → ¬vsp.vlist ⊆ insts ∨
      f.result.timestamp.total < stamp.total ∧
        ∃ lrp ∈ s.lastFetch group, ∃ lvsp, Previous lrp k vsp lvsp ∧
          (lvsp.vlist.length ≠ vsp.vlist.length ∨ ¬vsp.vlist ⊆ lvsp.vlist)

theorem previous_iff : ((lrp.vset[k]?.filter (·.pmid = vsp.pmid)).or
    (lrp.vset.find? (·.pmid = vsp.pmid))) = some lvsp ↔ Previous lrp k vsp lvsp := by
  have hf (h : lrp.vset.find? (·.pmid = vsp.pmid) = some lvsp) : lvsp.pmid = vsp.pmid := by
    simpa using find?_some h
  rw [Previous]
  cases hk : lrp.vset[k]?
  case none => simpa using hf
  case some v =>
    by_cases hp : v.pmid = vsp.pmid
    case pos =>
      simp only [Option.filter, hp, decide_true, if_true, Option.some_or, Option.some.injEq]
      grind
    case neg =>
      simp only [Option.filter, hp, decide_false]
      grind

theorem zip_any_iff {l l' : List Int} (h : l.length = l'.length) :
    (l.zip l').any (fun (a, i) => a ≠ i && i ∉ l) ↔ ¬l' ⊆ l := by
  simp only [List.any_eq_true, Bool.and_eq_true, decide_eq_true_eq]
  constructor
  · rintro ⟨⟨a, i⟩, hm, -, hn⟩ hs
    exact hn (hs (of_mem_zip hm).right)
  · intro hs
    obtain ⟨i, hi, hn⟩ := not_forall₂.mp hs
    rw [← map_snd_zip (Nat.le_of_eq h.symm)] at hi
    obtain ⟨⟨a, i⟩, hm, rfl⟩ := mem_map.mp hi
    exact ⟨_, hm, fun he : a = i => hn (he ▸ (of_mem_zip hm).left), hn⟩

theorem checkInst_iff : checkInst vsp k lrp ↔ ∃ lvsp, Previous lrp k vsp lvsp ∧
    (lvsp.vlist.length ≠ vsp.vlist.length ∨ ¬vsp.vlist ⊆ lvsp.vlist) := by
  simp only [← previous_iff, checkInst]
  split
  case h_1 h => simp [h]
  case h_2 lvsp h =>
    simp only [h, Option.some.injEq, exists_eq_left', Bool.or_eq_true, decide_eq_true_eq]
    exact or_congr_right' fun hl => zip_any_iff (not_ne_iff.mp hl)

theorem needIndom_iff (hv : vsp.vlist ≠ []) : needIndom stamp last m k vsp i ↔
    ∀ istamp insts, logGetInDom i m = some (istamp, insts) → ¬vsp.vlist ⊆ insts ∨
      stamp.total < istamp.total ∧ ∃ lrp ∈ last, ∃ lvsp, Previous lrp k vsp lvsp ∧
        (lvsp.vlist.length ≠ vsp.vlist.length ∨ ¬vsp.vlist ⊆ lvsp.vlist) := by
  cases hg : logGetInDom i m
  case none => simp [needIndom, hg, hv]
  case some r =>
    obtain ⟨istamp, insts⟩ := r
    simp only [← checkInst_iff, needIndom, hg]
    cases last <;> simp [subset_def]

theorem refreshed_iff : Refreshed desc s group f i ↔
    Renewed desc f (s.lastFetch group) s.metadata 0 f.result.vset i := by
  simp only [Refreshed, Renewed, Needs, Nat.zero_add]
  refine exists_congr fun k => exists_congr fun vsp => and_congr_right fun _ =>
    and_congr_right fun _ => and_congr_right fun hv => (needIndom_iff hv).symm

def Ok (desc : Nat → Desc) (s : State) (group : Nat) (f : Fetch) : Prop :=
  ∀ vsp i, Within desc f vsp i → Refreshed desc s group f i ∨
    (vsp.vlist ≠ [] → ∀ stamp insts, logGetInDom i s.metadata = some (stamp, insts) →
      stamp.total ≤ f.result.timestamp.total) ∧ ¬Differs vsp (s.lastFetch group)

def Indexed (s : State) : Prop :=
  ∀ e ∈ s.index, ∃ r ∈ s.records,
    r.vol = e.vol ∧ r.offset = e.log ∧ r.stamp = e.stamp ∧ r.mark = false

section Index

variable {s s' : State} {group : Nat}

structure SameLog (s s' : State) : Prop where
  metadata : s'.metadata = s.metadata
  index : s'.index = s.index
  lastFetch : s'.lastFetch = s.lastFetch
  records : s.records ⊆ s'.records

theorem putmark_same : SameLog s s.putmark := by
  simp only [State.putmark]
  split
  · exact ⟨rfl, rfl, rfl, Subset.refl _⟩
  · exact ⟨rfl, rfl, rfl, subset_cons_self ..⟩

theorem ready_same : SameLog s (s.ready f) := by
  have hm : SameLog s (if f.changed then s.putmark else s) := by
    split
    · exact putmark_same
    · exact ⟨rfl, rfl, rfl, Subset.refl _⟩
  rw [State.ready]
  generalize (if f.changed then s.putmark else s) = s' at hm
  split
  · exact ⟨hm.metadata, hm.index, hm.lastFetch, hm.records⟩
  · exact hm

theorem Indexed.mono (h : Indexed s) (hi : s'.index = s.index) (hr : s.records ⊆ s'.records) :
    Indexed s' := by
  intro e he
  obtain ⟨r, hm, h⟩ := h e (hi ▸ he)
  exact ⟨r, hr hm, h⟩

theorem finish_metadata : (s.finish group f offset m ti).metadata = m := by
  simp only [State.finish]
  split <;> rfl

theorem Indexed.finish (h : Indexed s)
    (hr : ⟨s.vol, offset, f.result.timestamp, false⟩ ∈ s.records) :
    Indexed (s.finish group f offset m ti) := by
  simp only [State.finish]
  split
  case isFalse => exact h
  case isTrue =>
    refine forall_mem_cons.mpr ⟨?_, h⟩
    exact ⟨_, hr, rfl, rfl, rfl, rfl⟩

theorem fetch_eq (h : s.fetch desc group f = some s') : ∃ ti,
    logValueSets desc f (s.lastFetch group) 0 f.result.vset s.metadata = some (s'.metadata, ti) ∧
      (Indexed s → Indexed s') := by
  have hs : SameLog s (s.ready f) := ready_same
  obtain ⟨-, h⟩ := ite_none_left_eq_some.mp h
  obtain ⟨⟨m, ti⟩, hl, he⟩ := bind_eq_some_iff.mp h
  cases he
  refine ⟨ti, ?_, fun hi => .finish ?_ mem_cons_self⟩
  · rw [finish_metadata, ← hs.metadata, ← hs.lastFetch]
    exact hl
  · exact hi.mono hs.index (Subset.trans hs.records (subset_cons_self ..))

theorem Indexed.step (h : Indexed s) (he : step desc s op = some s') : Indexed s' := by
  cases op
  case fetch =>
    obtain ⟨-, -, hi⟩ := fetch_eq he
    exact hi h
  case cleanup =>
    cases he
    exact h
  case newvolume =>
    cases he
    exact h

end Index

section Logged

variable {s s' : State} {group : Nat} {new : List MetaRecord}

theorem Adds.latest (h : Adds f need new) (hn : need i) : ∃ insts,
    logGetInDom i (new ++ m) = some (f.result.timestamp, insts) ∧ f.pmGetInDom i = some insts ∧
      .indom i f.result.timestamp insts ∈ new := by
  obtain ⟨stamp, insts, hg, hm⟩ := logGetInDom_renewed (h.renews.mpr hn)
  obtain ⟨rfl, hi⟩ := h.indoms hm
  exact ⟨insts, hg, hi, hm⟩

theorem known (hw : Within desc f vsp i) (hv : vsp.vlist ≠ [])
    (hn : ¬Refreshed desc s group f i) :
    ∃ stamp insts, logGetInDom i s.metadata = some (stamp, insts) ∧ vsp.vlist ⊆ insts := by
  obtain ⟨k, hk⟩ := mem_iff_getElem?.mp hw.left
  by_contra hc
  refine hn ⟨k, vsp, hk, hw.right, hv, fun stamp insts hg => .inl fun hs => ?_⟩
  exact hc ⟨stamp, insts, hg, hs⟩

theorem logged_iff (hi : Indexed s) (hc : Complete desc f)
    (he : s.fetch desc group f = some s') : Logged desc s s' group f ↔ Ok desc s group f := by
  obtain ⟨ti, hl, hx⟩ := fetch_eq he
  obtain ⟨new, hm, hd, ha⟩ := logValueSets_eq hl
  replace ha := ha.congr fun i => refreshed_iff.symm
  constructor
  · intro h vsp i hw
    by_cases hr : Refreshed desc s group f i
    · exact .inl hr
    · have hn : ¬Renews new i := mt ha.renews.mp hr
      refine .inr ⟨fun hv stamp insts hg => ?_, fun hdf => ?_⟩
      · obtain ⟨stamp', insts', hg', -, ht⟩ := h.insts vsp i hw hv
        rw [hm, logGetInDom_append hn] at hg'
        cases hg.symm.trans hg'
        exact ht
      · obtain ⟨new', insts, hm', hmem⟩ := h.fresh vsp i hw hdf
        cases append_cancel_right (hm.symm.trans hm')
        exact hn ⟨_, _, hmem⟩
  · intro h
    refine ⟨hd, fun vsp i hw hv => ?_, fun vsp i hw hdf => ?_, hx hi⟩
    · by_cases hr : Refreshed desc s group f i
      · obtain ⟨insts, hg, hp, -⟩ := ha.latest hr
        exact ⟨_, insts, hm ▸ hg, hc vsp i insts hw hp, Int.le_refl _⟩
      · obtain ⟨stamp, insts, hg, hs⟩ := known hw hv hr
        have ht := ((h vsp i hw).resolve_left hr).left hv stamp insts hg
        exact ⟨stamp, insts, by rw [hm, logGetInDom_append (mt ha.renews.mp hr), hg], hs, ht⟩
    · have hr := (h vsp i hw).resolve_right fun hn => hn.right hdf
      obtain ⟨insts, -, -, hmem⟩ := ha.latest (m := s.metadata) hr
      exact ⟨new, insts, hm, hmem⟩

-- After any callbacks, the archive has what is needed for a result exactly if the condition holds.
theorem exec_logged (he : Run.exec (step desc) (preamble epoch pid size) ops = some s)
    (hc : Complete desc f) (hf : s.fetch desc group f = some s') :
    Logged desc s s' group f ↔ Ok desc s group f :=
  logged_iff (Run.exec_preserves (fun _ _ _ => Indexed.step) (by simp [Indexed, preamble]) he) hc hf

def sample (sec : Int) (insts : List Int) : Fetch where
  changed := false
  newfile := true
  size := 40
  result := ⟨⟨sec, 0⟩, [⟨1, some insts, []⟩]⟩
  task := [1]
  pmGetInDom := fun _ => some [1, 2, 3]

def single : Nat → Desc := fun _ =>
  ⟨some 7, false⟩

theorem sample_complete (h : insts ⊆ [1, 2, 3]) : Complete single (sample sec insts) := by
  rintro vsp i _ ⟨hm, -⟩ ⟨⟩
  cases mem_singleton.mp hm
  exact h

theorem exec_logged_two : ∃ s s', Run.exec (step single) (preamble ⟨10, 0⟩ 5 60)
    [.fetch 0 (sample 11 [1, 2]), .newvolume] = some s ∧
      s.fetch single 0 (sample 12 [2, 1]) = some s' ∧
        Logged single s s' 0 (sample 12 [2, 1]) := by
  obtain ⟨s, he⟩ : ∃ s, Run.exec (step single) (preamble ⟨10, 0⟩ 5 60)
    [.fetch 0 (sample 11 [1, 2]), .newvolume] = some s := ⟨_, rfl⟩
  obtain ⟨s', hf⟩ : ∃ s', s.fetch single 0 (sample 12 [2, 1]) = some s' := by
    cases he
    exact ⟨_, rfl⟩
  refine ⟨s, s', he, hf, (exec_logged he (sample_complete (by decide)) hf).mpr ?_⟩
  rintro vsp i ⟨hm, hi⟩
  cases mem_singleton.mp hm
  cases hi
  cases he
  refine .inr ⟨?_, ?_⟩
  · rintro - stamp insts hg
    cases hg
    decide
  · rintro ⟨lrp, hl, lvsp, hv, -, l, ha, l', hb, hn⟩
    cases hl
    cases mem_singleton.mp hv
    cases ha
    cases hb
    exact hn (by simp [or_comm])

theorem exec_unlogged :
    (∃ s s' vsp, Run.exec (step single) (preamble ⟨10, 0⟩ 5 60)
        [.fetch 0 (sample 11 [1, 2])] = some s ∧ s.fetch single 0 (sample 12 [1]) = some s' ∧
      Within single (sample 12 [1]) vsp 7 ∧ Differs vsp (s.lastFetch 0) ∧
        s'.metadata = s.metadata) ∧
    ∃ s s' stamp insts, Run.exec (step single) (preamble ⟨10, 0⟩ 5 60)
        [.fetch 0 (sample 12 [1, 2])] = some s ∧ s.fetch single 1 (sample 11 [1]) = some s' ∧
      logGetInDom 7 s'.metadata = some (stamp, insts) ∧
        (sample 11 [1]).result.timestamp.total < stamp.total := by
  refine ⟨⟨_, _, _, rfl, rfl, ⟨mem_cons_self, rfl⟩, ?_, rfl⟩, _, _, _, _, rfl, rfl, rfl,
    by decide⟩
  refine ⟨_, rfl, _, mem_cons_self, rfl, _, rfl, _, rfl, fun h => ?_⟩
  exact absurd ((h 2).mp (by decide)) (by decide)

end Logged

end Logger
