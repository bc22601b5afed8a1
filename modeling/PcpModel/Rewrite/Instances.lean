import PcpModel.Library.Loop
import PcpModel.Library.Substitution
import PcpModel.Rewrite.Basic

-- The rewriting of instances as one substitution.
namespace Rewrite

open Substitution List Inst

def substInst (root : List Indomspec) (indom : Nat) (inst : Int) : Option Int :=
  match root.find? (·.oldIndom = indom) with
  | none => some inst
  | some ip =>
    match ip.inst.find? (·.oldInst = inst) with
    | none => some inst
    | some e => if e.act = .delete then none else some e.newInst

def substIname (root : List Indomspec) (indom : Nat) (inst : Int) (iname : Str) : Str :=
  match root.find? (·.oldIndom = indom) with
  | none => iname
  | some ip =>
    match ip.inst.find? (·.oldInst = inst) with
    | none => iname
    | some e => match e.act with | .change _ (some new) => new | _ => iname

def substIndom (root : List Indomspec) (indom : Nat) : Nat :=
  match root.find? (·.oldIndom = indom) with
  | none => indom
  | some ip => ip.newIndom

def Indom.subst (root : List Indomspec) (r : Indom) : Indom where
  indom := substIndom root r.indom
  inst := r.inst.filterMap fun v =>
    (substInst root r.indom v.1).map (·, substIname root r.indom v.1 v.2)

def substValues {α : Type} (root : List Indomspec) (indom : Nat) (l : List (Int × α)) :
    List (Int × α) :=
  l.filterMap fun v => (substInst root indom v.1).map (·, v.2)

-- The identifier to which an instance is renumbered.
def Inst.target (e : Inst) : Option Int :=
  match e.act with
  | .change inst _ => inst
  | .delete => none

-- No instance is renumbered to the old identifier of an instance that is rewritten later.
def Indomspec.Clear (ip : Indomspec) : Prop :=
  ip.inst.Pairwise fun e e' => e.target ≠ some e'.oldInst

def Indomspec.active (ip : Indomspec) : Bool :=
  ip.change || ip.newIndom ≠ ip.oldIndom

-- No instance domain is renamed to one with changes of its own that is looked up later.
def Unchained (root : List Indomspec) : Prop :=
  (root.filter Indomspec.active).Pairwise fun ip ip' => ip.newIndom ≠ ip'.oldIndom

instance (ip : Indomspec) : Decidable ip.Clear :=
  inferInstanceAs (Decidable (List.Pairwise _ _))

instance (root : List Indomspec) : Decidable (Unchained root) :=
  inferInstanceAs (Decidable (List.Pairwise _ _))

-- The instance domains are different from each other, and so are the instances of each of them.
structure WF (root : List Indomspec) : Prop where
  indom : (root.map (·.oldIndom)).Nodup
  inst : ∀ ip ∈ root, (ip.inst.map (·.oldInst)).Nodup

theorem startIndom_wf (h : WF root) : WF (startIndom arch root indom) := by
  simp only [startIndom]
  split
  case isTrue => exact h
  case isFalse hn =>
    split
    case h_1 => exact h
    case h_2 d hd =>
      have hm := mem_of_find?_eq_some hd
      refine ⟨nodup_cons.mpr ⟨by simpa using hn, h.indom⟩, ?_⟩
      simp only [mem_cons, forall_eq_or_imp, map_map]
      exact ⟨arch.unique d hm, h.inst⟩

theorem Inst.changeByName_oldInst {e : Inst} (h : e.changeByName new = some e') :
    e'.oldInst = e.oldInst := by
  simp only [changeByName] at h
  split at h <;> cases h
  case h_1 => rfl
  case h_2 => split <;> rfl

theorem Inst.changeByInst_oldInst {e : Inst} (h : e.changeByInst new = some e') :
    e'.oldInst = e.oldInst := by
  simp only [changeByInst] at h
  split at h
  case h_1 =>
    split at h
    case isTrue =>
      split at h <;> cases h
      rfl
    case isFalse =>
      cases h
      split <;> rfl
  case h_2 => cases h

theorem changeFirst_oldInst
    (hf : ∀ e e', f e = some e' → e'.oldInst = e.oldInst) (h : changeFirst p f l = some l') :
    l'.map (·.oldInst) = l.map (·.oldInst) := by
  induction l generalizing l'
  case nil => cases h; rfl
  case cons e l hi =>
    simp only [changeFirst] at h
    split at h
    case isTrue =>
      obtain ⟨e', he, rfl⟩ := Option.map_eq_some_iff.mp h
      simp [hf e e' he]
    case isFalse =>
      obtain ⟨l'', hl, rfl⟩ := Option.map_eq_some_iff.mp h
      simp [hi hl]

theorem Clause.apply_old {c : Clause} (h : c.apply root ip = some ip') :
    ip'.oldIndom = ip.oldIndom ∧ ip'.inst.map (·.oldInst) = ip.inst.map (·.oldInst) := by
  cases c
  case indom new =>
    simp only [Clause.apply] at h
    split at h <;> cases h
    split <;> exact ⟨rfl, rfl⟩
  case iname old new =>
    obtain ⟨l, hl, rfl⟩ := Option.map_eq_some_iff.mp h
    exact ⟨rfl, changeFirst_oldInst (fun _ _ => changeByName_oldInst) hl⟩
  case inst old new =>
    obtain ⟨l, hl, rfl⟩ := Option.map_eq_some_iff.mp h
    exact ⟨rfl, changeFirst_oldInst (fun _ _ => changeByInst_oldInst) hl⟩

theorem mapM_wf
    (hf : ∀ ip ip', f ip = some ip' →
      ip'.oldIndom = ip.oldIndom ∧ ip'.inst.map (·.oldInst) = ip.inst.map (·.oldInst))
    (h : root.mapM f = some root') (hw : WF root) : WF root' := by
  have hf₂ := Loop.forall₂_of_mapM h
  have hold : root'.map (·.oldIndom) = root.map (·.oldIndom) := by
    clear hw h
    induction hf₂
    case nil => rfl
    case cons hip _ hi => simp [(hf _ _ hip).left, hi]
  refine ⟨hold ▸ hw.indom, fun ip' hip' => ?_⟩
  obtain ⟨ip, hip, hfi⟩ := (Loop.exists_of_mapM h).left ip' hip'
  exact (hf ip ip' hfi).right ▸ hw.inst ip hip

theorem parseClause_wf (h : parseClause arch root c = some root')
    (hw : WF root) : WF root' := by
  refine mapM_wf (fun ip ip' hf => ?_) h (startIndom_wf hw)
  split at hf
  case isTrue => exact Clause.apply_old hf
  case isFalse =>
    cases hf
    exact ⟨rfl, rfl⟩

theorem parse_wf (h : parse arch clauses = some root) : WF root := by
  refine Loop.foldlM_induction (I := fun _ root => WF root) h ⟨nodup_nil, by simp⟩ ?_
  intro _ c _ root root' _ hw hc
  exact parseClause_wf hc hw

section Link

variable {α : Type} {arch : Archive} {ms : List (Linked α)}

-- Of the specifications so far, the one for the instance domain of the metric is linked to it.
def LinkedTo (root : List Indomspec) (mp : Linked α) : Prop :=
  mp.ip = (root.find? (·.oldIndom = mp.indom)).filter Indomspec.change

theorem mem_startMetric (h : mp ∈ startMetric ms pmid indom) :
    mp ∈ ms ∨ mp.ip = none ∧ ¬ms.any (·.pmid = pmid) := by
  simp only [startMetric] at h
  split at h
  case isTrue => exact .inl h
  case isFalse hn =>
    rcases mem_cons.mp h with rfl | h
    · exact .inr ⟨rfl, hn⟩
    · exact .inl h

theorem any_startMetric : (startMetric ms pmid indom).any (·.pmid = pmid) := by
  simp only [startMetric]
  split
  case isTrue h => exact h
  case isFalse h => simp

theorem startMetric_any (h : ms.any (·.pmid = p)) :
    (startMetric ms pmid indom).any (·.pmid = p) := by
  simp only [startMetric]
  split
  case isTrue => exact h
  case isFalse => exact any_cons ▸ Bool.or_eq_true_iff.mpr (.inr h)

theorem mem_foldl_startMetric {l : List (Nat × Nat)}
    (h : mp ∈ l.foldl (fun ms d => startMetric ms d.1 d.2) ms) :
    mp ∈ ms ∨ mp.ip = none ∧ ∃ d ∈ l, ¬ms.any (·.pmid = d.1) := by
  induction l generalizing ms
  case nil => exact .inl h
  case cons d l hi =>
    rcases hi h with h | ⟨hn, d', hd, ha⟩
    · rcases mem_startMetric h with h | ⟨hn, ha⟩
      · exact .inl h
      · exact .inr ⟨hn, d, mem_cons_self, ha⟩
    · exact .inr ⟨hn, d', mem_cons_of_mem _ hd, fun h => ha (startMetric_any h)⟩

theorem foldl_startMetric_any {l : List (Nat × Nat)} (h : ms.any (·.pmid = p)) :
    (l.foldl (fun ms d => startMetric ms d.1 d.2) ms).any (·.pmid = p) := by
  induction l generalizing ms
  case nil => exact h
  case cons d l hi => exact hi (startMetric_any h)

theorem any_foldl_startMetric {l : List (Nat × Nat)} (hd : d ∈ l) :
    (l.foldl (fun ms d => startMetric ms d.1 d.2) ms).any (·.pmid = d.1) := by
  induction l generalizing ms
  case nil => cases hd
  case cons d' l hi =>
    rcases mem_cons.mp hd with rfl | hd
    · rw [foldl_cons]
      exact foldl_startMetric_any any_startMetric
    · exact hi hd

theorem link_eq {mp : Linked α} (h : mp.link ip = some mp') :
    mp'.pmid = mp.pmid ∧ mp'.indom = mp.indom ∧
      mp'.ip = if mp.indom = ip.oldIndom ∧ ip.change then some ip else mp.ip := by
  simp only [Linked.link] at h
  split at h
  case isTrue hn =>
    cases h
    simp [hn]
  case isFalse he =>
    split at h <;> split at h <;> (try split at h) <;> (try split at h) <;> cases h <;> simp_all

structure LinkInv (arch : Archive) (root : List Indomspec) (ms : List (Linked α)) : Prop where
  linked : ∀ mp ∈ ms, LinkedTo root mp
  all : root.any Indomspec.change → ∀ d ∈ arch.hashpmid, ms.any (·.pmid = d.1)

theorem linkEntry_inv (h : linkEntry arch ms ip = some ms') (hi : LinkInv arch root ms)
    (hn : ∀ ip' ∈ root, ip'.oldIndom ≠ ip.oldIndom) : LinkInv arch (root ++ [ip]) ms' := by
  simp only [linkEntry] at h
  split at h
  case isTrue hs =>
    cases h
    have hc : ip.change = false := by simp_all
    constructor
    · intro mp hmp
      have hl := hi.linked mp hmp
      simp only [LinkedTo, find?_append] at hl ⊢
      cases hf : root.find? (·.oldIndom = mp.indom)
      case some => simpa [hf] using hl
      case none =>
        rw [hf] at hl
        by_cases he : ip.oldIndom = mp.indom
        · simpa [he, Option.filter, hc] using hl
        · simpa [he] using hl
    · intro ha
      exact hi.all (by simpa [hc] using ha)
  case isFalse =>
    obtain ⟨hm, hm'⟩ := Loop.exists_of_mapM h
    constructor
    · intro mp' hmp'
      obtain ⟨mp, hmp, hl⟩ := hm mp' hmp'
      obtain ⟨_, hin, hip⟩ := link_eq hl
      rw [LinkedTo, find?_append, hin, hip]
      by_cases he : mp.indom = ip.oldIndom
      · have hf : root.find? (·.oldIndom = mp.indom) = none := by simpa [he] using hn
        have hnone : mp.ip = none := by
          rcases mem_foldl_startMetric hmp with hmp | ⟨hip, _⟩
          · simpa [LinkedTo, hf] using hi.linked mp hmp
          · exact hip
        rw [hf, hnone]
        cases hc : ip.change <;> simp [he, hc, Option.filter]
      · have hf : [ip].find? (·.oldIndom = mp.indom) = none := by simpa using Ne.symm he
        rw [hf, Option.or_none, if_neg fun h => he h.left]
        rcases mem_foldl_startMetric hmp with hmp | ⟨hip, d, hd, ha⟩
        · exact hi.linked mp hmp
        · have hc : ¬root.any Indomspec.change := fun h => ha (hi.all h d hd)
          rw [hip, eq_comm, Option.filter_eq_none_iff]
          intro ip' hip' hch
          exact hc (any_eq_true.mpr ⟨ip', mem_of_find?_eq_some hip', hch⟩)
    · intro _ d hd
      have ha : (arch.hashpmid.foldl (fun ms d => startMetric ms d.1 d.2) ms).any (·.pmid = d.1) :=
        any_foldl_startMetric hd
      obtain ⟨mp, hmp, hp⟩ := any_eq_true.mp ha
      obtain ⟨mp', hmp', hl⟩ := hm' mp hmp
      exact any_eq_true.mpr ⟨mp', hmp', by simpa [(link_eq hl).left] using hp⟩

theorem linkEntries_linkedTo (hw : WF root)
    (h : linkEntries arch root ms₀ = some ms) (hmp : mp ∈ ms) : LinkedTo root mp := by
  have hnd := hw.indom
  refine (Loop.foldlM_induction (I := LinkInv arch) h ⟨?_, by simp⟩ ?_).linked mp hmp
  · intro mp hmp
    obtain ⟨m, _, rfl⟩ := mem_map.mp hmp
    rfl
  · intro ys ip zs ms ms' hr hi hl
    refine linkEntry_inv hl hi fun ip' hip' he => ?_
    rw [hr, map_append, map_cons, nodup_middle] at hnd
    exact (nodup_cons.mp hnd).left
      (mem_append_left _ (mem_map.mpr ⟨ip', hip', he⟩))

end Link

section Rules

variable {α : Type}

def Inst.ofRecord (e : Inst) (v : Int × Str) : Option (Int × Str) :=
  match e.act with
  | .delete => none
  | .change inst iname => some (inst.getD v.1, iname.getD v.2)

def Inst.ofValue (e : Inst) (v : Int × α) : Option (Int × α) :=
  match e.act with
  | .delete => none
  | .change inst _ => some (inst.getD v.1, v.2)

theorem Inst.apply_eq (e : Inst) (h : (l.map Prod.fst).count e.oldInst ≤ 1) :
    e.apply l = l.filterMap (Substitution.apply oldInst ofRecord Prod.fst e) := by
  induction l
  case nil => rfl
  case cons v l hi =>
    rw [map_cons, count_cons] at h
    simp only [apply]
    by_cases he : e.oldInst = v.1
    · have hn : e.oldInst ∉ l.map Prod.fst := by
        rw [← count_eq_zero]
        simp only [he, beq_self_eq_true, if_true] at h ⊢
        omega
      rw [if_pos he]
      cases ha : e.act
      case delete =>
        rw [filterMap_cons_none (by simp [apply_of_eq he.symm, ofRecord, ha]),
          filterMap_apply_of_not_mem hn]
      case change inst iname =>
        rw [filterMap_cons_some (by rw [apply_of_eq he.symm, ofRecord, ha]),
          filterMap_apply_of_not_mem hn]
    · rw [if_neg he, filterMap_cons_some (apply_of_ne (Ne.symm he)), hi (by omega)]

theorem Inst.applyValues_eq (e : Inst) {l : List (Int × α)}
    (h : (l.map Prod.fst).count e.oldInst ≤ 1) :
    e.applyValues l = l.filterMap (Substitution.apply oldInst ofValue Prod.fst e) := by
  simp only [applyValues]
  split
  case h_1 ha =>
    induction l
    case nil => rfl
    case cons v l hi =>
      rw [map_cons, count_cons] at h
      by_cases he : v.1 = e.oldInst
      · have hn : e.oldInst ∉ l.map Prod.fst := by
          rw [← count_eq_zero]
          simp only [he, beq_self_eq_true, if_true] at h
          omega
        rw [filterMap_cons_none (by simp [apply_of_eq he, ofValue, ha]),
          filterMap_apply_of_not_mem hn]
        simp [he]
      · rw [filterMap_cons_some (apply_of_ne he), eraseP_cons_of_neg (by simpa using he),
          hi (by omega)]
  case h_2 inst _ ha =>
    rw [← filterMap_eq_map]
    congr 1
    funext v
    by_cases he : v.1 = e.oldInst <;> simp [Substitution.apply, he, ofValue, ha]
  case h_3 ha =>
    have hid : Substitution.apply oldInst (ofValue (α := α)) Prod.fst e = some := by
      funext v
      simp [Substitution.apply, ofValue, ha]
    rw [hid, filterMap_some]

theorem Indomspec.Clear.rules {ip : Indomspec} {act : Inst → Int × β → Option (Int × β)}
    (ha : ∀ e v w, act e v = some w → w.1 = e.target.getD v.1) (hc : ip.Clear)
    (hd : (ip.inst.map (·.oldInst)).Nodup) :
    Substitution.Clear oldInst act Prod.fst ip.inst := by
  have hne : ip.inst.Pairwise fun e e' => e.oldInst ≠ e'.oldInst := pairwise_map.mp hd
  refine (hc.and hne).imp fun {e e'} h v w hv hw he => ?_
  rw [ha e v w hw] at he
  cases ht : e.target
  case none => exact h.right (hv.symm.trans (by simpa [ht] using he))
  case some n => exact h.left (by simpa [ht] using he)

theorem Inst.ofRecord_fst {e : Inst} (h : e.ofRecord v = some w) : w.1 = e.target.getD v.1 := by
  simp only [ofRecord] at h
  split at h <;> cases h
  case h_2 ha => simp [target, ha]

theorem Inst.ofValue_fst {e : Inst} {w : Int × α} (h : e.ofValue v = some w) :
    w.1 = e.target.getD v.1 := by
  simp only [ofValue] at h
  split at h <;> cases h
  case h_2 ha => simp [target, ha]

theorem Indomspec.apply_eq {ip : Indomspec} (hc : ip.Clear)
    (hd : (ip.inst.map (·.oldInst)).Nodup) (hl : (l.map Prod.fst).Nodup) :
    ip.apply l = l.filterMap (atOnce Inst.oldInst Inst.ofRecord Prod.fst ip.inst) :=
  foldl_eq_atOnce Inst.apply (fun e _ _ => e.apply_eq) hd
    (hc.rules (fun _ _ _ => Inst.ofRecord_fst) hd)
    fun _ _ => nodup_iff_count_le_one.mp hl _

theorem Indomspec.applyValues_eq {ip : Indomspec} {l : List (Int × α)} (hc : ip.Clear)
    (hd : (ip.inst.map (·.oldInst)).Nodup) (hl : (l.map Prod.fst).Nodup) :
    ip.applyValues l = l.filterMap (atOnce Inst.oldInst Inst.ofValue Prod.fst ip.inst) :=
  foldl_eq_atOnce Inst.applyValues (fun e _ _ => e.applyValues_eq) hd
    (hc.rules (fun _ _ _ => Inst.ofValue_fst) hd)
    fun _ _ => nodup_iff_count_le_one.mp hl _

end Rules

section AtOnce

variable {α : Type} {root : List Indomspec}

theorem Inst.newInst_eq (e : Inst) : e.newInst = e.target.getD e.oldInst := by
  rcases e with ⟨_, _, ⟨_ | _, _⟩ | _⟩ <;> rfl

theorem ofRecord_eq {e : Inst} (h : e.oldInst = v.1) :
    e.ofRecord v = (if e.act = .delete then none else some e.newInst).map
      (·, match e.act with | .change _ (some new) => new | _ => v.2) := by
  rcases e with ⟨_, _, ⟨_ | _, _ | _⟩ | _⟩ <;> simp [ofRecord, newInst, ← h]

theorem ofValue_eq {e : Inst} {v : Int × α} (h : e.oldInst = v.1) :
    e.ofValue v = (if e.act = .delete then none else some e.newInst).map (·, v.2) := by
  rcases e with ⟨_, _, ⟨_ | _, _⟩ | _⟩ <;> simp [ofValue, newInst, ← h]

theorem atOnce_ofRecord (h : root.find? (·.oldIndom = indom) = some ip) (v : Int × Str) :
    atOnce oldInst ofRecord Prod.fst ip.inst v =
      (substInst root indom v.1).map (·, substIname root indom v.1 v.2) := by
  simp only [atOnce, substInst, substIname, h]
  cases hf : ip.inst.find? (·.oldInst = v.1)
  case none => rfl
  case some e => exact ofRecord_eq (by simpa using find?_some hf)

theorem atOnce_ofValue (h : root.find? (·.oldIndom = indom) = some ip) (v : Int × α) :
    atOnce oldInst ofValue Prod.fst ip.inst v =
      (substInst root indom v.1).map (·, v.2) := by
  simp only [atOnce, substInst, h]
  cases hf : ip.inst.find? (·.oldInst = v.1)
  case none => rfl
  case some e => exact ofValue_eq (by simpa using find?_some hf)

theorem foldl_of_not_change {ip : Indomspec} (h : ip.change = false) {f : β → Inst → β}
    (hf : ∀ e, e.act = .change none none → f x e = x) : ip.inst.foldl f x = x := by
  rw [Indomspec.change] at h
  generalize ip.inst = insts at h
  induction insts
  case nil => rfl
  case cons e insts hi =>
    rw [any_cons, Bool.or_eq_false_iff] at h
    rw [foldl_cons, hf e (by simpa using h.left)]
    exact hi h.right

theorem apply_of_not_change {ip : Indomspec} (h : ip.change = false) (l : List (Int × Str)) :
    ip.apply l = l := by
  refine foldl_of_not_change h fun e ha => ?_
  induction l
  case nil => rfl
  case cons v l hi => simp [Inst.apply, ha, hi]

theorem applyValues_of_not_change {ip : Indomspec} (h : ip.change = false) (l : List (Int × α)) :
    ip.applyValues l = l :=
  foldl_of_not_change h fun e ha => by rw [applyValues, ha]

theorem LinkedTo.applyValues_eq (h : LinkedTo root mp) (l : List (Int × α)) :
    mp.applyValues l =
      match root.find? (·.oldIndom = mp.indom) with
      | none => l
      | some ip => ip.applyValues l := by
  rw [Linked.applyValues, h]
  cases root.find? (·.oldIndom = mp.indom)
  case none => rfl
  case some ip =>
    cases hc : ip.change
    case true => simp [Option.filter, hc]
    case false => simp [Option.filter, hc, applyValues_of_not_change hc]

def Indomspec.rewrite (ip : Indomspec) (r : Indom) : Option Indom :=
  some ⟨ip.newIndom, ip.apply r.inst⟩

theorem doIndom_eq_chain (root : List Indomspec) (r : Indom) :
    some (doIndom root r) = chain Indomspec.oldIndom Indomspec.rewrite Indom.indom root r := by
  induction root generalizing r
  case nil => rfl
  case cons ip root hi =>
    rw [doIndom, foldl_cons, ← doIndom, hi, chain, chain]
    by_cases h : ip.oldIndom = r.indom
    · simp [Substitution.apply, h, Indomspec.rewrite]
    · simp [Substitution.apply, h, Ne.symm h]

-- Of an unchained specification, a record is rewritten by the instance domain that it is for.
theorem doIndom_eq (hw : WF root) (hu : Unchained root) (r : Indom) :
    doIndom root r =
      match root.find? (·.oldIndom = r.indom) with
      | none => r
      | some ip => ⟨ip.newIndom, ip.apply r.inst⟩ := by
  have hidle : ∀ ip ∈ root, ip.active = false → ∀ r : Indom, r.indom = ip.oldIndom →
      ip.rewrite r = some r := by
    intro ip _ ha r hr
    simp only [Indomspec.active, Bool.or_eq_false_iff, decide_eq_false_iff_not, not_not] at ha
    rw [Indomspec.rewrite, apply_of_not_change ha.left, ha.right, ← hr]
  have hclear : Clear Indomspec.oldIndom Indomspec.rewrite Indom.indom
      (root.filter Indomspec.active) := by
    refine Pairwise.imp (fun h r r' _ hr => ?_) hu
    cases hr
    exact h
  have h := doIndom_eq_chain root r
  rw [← chain_filter hidle, chain_eq_atOnce hclear, atOnce_filter hw.indom hidle, atOnce] at h
  refine Option.some_inj.mp (h.trans ?_)
  cases root.find? (·.oldIndom = r.indom) <;> rfl

theorem find?_oldIndom (hw : WF root) (hip : ip ∈ root) :
    root.find? (·.oldIndom = ip.oldIndom) = some ip := by
  have hnd := hw.indom
  clear hw
  induction root
  case nil => cases hip
  case cons ip' root hi =>
    obtain ⟨hn, hnd⟩ := nodup_cons.mp hnd
    rcases mem_cons.mp hip with rfl | hip
    · simp
    · have hne : ip'.oldIndom ≠ ip.oldIndom := fun he =>
        hn (mem_map.mpr ⟨ip, hip, he.symm⟩)
      rw [find?_cons_of_neg (by simpa using hne), hi hip hnd]

theorem checkInsts_nodup (h : checkInsts l) : (l.map newInst).Nodup := by
  simp only [checkInsts, all_eq_true, Bool.or_eq_true, Bool.and_eq_true,
    decide_eq_true_eq] at h
  refine pairwise_map.mpr (pairwise_iff_getElem.mpr fun i j hi hj hij => ?_)
  have hm : ∀ k (hk : k < l.length), (l[k], k) ∈ l.zipIdx := fun k hk => by
    simp [mem_zipIdx_iff_getElem?]
  rcases h _ (hm i hi) _ (hm j hj) with he | hne
  · exact absurd he (Nat.ne_of_lt hij)
  · exact hne.left

theorem subst_eq (hw : WF root) (hip : ip ∈ root) (l : List (Int × Str)) :
    Indom.subst root ⟨ip.oldIndom, l⟩ =
      ⟨ip.newIndom, l.filterMap (atOnce oldInst ofRecord Prod.fst ip.inst)⟩ := by
  have hf := find?_oldIndom hw hip
  rw [Indom.subst, substIndom, hf]
  exact congrArg _ (congrArg (filterMap · l) (funext fun v => (atOnce_ofRecord hf v).symm))

-- A record with the instance that is renumbered first shows the difference.
theorem clear_of_doIndom (hw : WF root) (hu : Unchained root) (hip : ip ∈ root)
    (hck : checkInsts ip.inst)
    (h : ∀ r : Indom, (r.inst.map Prod.fst).Nodup → doIndom root r = r.subst root) : ip.Clear := by
  refine pairwise_iff_getElem.mpr fun i j hi hj hij ht => ?_
  have hnew := checkInsts_nodup hck
  have hl : ip.inst.take i ++ ip.inst[i] :: ip.inst.drop (i + 1) = ip.inst := by simp
  have hmem : ip.inst[j] ∈ ip.inst.drop (i + 1) :=
    mem_iff_getElem.mpr ⟨j - (i + 1), by simp; omega, by simp; congr 1; omega⟩
  generalize ip.inst[i] = e at ht hl
  generalize ip.inst[j] = e' at ht hmem
  generalize ip.inst.take i = l₁, ip.inst.drop (i + 1) = l₂ at hl hmem
  have hr := h ⟨ip.oldIndom, [(e.oldInst, e.oldIname)]⟩ (by simp)
  rw [doIndom_eq hw hu, find?_oldIndom hw hip, subst_eq hw hip] at hr
  have hlist := (Indom.mk.inj hr).right
  rw [Indomspec.apply, foldl_singleton apply fun e _ _ => e.apply_eq] at hlist
  have heq : ∀ a b : Option (Int × Str), a.toList = b.toList → a = b := by
    rintro (_ | a) (_ | b) hab <;> simp_all
  obtain ⟨iname, hact⟩ : ∃ iname, e.act = .change (some e'.oldInst) iname := by
    simp only [target] at ht
    split at ht
    case h_1 inst iname ha => exact ⟨iname, ht ▸ ha⟩
    case h_2 => cases ht
  have hy : e.ofRecord (e.oldInst, e.oldIname) = some (e'.oldInst, iname.getD e.oldIname) := by
    simp [ofRecord, hact]
  have hd := hw.inst ip hip
  rw [← hl] at hlist hd hnew
  have hne : chain oldInst ofRecord Prod.fst (l₁ ++ e :: l₂) (e.oldInst, e.oldIname) ≠
      atOnce oldInst ofRecord Prod.fst (l₁ ++ e :: l₂) (e.oldInst, e.oldIname) := by
    refine chain_ne_atOnce hd rfl hy ⟨e', hmem, rfl⟩ fun s hs x z hx hz he => ?_
    -- the new identifiers are different
    rw [map_append, nodup_append] at hnew
    refine (nodup_cons.mp hnew.right.left).left (mem_map.mpr ⟨s, hs, ?_⟩)
    rw [newInst_eq, newInst_eq, ht, ← hx, ← ofRecord_fst hz, he]
    rfl
  refine hne (heq _ _ (hlist.trans ?_))
  cases ha : atOnce oldInst ofRecord Prod.fst (l₁ ++ e :: l₂) (e.oldInst, e.oldIname) <;>
    simp [ha]

theorem disks_unique :
    ∀ d ∈ [(5, [((1 : Int), ([97] : Str)), (2, [98])])], (d.2.map Prod.fst).Nodup := by
  decide

def disks : Archive where
  hashpmid := [(7, 5)]
  hashindom := [(5, [(1, [97]), (2, [98])])]
  unique := disks_unique

def disksRoot (act act' : Act) : List Indomspec :=
  [⟨5, 5, [⟨1, [97], act⟩, ⟨2, [98], act'⟩]⟩]

def disksLinked (root : List Indomspec) : List (Linked Unit) :=
  [⟨⟨7, 5, none, none, false, id, id⟩, root.head?⟩]

end AtOnce

end Rewrite
