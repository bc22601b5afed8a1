import PcpModel.OptFetch.Basic

namespace OptFetch

open List

namespace Insts

-- The set is the union of the instances that are asked for by the requests.
def Union (u : Insts) (rqs : List Req) : Prop :=
  match u with
  | unset => rqs = []
  | all => ∃ rq ∈ rqs, rq.instlist = []
  | list is => rqs ≠ [] ∧ (∀ rq ∈ rqs, rq.instlist ≠ []) ∧ is.Pairwise (· < ·) ∧
    ∀ i, i ∈ is ↔ ∃ rq ∈ rqs, i ∈ rq.instlist

variable {u : Insts} {rqs rqs' : List Req}

theorem Union.congr (h : u.Union rqs) (hm : ∀ rq, rq ∈ rqs' ↔ rq ∈ rqs) : u.Union rqs' := by
  have hn : rqs' = [] ↔ rqs = [] := by simp [eq_nil_iff_forall_not_mem, hm]
  cases u <;> simp_all [Union]

theorem Union.instlist (h : u.Union rqs) (ha : u ≠ all) :
    u.instlist.Pairwise (· < ·) ∧ ∀ i, i ∈ u.instlist ↔ ∃ rq ∈ rqs, i ∈ rq.instlist := by
  cases u
  case unset => simp_all [Union, Insts.instlist]
  case all => contradiction
  case list is => exact h.right.right

theorem Union.addinst (h : u.Union rqs) : (u.addinst rq).Union (rq :: rqs) := by
  unfold Insts.addinst
  split
  case isTrue ha =>
    have ⟨rq, hm, hi⟩ := ha ▸ h
    exact ⟨rq, by simp [hm], hi⟩
  case isFalse ha =>
    split
    case isTrue hi => exact ⟨rq, by simp, hi⟩
    case isFalse hi =>
      have ⟨hs, hl⟩ := h.instlist ha
      refine ⟨by simp, ?_, SortedSet.pairwise_insertAll hs, by simp [hl, or_comm]⟩
      cases u <;> simp_all [Union]

theorem Union.foldl (h : u.Union rqs) : (rqs'.foldl Insts.addinst u).Union (rqs ++ rqs') := by
  induction rqs' generalizing u rqs
  case nil => simpa
  case cons rq rqs' hi => exact hi h.addinst |>.congr <| by simp; tauto

theorem union_foldl : (rqs.foldl Insts.addinst unset).Union rqs :=
  have h : unset.Union [] := rfl
  h.foldl

end Insts

structure PmidCtl.Shape (indom : Nat) (pmp : PmidCtl) : Prop where
  indoms : ∀ rq ∈ pmp.rqs, rq.indom = indom
  pmids : ∀ rq ∈ pmp.rqs, rq.pmid = pmp.pmid

structure IndomCtl.Shape (idp : IndomCtl) : Prop where
  nodup : (idp.pmps.map (·.pmid)).Nodup
  pmps : ∀ pmp ∈ idp.pmps, pmp.Shape idp.indom

structure Shape (idps : List IndomCtl) : Prop where
  nodup : (idps.map (·.indom)).Nodup
  idps : ∀ idp ∈ idps, idp.Shape

structure PmidCtl.Good (indom : Nat) (pmp : PmidCtl) : Prop extends pmp.Shape indom where
  insts : pmp.insts.Union pmp.rqs

structure IndomCtl.Good (idp : IndomCtl) : Prop where
  nodup : (idp.pmps.map (·.pmid)).Nodup
  pmps : ∀ pmp ∈ idp.pmps, pmp.Good idp.indom
  insts : idp.insts.Union idp.reqs

structure Good (idps : List IndomCtl) : Prop where
  nodup : (idps.map (·.indom)).Nodup
  idps : ∀ idp ∈ idps, idp.Good

-- There are no control structures without requests.
def PmidCtl.Full (pmp : PmidCtl) : Prop :=
  pmp.rqs ≠ []

def IndomCtl.Full (idp : IndomCtl) : Prop :=
  idp.pmps ≠ [] ∧ ∀ pmp ∈ idp.pmps, pmp.Full

def Full (idps : List IndomCtl) : Prop :=
  idps ≠ [] ∧ ∀ idp ∈ idps, idp.Full

section Lists

variable {p : α → Bool} {f : α → α}

theorem editFirst_append (hn : ∀ b ∈ as, p b = false) (ha : p a) :
    editFirst p f (as ++ a :: bs) = as ++ f a :: bs := by
  induction as <;> simp_all [editFirst]

theorem find?_cases (p : α → Bool) (as : List α) :
    (as.find? p = none ∧ ∀ a ∈ as, p a = false) ∨
    ∃ bs a cs, as = bs ++ a :: cs ∧ as.find? p = some a ∧ p a ∧ ∀ b ∈ bs, p b = false := by
  cases hf : as.find? p
  case none => exact .inl ⟨rfl, by simpa using hf⟩
  case some a =>
    have ⟨ha, bs, cs, he, hn⟩ := find?_eq_some_iff_append.mp hf
    exact .inr ⟨bs, a, cs, he, rfl, ha, by simpa using hn⟩

end Lists

variable {c : OptCost} {rq : Req} {root : Bool} {fp : FetchCtl} {idps : List IndomCtl}

-- There is a single place in which the request fits.
structure Place (rq : Req) (idps : List IndomCtl) (is₁ is₂ : List IndomCtl) (idp : IndomCtl)
    (ps₁ ps₂ : List PmidCtl) (pmp : PmidCtl) : Prop where
  idps : idps = is₁ ++ idp :: is₂
  pmps : idp.pmps = ps₁ ++ pmp :: ps₂
  indom : isIndom rq idp
  pmid : isPmid rq pmp
  noIndom : ∀ i ∈ is₁, isIndom rq i = false
  noPmid : ∀ p ∈ ps₁, isPmid rq p = false

theorem addInsts_eq (h : Place rq idps is₁ is₂ idp ps₁ ps₂ pmp) :
    addInsts rq idps =
      is₁ ++ { idp with
        insts := idp.insts.addinst rq
        pmps := ps₁ ++ { pmp with insts := pmp.insts.addinst rq } :: ps₂
      } :: is₂ := by
  rw [addInsts, h.idps, editFirst_append h.noIndom h.indom, addInsts.addIndom, h.pmps,
    editFirst_append h.noPmid h.pmid, addInsts.addPmid]

inductive Creates (rq : Req) (idps : List IndomCtl) : Bool → Bool → List IndomCtl → Prop
  | indom (indoms : ∀ idp ∈ idps, isIndom rq idp = false) :
    Creates rq idps true true ({ newIndom rq with pmps := [newPmid rq] } :: idps)
  | pmid (he : idps = is₁ ++ idp :: is₂) (indom : isIndom rq idp)
    (indoms : ∀ i ∈ is₁, isIndom rq i = false) (pmids : ∀ pmp ∈ idp.pmps, isPmid rq pmp = false) :
    Creates rq idps false true (is₁ ++ { idp with pmps := newPmid rq :: idp.pmps } :: is₂)
  | none (place : Place rq idps is₁ is₂ idp ps₁ ps₂ pmp) : Creates rq idps false false idps

theorem create_creates :
    Creates rq idps (missesIndom rq idps) (missesPmid rq idps) (create rq idps) := by
  rcases find?_cases (isIndom rq) idps with ⟨hf, hn⟩ | ⟨is₁, idp, is₂, he, hf, hi, hn⟩
  case inl =>
    have hc : create rq idps = { newIndom rq with pmps := [newPmid rq] } :: idps := by
      simp [create, missesIndom, missesPmid, hf, editFirst, isIndom, newIndom, create.addPmid]
    simp only [missesIndom, missesPmid, hf, hc]
    exact .indom hn
  case inr =>
    rcases find?_cases (isPmid rq) idp.pmps with ⟨_, hn'⟩ | ⟨ps₁, pmp, ps₂, he', _, hp, hn'⟩
    case inl =>
      have hm : missesPmid rq idps := by simpa [missesPmid, hf] using hn'
      have hc : create rq idps = is₁ ++ { idp with pmps := newPmid rq :: idp.pmps } :: is₂ := by
        simp only [create, missesIndom, hf, hm]
        simp [he, editFirst_append hn hi, create.addPmid]
      simp only [missesIndom, hf, hm, hc]
      exact .pmid he hi hn hn'
    case inr =>
      have hm : missesPmid rq idps = false := by
        simp [missesPmid, hf, he', hp]
      simp only [missesIndom, hf, hm, create]
      exact .none ⟨he, he', hi, hp, hn, hn'⟩

namespace Creates

theorem place (h : Creates rq idps xi xp idps') :
    ∃ is₁ is₂ idp ps₁ ps₂ pmp, Place rq idps' is₁ is₂ idp ps₁ ps₂ pmp ∧
      ((∀ i ∈ idps, i.Full) → (∀ i ∈ is₁ ++ is₂, i.Full) ∧ ∀ p ∈ ps₁ ++ ps₂, p.Full) := by
  have hi : isIndom rq (newIndom rq) := decide_eq_true rfl
  have hp : isPmid rq (newPmid rq) := decide_eq_true rfl
  cases h
  case indom =>
    refine ⟨[], idps, _, [], [], newPmid rq, ⟨rfl, rfl, hi, hp, by simp, by simp⟩, ?_⟩
    simp
  case pmid is₁ idp is₂ he hi hn _ =>
    refine ⟨is₁, is₂, _, [], idp.pmps, newPmid rq, ⟨rfl, rfl, hi, hp, hn, by simp⟩, fun h => ?_⟩
    exact ⟨fun i hm => h i (by grind), h idp (by simp [he]) |>.right⟩
  case none is₁ is₂ idp ps₁ ps₂ pmp p =>
    refine ⟨is₁, is₂, idp, ps₁, ps₂, pmp, p, fun h => ?_⟩
    have hf := h idp (by simp [p.idps]) |>.right
    exact ⟨fun i hm => h i (by grind [p.idps]), fun pmp' hm => hf pmp' (by grind [p.pmps])⟩

theorem reqs_eq (h : Creates rq idps xi xp idps') : reqs idps' = reqs idps := by
  cases h
  case indom => simp [reqs, IndomCtl.reqs, newPmid]
  case pmid he _ _ _ => simp [reqs, IndomCtl.reqs, newPmid, he]
  case none => rfl

theorem mem_pmids (h : Creates rq idps xi xp idps') :
    m ∈ pmids idps' ↔ m = rq.pmid ∨ m ∈ pmids idps := by
  cases h
  case indom => simp [pmids, newPmid]
  case pmid he _ _ _ =>
    simp only [pmids, he, flatMap_append, flatMap_cons, map_cons,
      cons_append, mem_append, mem_cons]
    exact or_left_comm
  case none p =>
    suffices rq.pmid ∈ pmids idps by grind
    have hp : _ = rq.pmid := of_decide_eq_true p.pmid
    simp [pmids, p.idps, p.pmps, hp]

theorem good (h : Creates rq idps xi xp idps') (hg : Good idps) : Good idps' := by
  have hu {idp : IndomCtl} : { idp with pmps := newPmid rq :: idp.pmps }.reqs = idp.reqs := by
    simp [IndomCtl.reqs, newPmid]
  have hn {indom} : (newPmid rq).Good indom := ⟨⟨by simp [newPmid], by simp [newPmid]⟩, rfl⟩
  cases h
  case none => exact hg
  case indom hi =>
    constructor
    · simp [hg.nodup]
      simpa [isIndom, newIndom] using hi
    · simp only [forall_mem_cons]
      refine ⟨⟨by simp, by simpa using hn, rfl⟩, hg.idps⟩
  case pmid is₁ idp is₂ he hi hf hp =>
    subst he
    have hd := hg.idps idp (by simp)
    constructor
    · simpa using hg.nodup
    · intro i hm
      by_cases he : i = { idp with pmps := newPmid rq :: idp.pmps }
      case neg => exact hg.idps i (by simp_all; tauto)
      case pos =>
        subst he
        refine ⟨?_, ?_, hu ▸ hd.insts⟩
        · simp [hd.nodup]
          simpa [isPmid, newPmid] using hp
        · simpa [hn] using hd.pmps

theorem drop_eq (h : Creates rq idps xi xp idps') :
    (drop rq xp xi (addInsts rq idps')).map IndomCtl.redoinst = idps.map IndomCtl.redoinst := by
  cases h
  case indom =>
    simp [addInsts, drop, editFirst, after, isIndom, newIndom, drop.dropPmid, addInsts.addIndom]
  case pmid is₁ idp is₂ he hi hn hp =>
    let idp' := { idp with pmps := newPmid rq :: idp.pmps }
    have hq : isPmid rq (newPmid rq) := decide_eq_true rfl
    have hp : Place rq _ is₁ is₂ idp' [] idp.pmps (newPmid rq) := ⟨rfl, rfl, hi, hq, hn, by simp⟩
    rw [drop, addInsts_eq hp, editFirst_append hn (by exact hi), drop.dropPmid]
    simp [he, idp', after, isPmid, newPmid, IndomCtl.redoinst, IndomCtl.reqs]
  case none p =>
    rw [addInsts_eq p, drop, p.idps]
    simp [IndomCtl.redoinst, PmidCtl.redoinst, IndomCtl.reqs, p.pmps]

end Creates

@[simp]
theorem IndomCtl.reqs_redoinst {idp : IndomCtl} : idp.redoinst.reqs = idp.reqs := by
  simp [IndomCtl.reqs, IndomCtl.redoinst, flatMap_map, PmidCtl.redoinst]

@[simp]
theorem reqs_redoinst : reqs (idps.map .redoinst) = reqs idps := by
  simp [reqs, flatMap_map]

@[simp]
theorem pmids_redoinst : pmids (idps.map .redoinst) = pmids idps := by
  simp [pmids, flatMap_map, IndomCtl.redoinst, Function.comp_def, PmidCtl.redoinst]

theorem Full.redoinst (h : Full idps) : Full (idps.map .redoinst) := by
  simpa [Full, IndomCtl.Full, IndomCtl.redoinst, PmidCtl.Full, PmidCtl.redoinst] using h

theorem Shape.redoinst (h : Shape idps) : Good (idps.map .redoinst) := by
  constructor
  · simpa [Function.comp_def, IndomCtl.redoinst] using h.nodup
  · intro idp hm
    obtain ⟨idp, hi, rfl⟩ := mem_map.mp hm
    refine ⟨?_, fun pmp hm => ?_, by rw [IndomCtl.reqs_redoinst]; exact Insts.union_foldl⟩
    · simpa [Function.comp_def, IndomCtl.redoinst, PmidCtl.redoinst] using (h.idps idp hi).nodup
    · obtain ⟨pmp, hp, rfl⟩ := mem_map.mp hm
      have hs := h.idps idp hi |>.pmps pmp hp
      exact ⟨⟨hs.indoms, hs.pmids⟩, Insts.union_foldl⟩

theorem Good.shape (h : Good idps) : Shape idps :=
  ⟨h.nodup, fun idp hi => ⟨(h.idps idp hi).nodup, fun pmp hp =>
    (h.idps idp hi).pmps pmp hp |>.toShape⟩⟩

theorem PmidCtl.Good.link {pmp : PmidCtl} (h : pmp.Good indom) (hi : rq.indom = indom)
    (hp : rq.pmid = pmp.pmid) :
    PmidCtl.Good indom { pmp with insts := pmp.insts.addinst rq, rqs := rq :: pmp.rqs } where
  indoms := by simpa [hi] using h.indoms
  pmids := by simpa [hp] using h.pmids
  insts := h.insts.addinst

theorem IndomCtl.Good.link {idp : IndomCtl} (h : idp.Good) (he : idp.pmps = ps₁ ++ pmp :: ps₂)
    (hi : rq.indom = idp.indom) (hp : rq.pmid = pmp.pmid) :
    IndomCtl.Good { idp with
      insts := idp.insts.addinst rq
      pmps := ps₁ ++ { pmp with insts := pmp.insts.addinst rq, rqs := rq :: pmp.rqs } :: ps₂
    } where
  nodup := by simpa [he] using h.nodup
  pmps := by
    intro pmp' hm
    obtain hm | rfl | hm := by simpa using hm
    · exact h.pmps pmp' (by simp [he, hm])
    · exact h.pmps pmp (by simp [he]) |>.link hi hp
    · exact h.pmps pmp' (by simp [he, hm])
  insts := by
    refine h.insts.addinst.congr fun rq' => ?_
    simp only [IndomCtl.reqs, he, flatMap_append, flatMap_cons, cons_append,
      mem_append, mem_cons]
    exact or_left_comm

namespace Place

theorem link_addInsts (h : Place rq idps is₁ is₂ idp ps₁ ps₂ pmp) :
    link rq (addInsts rq idps) =
      is₁ ++ { idp with
        insts := idp.insts.addinst rq
        pmps := ps₁ ++ { pmp with insts := pmp.insts.addinst rq, rqs := rq :: pmp.rqs } :: ps₂
      } :: is₂ := by
  rw [addInsts_eq h, link, editFirst_append h.noIndom (by exact h.indom), link.linkIndom,
    editFirst_append h.noPmid (by exact h.pmid), link.linkPmid]

theorem good (h : Place rq idps is₁ is₂ idp ps₁ ps₂ pmp) (hg : Good idps) :
    Good (link rq (addInsts rq idps)) := by
  have ⟨hd, hi⟩ := h.idps ▸ hg
  rw [h.link_addInsts]
  refine ⟨by simpa using hd, fun idp' hm => ?_⟩
  obtain hm | rfl | hm := by simpa using hm
  · exact hi idp' (by simp [hm])
  · have hi := hi idp (by simp)
    exact hi.link h.pmps (of_decide_eq_true h.indom).symm (of_decide_eq_true h.pmid).symm
  · exact hi idp' (by simp [hm])

theorem full (h : Place rq idps is₁ is₂ idp ps₁ ps₂ pmp) (hi : ∀ i ∈ is₁ ++ is₂, i.Full)
    (hp : ∀ p ∈ ps₁ ++ ps₂, p.Full) : Full (link rq (addInsts rq idps)) := by
  rw [h.link_addInsts]
  refine ⟨by simp, fun i hm => ?_⟩
  obtain hm | rfl | hm := by simpa using hm
  · exact hi i (by simp [hm])
  · refine ⟨by simp, fun p hm => ?_⟩
    obtain hm | rfl | hm := by simpa using hm
    · exact hp p (by simp [hm])
    · simp [PmidCtl.Full]
    · exact hp p (by simp [hm])
  · exact hi i (by simp [hm])

theorem perm_reqs (h : Place rq idps is₁ is₂ idp ps₁ ps₂ pmp) :
    (reqs (link rq (addInsts rq idps))).Perm (rq :: reqs idps) := by
  rw [h.link_addInsts]
  simp only [reqs, h.idps, IndomCtl.reqs, flatMap_append, flatMap_cons,
    h.pmps]
  rw [append_assoc, ← append_assoc]
  refine perm_middle.trans ?_
  simp

theorem pmids_eq (h : Place rq idps is₁ is₂ idp ps₁ ps₂ pmp) :
    pmids (link rq (addInsts rq idps)) = pmids idps := by
  rw [h.link_addInsts]
  simp [pmids, h.idps, h.pmps]

end Place

structure FetchCtl.Good (fp : FetchCtl) : Prop where
  good : OptFetch.Good fp.idps
  full : Full fp.idps
  sorted : fp.pmidlist.Pairwise (· > ·)
  pmids : ∀ pmid, pmid ∈ fp.pmidlist ↔ pmid ∈ pmids fp.idps

-- Instances are added to a group only for as long as it is not known which group is chosen.
theorem undo_tryAdd (h : fp.Good) :
    ∃ fp', undo rq (tryAdd c rq false fp) = some fp' ∧ fp'.Good ∧ reqs fp'.idps = reqs fp.idps := by
  refine ⟨_, rfl, ?_⟩
  have hd := (@create_creates rq fp.idps).drop_eq
  refine ⟨⟨?_, ?_, h.sorted, ?_⟩, ?_⟩ <;> simp only [FetchCtl.redoinst, tryAdd, hd]
  · exact h.good.shape.redoinst
  · exact h.full.redoinst
  · simpa using h.pmids
  · simp

theorem undo_tryAdd_root : undo rq (tryAdd c rq true fp) = none :=
  rfl

theorem commit_tryAdd (hg : Good fp.idps) (hf : ∀ idp ∈ fp.idps, idp.Full)
    (hs : fp.pmidlist.Pairwise (· > ·)) (hp : ∀ pmid, pmid ∈ fp.pmidlist ↔ pmid ∈ pmids fp.idps) :
    (commit rq (tryAdd c rq root fp)).Good ∧
      (reqs (commit rq (tryAdd c rq root fp)).idps).Perm (rq :: reqs fp.idps) := by
  have hc := @create_creates rq fp.idps
  have ⟨_, _, _, _, _, _, p, hf'⟩ := hc.place
  constructor
  · constructor
    · exact p.good (hc.good hg)
    · exact p.full (hf' hf).left (hf' hf).right
    · exact SortedSet.pairwise_insert hs
    · intro m
      simp [commit, addpmid, tryAdd, p.pmids_eq, hc.mem_pmids, hp]
  · exact hc.reqs_eq ▸ p.perm_reqs

end OptFetch
