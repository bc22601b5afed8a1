import Mathlib.Data.List.Sort
import PcpModel.OptFetch.Execution

-- What __pmOptFetchAdd leaves of the groups that it does not choose.
namespace OptFetch

open List Option

variable {c : OptCost} {rq : Req} {fp fp' : FetchCtl} {root : List FetchCtl} {id : Nat}

-- The instances are determined by the requests, in whatever order these are added.
theorem Insts.Union.unique {u u' : Insts} (h : u.Union rqs) (h' : u'.Union rqs) : u = u' := by
  cases u <;> cases u'
  case unset.unset | all.all => rfl
  case list.list is is' =>
    have he : is = is' := h.right.right.left.eq_of_mem_iff h'.right.right.left fun i =>
      (h.right.right.right i).trans (h'.right.right.right i).symm
    rw [he]
  case all.list =>
    have ⟨rq, hm, hn⟩ := h
    exact absurd hn (h'.right.left rq hm)
  case list.all =>
    have ⟨rq, hm, hn⟩ := h'
    exact absurd hn (h.right.left rq hm)
  all_goals simp_all [Insts.Union]

theorem PmidCtl.Good.redoinst_eq {pmp : PmidCtl} (h : pmp.Good indom) : pmp.redoinst = pmp := by
  rw [PmidCtl.redoinst, Insts.union_foldl.unique h.insts]

theorem IndomCtl.Good.redoinst_eq {idp : IndomCtl} (h : idp.Good) : idp.redoinst = idp := by
  have hp : idp.pmps.map .redoinst = idp.pmps :=
    (map_congr_left fun pmp hm => (h.pmps pmp hm).redoinst_eq).trans (map_id _)
  rw [IndomCtl.redoinst, hp, Insts.union_foldl.unique h.insts]

theorem Good.redoinst_eq {idps : List IndomCtl} (h : OptFetch.Good idps) :
    idps.map .redoinst = idps :=
  (map_congr_left fun idp hm => (h.idps idp hm).redoinst_eq).trans (map_id _)

def FetchCtl.refresh (c : OptCost) (rq : Req) (fp : FetchCtl) : FetchCtl :=
  { fp with
    cost := optCost c fp
    newcost := (tryAdd c rq false fp).newcost
    state := fp.state.umask
  }

theorem undo_tryAdd_eq (h : fp.Good) :
    undo rq (tryAdd c rq false fp) = some (fp.refresh c rq) := by
  have hd := (@create_creates rq fp.idps).drop_eq
  rw [h.good.redoinst_eq] at hd
  have hu : undo rq (tryAdd c rq false fp) = some { fp.refresh c rq with
      idps := (drop rq (missesPmid rq fp.idps) (missesIndom rq fp.idps)
        (addInsts rq (create rq fp.idps))).map .redoinst } := rfl
  rw [hu, hd]
  rfl

theorem settle_eq (h : ∀ fp ∈ root, fp.Good) :
    settle rq t i (root.map (tryAdd c rq false)) = root.mapIdx fun j fp =>
      if t = some (i + j) then commit rq (tryAdd c rq false fp) else fp.refresh c rq := by
  induction root generalizing i
  case nil => rfl
  case cons fp root hi =>
    have ⟨hg, h⟩ := forall_mem_cons.mp h
    rw [map_cons, settle, hi h, undo_tryAdd_eq hg, mapIdx_cons]
    simp only [Nat.add_zero, show ∀ j, i + 1 + j = i + (j + 1) by omega]
    split <;> rfl

def tried (c : OptCost) (rq : Req) (root : List FetchCtl) : List FetchCtl :=
  tryAdd c rq true .calloc :: root.map (tryAdd c rq false)

theorem pmOptFetchAdd_eq (h : ∀ fp ∈ root, fp.Good) :
    pmOptFetchAdd c rq root =
      (if chosen c (tried c rq root) = some 0 then [commit rq (tryAdd c rq true .calloc)]
        else []) ++
      root.mapIdx fun i fp =>
        if chosen c (tried c rq root) = some (i + 1) then commit rq (tryAdd c rq false fp)
        else fp.refresh c rq := by
  have hs : pmOptFetchAdd c rq root =
      settle rq (chosen c (tried c rq root)) 0 (tried c rq root) := rfl
  rw [hs, tried, settle, settle_eq h, undo_tryAdd_root]
  simp only [Nat.zero_add, Nat.add_comm 1]
  split <;> rfl

section Cheapest

def FetchCtl.price (c : OptCost) (fp : FetchCtl) : Int :=
  if c.scope then fp.newcost else fp.newcost - fp.cost

-- The group is the cheapest one. None is chosen if all are infinitely expensive.
def Cheapest (c : OptCost) (fps : List FetchCtl) : Option Nat → Prop
  | none => ∀ fp ∈ fps, optCostInfinity ≤ fp.price c
  | some k => ∃ fp, fps[k]? = some fp ∧ ∀ fp' ∈ fps, fp.price c ≤ fp'.price c

variable {fps : List FetchCtl}

theorem chosen_go_cons :
    chosen.go c tfp mincost i (fp :: fps) =
      if fp.price c < mincost then chosen.go c (some i) (fp.price c) (i + 1) fps
      else chosen.go c tfp mincost (i + 1) fps :=
  rfl

theorem chosen_go_none (h : chosen.go c tfp mincost i fps = none) :
    tfp = none ∧ ∀ fp ∈ fps, mincost ≤ fp.price c := by
  induction fps generalizing tfp mincost i
  case nil => exact ⟨h, by simp⟩
  case cons fp fps hi =>
    rw [chosen_go_cons] at h
    split at h
    case isTrue hl => exact absurd (hi h).left nofun
    case isFalse hl =>
      have ⟨ht, hf⟩ := hi h
      exact ⟨ht, forall_mem_cons.mpr ⟨Int.not_lt.mp hl, hf⟩⟩

theorem chosen_go_cheapest (h : chosen.go c tfp mincost i fps = some k) :
    (tfp = some k ∧ ∀ fp ∈ fps, mincost ≤ fp.price c) ∨
    ∃ j fp, k = i + j ∧ fps[j]? = some fp ∧ fp.price c < mincost ∧
      ∀ fp' ∈ fps, fp.price c ≤ fp'.price c := by
  induction fps generalizing tfp mincost i
  case nil => exact .inl ⟨h, by simp⟩
  case cons fp fps hi =>
    rw [chosen_go_cons] at h
    split at h
    case isTrue hl =>
      rcases hi h with ⟨ht, hf⟩ | ⟨j, fp', hk, hj, hp, hf⟩
      case inl =>
        obtain rfl := some.inj ht
        exact .inr ⟨0, fp, rfl, rfl, hl, forall_mem_cons.mpr ⟨Int.le_refl _, hf⟩⟩
      case inr =>
        refine .inr ⟨j + 1, fp', by omega, hj, Int.lt_trans hp hl, ?_⟩
        exact forall_mem_cons.mpr ⟨Int.le_of_lt hp, hf⟩
    case isFalse hl =>
      rcases hi h with ⟨ht, hf⟩ | ⟨j, fp', hk, hj, hp, hf⟩
      case inl => exact .inl ⟨ht, forall_mem_cons.mpr ⟨Int.not_lt.mp hl, hf⟩⟩
      case inr =>
        refine .inr ⟨j + 1, fp', by omega, hj, hp, forall_mem_cons.mpr ⟨?_, hf⟩⟩
        exact Int.le_trans (Int.le_of_lt hp) (Int.not_lt.mp hl)

theorem chosen_cheapest (c : OptCost) (fps : List FetchCtl) : Cheapest c fps (chosen c fps) := by
  cases h : chosen c fps
  case none => exact (chosen_go_none h).right
  case some k =>
    rcases chosen_go_cheapest h with ⟨ht, -⟩ | ⟨j, fp, hk, hj, -, hf⟩
    case inl => cases ht
    case inr =>
      rw [Nat.zero_add] at hk
      exact ⟨fp, hk ▸ hj, hf⟩

end Cheapest

structure FetchCtl.Settled (fp : FetchCtl) : Prop extends fp.Good where
  idle : fp.state.umask = fp.state

theorem FetchCtl.Settled.refresh (h : fp.Settled) : (fp.refresh c rq).Settled where
  good := h.good
  full := h.full
  sorted := h.sorted
  pmids := h.pmids
  idle := rfl

theorem FetchCtl.Settled.commit (h : fp.Settled) :
    (commit rq (tryAdd c rq new fp)).Settled where
  toGood := (commit_tryAdd h.good h.full.right h.sorted h.pmids).left
  idle := rfl

theorem settled_commit_calloc : (commit rq (tryAdd c rq true .calloc)).Settled where
  toGood := (@commit_tryAdd c rq true .calloc ⟨.nil, nofun⟩ nofun .nil fun _ => .rfl).left
  idle := rfl

theorem pmOptFetchAdd_settled (h : ∀ fp ∈ root, fp.Settled) :
    ∀ fp ∈ pmOptFetchAdd c rq root, fp.Settled := by
  rw [pmOptFetchAdd_eq fun fp hm => (h fp hm).toGood, forall_mem_append]
  constructor
  case left =>
    split
    case isTrue => exact forall_mem_singleton.mpr settled_commit_calloc
    case isFalse => simp
  case right =>
    intro fp hm
    obtain ⟨i, hi, rfl⟩ := mem_mapIdx.mp hm
    have hs := h _ (getElem_mem hi)
    split
    case isTrue => exact hs.commit
    case isFalse => exact hs.refresh

theorem FetchCtl.Settled.of_del (h : fp.Settled) (hd : fp.del c id = some (some fp')) :
    fp'.Settled where
  toGood := h.toGood.of_del hd
  idle := by
    have ⟨idps, _, he⟩ := map_eq_some_iff.mp hd
    split at he <;> simp at he
    rw [← he]
    rfl

theorem pmOptFetchDel_settled (h : ∀ fp ∈ root, fp.Settled) :
    ∀ fp ∈ (pmOptFetchDel c id root).fst, fp.Settled := by
  rw [pmOptFetchDel]
  split
  case h_1 => exact h
  case h_2 hd => exact delFirst_forall hd h fun _ _ hs => hs.of_del

theorem pmOptFetchRedo_settled : ∀ fp ∈ pmOptFetchRedo c rand root, fp.Settled := by
  rw [pmOptFetchRedo]
  generalize cut rand _ = rqs
  exact foldlRecOn (motive := fun root : List FetchCtl => ∀ fp ∈ root, fp.Settled) rqs _
    (by simp) fun root h rq _ => pmOptFetchAdd_settled h

def Costed (c : OptCost) : List FetchCtl → Prop
  | [] => True
  | fp :: root => (fp.cost = optCost c fp ∨ fp.cost = optCost c fp + c.fetch) ∧
    ∀ fp ∈ root, fp.cost = optCost c fp

theorem costed_of_forall (h : ∀ fp ∈ root, fp.cost = optCost c fp) : Costed c root := by
  cases root
  case nil => trivial
  case cons fp root =>
    have ⟨hf, h⟩ := forall_mem_cons.mp h
    exact ⟨.inl hf, h⟩

section EditFirst

variable {p : α → Bool} {f : α → α}

theorem editFirst_map {g : α → β} (h : ∀ a, g (f a) = g a) :
    (editFirst p f as).map g = as.map g := by
  induction as
  case nil => rfl
  case cons a as hi =>
    rw [editFirst]
    split
    case isTrue => rw [map_cons, map_cons, h]
    case isFalse => rw [map_cons, map_cons, hi]

theorem editFirst_flatMap {g : α → List β} (h : ∀ a, g (f a) = g a) :
    (editFirst p f as).flatMap g = as.flatMap g := by
  rw [flatMap_def, flatMap_def, editFirst_map h]

end EditFirst

theorem optCost_link {fp : FetchCtl} {idps : List IndomCtl} :
    optCost c { fp with idps := link rq idps } = optCost c { fp with idps } := by
  have hp {β : Type} {g : PmidCtl → β} (hg : ∀ pmp, g (link.linkPmid rq pmp) = g pmp)
      (idp : IndomCtl) : (link.linkIndom rq idp).pmps.map g = idp.pmps.map g :=
    editFirst_map hg
  simp only [optCost, link]
  rw [editFirst_flatMap (hp fun _ => rfl), editFirst_map (f := link.linkIndom rq) fun _ => rfl,
    editFirst_flatMap]
  intro idp
  exact hp (fun _ => rfl) idp

theorem optCost_commit :
    (commit rq (tryAdd c rq new fp)).cost =
      optCost c (commit rq (tryAdd c rq new fp)) + if new then c.fetch else 0 := by
  have hl : optCost c (commit rq (tryAdd c rq new fp)) =
      optCost c { fp with idps := addInsts rq (create rq fp.idps) } :=
    optCost_link
  rw [hl]
  rfl

theorem pmOptFetchAdd_costed (h : ∀ fp ∈ root, fp.Good) : Costed c (pmOptFetchAdd c rq root) := by
  rw [pmOptFetchAdd_eq h]
  generalize chosen c (tried c rq root) = t
  have hr : ∀ fp ∈ root.mapIdx fun i fp =>
      if t = some (i + 1) then commit rq (tryAdd c rq false fp) else fp.refresh c rq,
      fp.cost = optCost c fp := by
    intro fp hm
    obtain ⟨i, hi, rfl⟩ := mem_mapIdx.mp hm
    split
    case isTrue => exact optCost_commit.trans (Int.add_zero _)
    case isFalse => rfl
  split
  case isTrue => exact ⟨.inr optCost_commit, hr⟩
  case isFalse => exact costed_of_forall hr

theorem FetchCtl.cost_of_del (hd : fp.del c id = some (some fp')) : fp'.cost = optCost c fp' := by
  have ⟨idps, _, he⟩ := map_eq_some_iff.mp hd
  split at he <;> simp at he
  rw [← he]
  rfl

theorem pmOptFetchDel_costed (h : Costed c root) : Costed c (pmOptFetchDel c id root).fst := by
  rw [pmOptFetchDel]
  split
  case h_1 => exact h
  case h_2 root' hd =>
    cases root
    case nil => cases hd
    case cons fp root =>
      obtain ⟨hf, h⟩ := h
      rw [delFirst] at hd
      split at hd
      case h_1 =>
        obtain ⟨root'', hd, he⟩ := map_eq_some_iff.mp hd
        rw [← he]
        exact ⟨hf, delFirst_forall hd h fun _ _ _ => FetchCtl.cost_of_del⟩
      case h_2 => exact some.inj hd ▸ costed_of_forall h
      case h_3 fp' hfp =>
        rw [← some.inj hd]
        exact ⟨.inl (FetchCtl.cost_of_del hfp), h⟩

theorem pmOptFetchRedo_costed : Costed c (pmOptFetchRedo c rand root) := by
  rw [pmOptFetchRedo]
  generalize cut rand _ = rqs
  have h := foldlRecOn
    (motive := fun root : List FetchCtl => (∀ fp ∈ root, fp.Settled) ∧ Costed c root) rqs
    (fun root rq => pmOptFetchAdd c rq root) (show _ ∧ Costed c [] from ⟨by simp, trivial⟩)
    fun root h rq _ =>
      ⟨pmOptFetchAdd_settled h.left, pmOptFetchAdd_costed fun fp hm => (h.left fp hm).toGood⟩
  exact h.right

namespace Tracked

variable {t t' : Tracked}

-- The parameters of the objective function may be changed between the operations.
def stepWith (t : Tracked) (o : OptCost × Op) : Option Tracked :=
  t.step o.1 o.2

theorem step_settled (h : ∀ fp ∈ t.root, fp.Settled) (hs : t.stepWith o = some t') :
    ∀ fp ∈ t'.root, fp.Settled := by
  obtain ⟨c, op⟩ := o
  cases op
  case add rq => exact some.inj hs ▸ pmOptFetchAdd_settled h
  case del id => exact some.inj hs ▸ pmOptFetchDel_settled h
  case redo rand => exact some.inj hs ▸ pmOptFetchRedo_settled

theorem step_costed (hg : ∀ fp ∈ t.root, fp.Settled) (h : Costed c t.root)
    (hs : t.stepWith (c, op) = some t') : Costed c t'.root := by
  cases op
  case add rq =>
    exact some.inj hs ▸ pmOptFetchAdd_costed fun fp hm => (hg fp hm).toGood
  case del id => exact some.inj hs ▸ pmOptFetchDel_costed h
  case redo rand => exact some.inj hs ▸ pmOptFetchRedo_costed

structure Kept (c : OptCost) (t : Tracked) : Prop where
  settled : ∀ fp ∈ t.root, fp.Settled
  costed : Costed c t.root

theorem step_kept (t : Tracked) (o : OptCost × Op) (h : t.Kept c) (hc : o.1 = c) :
    ∃ t', t.stepWith o = some t' ∧ t'.Kept c := by
  obtain ⟨c, op⟩ := o
  subst hc
  obtain ⟨t', ht⟩ : ∃ t', t.stepWith (c, op) = some t' := by cases op <;> exact ⟨_, rfl⟩
  exact ⟨t', ht, step_settled h.settled ht, step_costed h.settled h.costed ht⟩

theorem exec_costed (hc : ∀ o ∈ ops, o.1 = c) (h : Run.exec stepWith new ops = some t) :
    Costed c t.root := by
  have hn : new.Kept c := ⟨by simp [new], trivial⟩
  obtain ⟨t', ht, hk⟩ := Run.exec_invariant step_kept hn (Run.guarded_of_forall hc)
  obtain rfl := some.inj (h.symm.trans ht)
  exact hk.costed

theorem exec_framed (c : OptCost) (rq : Req) (h : Run.exec stepWith new ops = some t) :
    pmOptFetchAdd c rq t.root =
      (if chosen c (tried c rq t.root) = some 0 then [commit rq (tryAdd c rq true .calloc)]
        else []) ++
      t.root.mapIdx (fun i fp =>
        if chosen c (tried c rq t.root) = some (i + 1) then commit rq (tryAdd c rq false fp)
        else { fp with cost := optCost c fp, newcost := (tryAdd c rq false fp).newcost }) ∧
    Cheapest c (tried c rq t.root) (chosen c (tried c rq t.root)) ∧
    ((∀ o ∈ ops, o.1 = c) → Costed c t.root) := by
  have hs := Run.exec_preserves
    (fun _ _ _ => step_settled) (by simp [new]) h
  have hr : ∀ fp ∈ t.root, fp.refresh c rq =
      { fp with cost := optCost c fp, newcost := (tryAdd c rq false fp).newcost } := by
    intro fp hm
    rw [FetchCtl.refresh, (hs fp hm).idle]
  refine ⟨?_, chosen_cheapest .., fun hc => exec_costed hc h⟩
  rw [pmOptFetchAdd_eq fun fp hm => (hs fp hm).toGood]
  congr 1
  refine mapIdx_eq_mapIdx_iff.mpr fun i hi => ?_
  rw [hr _ (getElem_mem hi)]

theorem exec_framed_second :
    let rq i m is := { id := i, indom := 60, pmid := m, instlist := is }
    let root := pmOptFetchAdd .default (rq 0 7 [1, 2]) []
    Cheapest .default (tried .default (rq 1 8 [2]) root)
      (chosen .default (tried .default (rq 1 8 [2]) root)) ∧ Costed .default root := by
  intro rq root
  have h : Run.exec stepWith new [(.default, .add (rq 0 7 [1, 2]))] =
      some ⟨root, [rq 0 7 [1, 2]]⟩ := rfl
  have hf := exec_framed .default (rq 1 8 [2]) h
  exact ⟨hf.right.left, hf.right.right (by simp)⟩

-- The cost of a group changes when another one is created after it.
theorem exec_unframed :
    let rq i m is := { id := i, indom := 60, pmid := m, instlist := is }
    let rq₁ := rq 0 7 [1, 2, 3, 4, 5]
    let rq₂ := rq 1 8 [6, 7, 8, 9, 10]
    let costs ops := Run.exec stepWith new (ops.map (OptCost.default, .add ·)) |>.map
      (·.root.map (·.cost))
    costs [rq₁] = some [20] ∧ costs [rq₁, rq₂] = some [20, 5] ∧
      chosen .default (tried .default rq₂ (pmOptFetchAdd .default rq₁ [])) = some 0 := by
  decide +kernel

end Tracked

end OptFetch
