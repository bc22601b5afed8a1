import PcpModel.Library.Run
import PcpModel.OptFetch.Groups

namespace OptFetch

open List Option

section Cost

variable {c : OptCost} {rq : Req}

theorem mismatches_self : (is : List Int) → Insts.mismatches is is = 0
  | [] => by simp [Insts.mismatches]
  | _ :: is => by simp [Insts.mismatches, mismatches_self is]

theorem missinst_self (h : u ≠ .unset) : Insts.missinst c u u = 0 := by
  cases u
  case unset => contradiction
  case all => simp [Insts.missinst, Insts.numinst]
  case list is =>
    simp +contextual [Insts.missinst, Insts.numinst, Insts.instlist, mismatches_self]

theorem addinst_ne_unset {u : Insts} : u.addinst rq ≠ .unset := by
  unfold Insts.addinst
  split_ifs <;> simp

theorem tryAdd_calloc_cost : (tryAdd c rq true .calloc).cost = 0 := by
  simp [tryAdd, optCost, FetchCtl.calloc, firsts]

theorem tryAdd_calloc_newcost :
    (tryAdd c rq true .calloc).newcost = c.pmid + c.indom + c.fetch := by
  simp [tryAdd, optCost, FetchCtl.calloc, firsts, create, addInsts, missesIndom, missesPmid,
    editFirst, isIndom, newIndom, create.addPmid, addInsts.addIndom, addInsts.addPmid, isPmid,
    newPmid, missinst_self addinst_ne_unset]

theorem chosen_go_some :
    ∃ j, chosen.go c (some k) mincost i fps = some j ∧ (j = k ∨ i ≤ j ∧ j < i + fps.length) := by
  induction fps generalizing k mincost i
  case nil => exact ⟨k, rfl, .inl rfl⟩
  case cons fp fps hi =>
    simp only [chosen.go]
    generalize (if c.scope then fp.newcost else fp.newcost - fp.cost) = cost
    have ⟨j, he, hj⟩ : ∃ j, (if cost < mincost then chosen.go c (some i) cost (i + 1) fps
        else chosen.go c (some k) mincost (i + 1) fps) = some j ∧
        (j = k ∨ j = i ∨ i + 1 ≤ j ∧ j < i + 1 + fps.length) := by
      split
      · exact hi.imp fun _ h => ⟨h.left, .inr h.right⟩
      · exact hi.imp fun _ h => ⟨h.left, h.right.imp_right .inr⟩
    exact ⟨j, he, by simp only [length_cons]; omega⟩

theorem chosen_some (hc : c.pmid + c.indom + c.fetch < optCostInfinity) :
    ∃ t, chosen c (tryAdd c rq true .calloc :: fps) = some t ∧ t < fps.length + 1 := by
  have hf : chosen c (tryAdd c rq true .calloc :: fps) =
      chosen.go c (some 0) (c.pmid + c.indom + c.fetch) 1 fps := by
    simp [chosen, chosen.go, tryAdd_calloc_cost, tryAdd_calloc_newcost, hc]
  obtain ⟨t, he, ht⟩ := chosen_go_some
  exact ⟨t, hf.trans he, by omega⟩

end Cost

section DelFirst

variable {d : α → Option (Option α)} {P : α → Prop} {f : α → List Req} {id : Nat}

theorem delFirst_forall (h : delFirst d as = some bs) (ha : ∀ a ∈ as, P a)
    (hd : ∀ a b, P a → d a = some (some b) → P b) : ∀ b ∈ bs, P b := by
  induction as generalizing bs
  case nil => simp [delFirst] at h
  case cons a as hi =>
    have ⟨ha, has⟩ := forall_mem_cons.mp ha
    simp only [delFirst] at h
    split at h
    case h_1 =>
      have ⟨bs, hb, he⟩ := map_eq_some_iff.mp h
      exact he ▸ forall_mem_cons.mpr ⟨ha, hi hb has⟩
    case h_2 => exact some.inj h ▸ has
    case h_3 b hb => exact some.inj h ▸ forall_mem_cons.mpr ⟨hd a b ha hb, has⟩

theorem delFirst_nodup {key : α → β} (h : delFirst d as = some bs) (hn : (as.map key).Nodup)
    (hk : ∀ a b, d a = some (some b) → key b = key a) : (bs.map key).Nodup := by
  suffices (bs.map key).Sublist (as.map key) from hn.sublist this
  clear hn
  induction as generalizing bs
  case nil => simp [delFirst] at h
  case cons a as hi =>
    simp only [delFirst] at h
    split at h
    case h_1 =>
      have ⟨bs, hb, he⟩ := map_eq_some_iff.mp h
      exact he ▸ (hi hb).cons_cons _
    case h_2 => exact some.inj h ▸ .cons _ (.refl _)
    case h_3 b hb =>
      rw [← some.inj h, map_cons, map_cons, hk a b hb]

-- The list `l'` is obtained from `l` by the removal of a request that is identified by `id`.
def Removes (id : Nat) (l l' : List Req) : Prop :=
  ∃ l₁ rq l₂, l = l₁ ++ rq :: l₂ ∧ l' = l₁ ++ l₂ ∧ rq.id = id

theorem Removes.append (h : Removes id l l') : Removes id (k₁ ++ l ++ k₂) (k₁ ++ l' ++ k₂) := by
  have ⟨l₁, rq, l₂, he, he', hr⟩ := h
  exact ⟨k₁ ++ l₁, rq, l₂ ++ k₂, by simp [he], by simp [he'], hr⟩

theorem delFirst_removes (h : delFirst d as = some bs)
    (hd : ∀ a r, d a = some r → Removes id (f a) (r.toList.flatMap f)) :
    Removes id (as.flatMap f) (bs.flatMap f) := by
  induction as generalizing bs
  case nil => simp [delFirst] at h
  case cons a as hi =>
    simp only [delFirst] at h
    split at h
    case h_1 =>
      have ⟨bs, hb, he⟩ := map_eq_some_iff.mp h
      simpa [← he] using @Removes.append _ _ _ (f a) [] (hi hb)
    case h_2 hn =>
      simpa [← some.inj h] using @Removes.append _ _ _ [] (as.flatMap f) (hd a _ hn)
    case h_3 b hb =>
      simpa [← some.inj h] using @Removes.append _ _ _ [] (as.flatMap f) (hd a _ hb)

theorem delFirst_none (h : delFirst d as = none)
    (hd : ∀ a, d a = none → ∀ rq ∈ f a, rq.id ≠ id) : ∀ rq ∈ as.flatMap f, rq.id ≠ id := by
  induction as
  case nil => simp
  case cons a as hi =>
    simp only [delFirst] at h
    split at h
    case h_1 hn =>
      simp only [flatMap_cons, forall_mem_append]
      exact ⟨hd a hn, hi <| map_eq_none_iff.mp h⟩
    all_goals contradiction

end DelFirst

section Del

variable {c : OptCost} {id : Nat} {rq : Req} {pmp pmp' : PmidCtl} {idp idp' : IndomCtl}
  {fp fp' : FetchCtl}

theorem delReq_removes (h : delReq id rq = some r) : Removes id [rq] r.toList := by
  unfold delReq at h
  split at h
  case isTrue he => exact some.inj h ▸ ⟨[], rq, [], rfl, rfl, he⟩
  case isFalse => contradiction

theorem PmidCtl.del_removes (h : del id pmp = some r) :
    Removes id pmp.rqs (r.toList.flatMap (·.rqs)) := by
  have ⟨rqs, hd, he⟩ := map_eq_some_iff.mp h
  have hr := delFirst_removes (f := fun rq => [rq]) hd fun _ _ h => by simpa using delReq_removes h
  split at he
  case isTrue hn => simpa [← he, hn] using hr
  case isFalse => simpa [← he] using hr

theorem IndomCtl.del_removes (h : del id idp = some r) :
    Removes id idp.reqs (r.toList.flatMap reqs) := by
  have ⟨pmps, hd, he⟩ := map_eq_some_iff.mp h
  have hr : Removes id idp.reqs (pmps.flatMap (·.rqs)) :=
    delFirst_removes hd fun _ _ => PmidCtl.del_removes
  split at he
  case isTrue hn => simpa [← he, hn] using hr
  case isFalse => simpa [← he, reqs] using hr

theorem foldl_addpmid (ms : List Nat) (fp : FetchCtl) :
    ms.foldl addpmid fp = { fp with pmidlist := SortedSet.insertAll (· > ·) fp.pmidlist ms } := by
  induction ms generalizing fp
  case nil => rfl
  case cons m ms hi => simp [hi, addpmid, SortedSet.insertAll]

@[simp]
theorem FetchCtl.repair_idps : (fp.repair c).idps = fp.idps.map .redoinst := by
  simp [repair, redopmid, foldl_addpmid, redoinst]

@[simp]
theorem FetchCtl.repair_pmidlist :
    (fp.repair c).pmidlist = SortedSet.insertAll (· > ·) [] (OptFetch.pmids fp.idps) := by
  simp [repair, redopmid, foldl_addpmid, redoinst]

theorem FetchCtl.good_repair (hs : Shape fp.idps) (hf : Full fp.idps) : (fp.repair c).Good where
  good := by simpa using hs.redoinst
  full := by simpa using hf.redoinst
  sorted := by simpa using SortedSet.pairwise_insertAll .nil
  pmids := by simp

theorem FetchCtl.del_removes (h : del c id fp = some r) :
    Removes id (reqs fp.idps) (r.toList.flatMap (reqs ·.idps)) := by
  have ⟨idps, hd, he⟩ := map_eq_some_iff.mp h
  have hr : Removes id (reqs fp.idps) (reqs idps) :=
    delFirst_removes hd fun _ _ => IndomCtl.del_removes
  split at he
  case isTrue hn => simpa [← he, hn, reqs] using hr
  case isFalse => simpa [← he] using hr

theorem PmidCtl.del_none (h : del id pmp = none) : ∀ rq ∈ pmp.rqs, rq.id ≠ id := by
  simpa using delFirst_none (f := fun rq => [rq]) (map_eq_none_iff.mp h) fun rq h => by
    simpa [delReq] using h

theorem IndomCtl.del_none (h : del id idp = none) : ∀ rq ∈ idp.reqs, rq.id ≠ id :=
  delFirst_none (map_eq_none_iff.mp h) fun _ => PmidCtl.del_none

theorem FetchCtl.del_none (h : del c id fp = none) : ∀ rq ∈ reqs fp.idps, rq.id ≠ id :=
  delFirst_none (map_eq_none_iff.mp h) fun _ => IndomCtl.del_none

theorem PmidCtl.del_shape (h : pmp.del id = some (some pmp')) (hs : pmp.Shape indom) :
    pmp'.Shape indom ∧ pmp'.Full := by
  have ⟨rqs, hd, he⟩ := map_eq_some_iff.mp h
  split at he <;> simp at he
  case isFalse hn =>
    subst he
    have hr {P : Req → Prop} (hp : ∀ rq ∈ pmp.rqs, P rq) : ∀ rq ∈ rqs, P rq :=
      delFirst_forall hd hp fun _ _ _ h => by simp [delReq] at h
    exact ⟨⟨hr hs.indoms, hr hs.pmids⟩, hn⟩

theorem PmidCtl.del_pmid (h : pmp.del id = some (some pmp')) : pmp'.pmid = pmp.pmid := by
  have ⟨rqs, _, he⟩ := map_eq_some_iff.mp h
  grind

theorem IndomCtl.del_indom (h : idp.del id = some (some idp')) : idp'.indom = idp.indom := by
  have ⟨pmps, _, he⟩ := map_eq_some_iff.mp h
  grind

theorem IndomCtl.del_shape (h : idp.del id = some (some idp')) (hs : idp.Shape) (hf : idp.Full) :
    idp'.Shape ∧ idp'.Full := by
  have ⟨pmps, hd, he⟩ := map_eq_some_iff.mp h
  split at he <;> simp at he
  case isFalse hn =>
    subst he
    have hp : ∀ pmp ∈ pmps, pmp.Shape idp.indom ∧ pmp.Full :=
      delFirst_forall hd (fun pmp hm => ⟨hs.pmps pmp hm, hf.right pmp hm⟩) fun _ _ hp h =>
        PmidCtl.del_shape h hp.left
    have hn' := delFirst_nodup hd hs.nodup fun _ _ => PmidCtl.del_pmid
    exact ⟨⟨hn', (hp · · |>.left)⟩, hn, (hp · · |>.right)⟩

theorem FetchCtl.Good.of_del (hg : fp.Good) (h : fp.del c id = some (some fp')) : fp'.Good := by
  have ⟨idps, hd, he⟩ := map_eq_some_iff.mp h
  split at he <;> simp at he
  case isFalse hn =>
    subst he
    have hs := hg.good.shape
    have hi : ∀ idp ∈ idps, idp.Shape ∧ idp.Full :=
      delFirst_forall hd (fun idp hm => ⟨hs.idps idp hm, hg.full.right idp hm⟩) fun _ _ hi h =>
        IndomCtl.del_shape h hi.left hi.right
    have hn' := delFirst_nodup hd hs.nodup fun _ _ => IndomCtl.del_indom
    exact FetchCtl.good_repair ⟨hn', (hi · · |>.left)⟩ ⟨hn, (hi · · |>.right)⟩

end Del

structure Groups (root : List FetchCtl) (live : List Req) : Prop where
  good : ∀ fp ∈ root, fp.Good
  reqs : (root.flatMap (reqs ·.idps)).Perm live

namespace Groups

variable {c : OptCost} {rq : Req} {root : List FetchCtl} {live : List Req} {id : Nat}

theorem nil : Groups [] [] :=
  ⟨by simp, by simp⟩

theorem cons (hg : fp.Good) (hp : (OptFetch.reqs fp.idps).Perm live₁) (h : Groups root live₂) :
    Groups (fp :: root) (live₁ ++ live₂) :=
  ⟨by simpa using ⟨hg, h.good⟩, by simpa using hp.append h.reqs⟩

theorem perm (h : Groups root live) (hp : live.Perm live') : Groups root live' :=
  ⟨h.good, h.reqs.trans hp⟩

theorem settle_undo (h : Groups root live) (ht : t < i) :
    Groups (settle rq (some t) i (root.map (tryAdd c rq false))) live := by
  induction root generalizing i live
  case nil => exact h
  case cons fp root hi =>
    have ⟨fp', he, hg, hr⟩ := @undo_tryAdd c rq fp (h.good fp (by simp))
    have hi := hi ⟨(h.good · <| mem_cons_of_mem _ ·), .rfl⟩ (Nat.lt_succ_of_lt ht)
    simp only [map_cons, settle, some.injEq, Nat.ne_of_lt ht, he]
    exact cons hg (.of_eq hr) hi |>.perm <| by simpa using h.reqs

theorem settle_commit (h : Groups root live) (ht : i ≤ t) (hl : t < i + root.length) :
    Groups (settle rq (some t) i (root.map (tryAdd c rq false))) (rq :: live) := by
  induction root generalizing i live
  case nil => simp at hl; omega
  case cons fp root hi =>
    have hg := h.good fp (by simp)
    have hr : Groups root _ := ⟨(h.good · <| mem_cons_of_mem _ ·), .rfl⟩
    have hp := h.reqs
    simp only [map_cons, settle, some.injEq]
    split
    case isTrue he =>
      have ⟨hg', hp'⟩ := @commit_tryAdd c rq false fp hg.good hg.full.right hg.sorted hg.pmids
      exact cons hg' hp' (hr.settle_undo <| by omega) |>.perm <| .cons rq <| by simpa using hp
    case isFalse he =>
      have ⟨fp', he, hg', hr'⟩ := @undo_tryAdd c rq fp hg
      have hi : Groups (settle rq _ (i + 1) _) _ := hi hr (by omega) (by simp at hl; omega)
      rw [he]
      exact cons hg' (.of_eq hr') hi |>.perm <| perm_middle.trans <| .cons rq <| by
        simpa using hp

theorem pmOptFetchAdd (hc : c.pmid + c.indom + c.fetch < optCostInfinity) (h : Groups root live) :
    Groups (pmOptFetchAdd c rq root) (rq :: live) := by
  have ⟨t, he, ht⟩ := @chosen_some c rq (root.map (tryAdd c rq false)) hc
  simp only [OptFetch.pmOptFetchAdd, he]
  cases t
  case zero =>
    have ⟨hg, hp⟩ := @commit_tryAdd c rq true .calloc ⟨.nil, nofun⟩ nofun .nil fun _ => .rfl
    exact cons hg hp (h.settle_undo Nat.one_pos)
  case succ t =>
    exact h.settle_commit (by omega) (by simp at ht; omega)

theorem removes (h : Groups root live) (hn : (live.map (·.id)).Nodup)
    (hr : Removes id (root.flatMap (OptFetch.reqs ·.idps)) l) :
    l.Perm (live.filter (·.id ≠ id)) ∧ ∃ rq ∈ live, rq.id = id := by
  have ⟨l₁, rq, l₂, he, hl, hi⟩ := hr
  have hp := he ▸ h.reqs
  have hn := hp.map (·.id) |>.nodup_iff.mpr hn
  have hf : ∀ rq ∈ l₁ ++ l₂, rq.id ≠ id := by
    grind
  have hf : (l₁ ++ rq :: l₂).filter (·.id ≠ id) = l₁ ++ l₂ := by
    have := filter_eq_self.mpr fun rq hm => decide_eq_true (hf rq hm)
    simpa [hi] using this
  exact ⟨hl ▸ hf ▸ hp.filter _, rq, hp.subset (by simp), hi⟩

theorem pmOptFetchDel (h : Groups root live) (hn : (live.map (·.id)).Nodup) :
    let (root', sts) := pmOptFetchDel c id root
    Groups root' (live.filter (·.id ≠ id)) ∧ (sts = 0 ↔ ∃ rq ∈ live, rq.id = id) := by
  simp only [OptFetch.pmOptFetchDel]
  split
  case h_1 hd =>
    have hr := delFirst_none hd fun _ => FetchCtl.del_none
    have hr : ∀ rq ∈ live, rq.id ≠ id := fun rq hm => hr rq <| h.reqs.mem_iff.mpr hm
    rw [filter_eq_self.mpr (by simpa using hr)]
    exact ⟨h, by simpa using hr⟩
  case h_2 root' hd =>
    have hr := delFirst_removes hd fun _ _ => FetchCtl.del_removes
    have hg := delFirst_forall hd h.good fun _ _ hg => hg.of_del
    have ⟨hp, hm⟩ := h.removes hn hr
    exact ⟨⟨hg, hp⟩, by simpa using hm⟩

theorem cut_perm : (cut rand rlist).Perm rlist := by
  simp only [cut]
  split
  case isTrue => exact .rfl
  case isFalse => exact perm_append_comm.trans <| .of_eq <| take_append_drop _ _

theorem foldl_add (hc : c.pmid + c.indom + c.fetch < optCostInfinity) (h : Groups root live) :
    Groups (rlist.foldl (fun root rq => OptFetch.pmOptFetchAdd c rq root) root)
      (live ++ rlist) := by
  induction rlist generalizing root live
  case nil => simpa
  case cons rq rlist hi => exact hi (h.pmOptFetchAdd hc) |>.perm perm_middle.symm

theorem pmOptFetchRedo (hc : c.pmid + c.indom + c.fetch < optCostInfinity) (h : Groups root live) :
    Groups (pmOptFetchRedo c rand root) live :=
  foldl_add hc .nil |>.perm <| cut_perm.trans <| (reverse_perm _).trans h.reqs

end Groups

inductive Op
  | add (rq : Req)
  | del (id : Nat)
  | redo (rand : Nat)

structure Tracked where
  root : List FetchCtl
  live : List Req

namespace Tracked

def new : Tracked :=
  ⟨[], []⟩

def step (c : OptCost) (t : Tracked) : Op → Option Tracked
  | .add rq => some ⟨pmOptFetchAdd c rq t.root, rq :: t.live⟩
  | .del id => some ⟨(pmOptFetchDel c id t.root).fst, t.live.filter (·.id ≠ id)⟩
  | .redo rand => some ⟨pmOptFetchRedo c rand t.root, t.live⟩

-- The link to the next request is part of a request, so that it can only be added once.
def Allows (t : Tracked) : Op → Prop
  | .add rq => ∀ rq' ∈ t.live, rq'.id ≠ rq.id
  | .del _ | .redo _ => True

structure Sound (t : Tracked) : Prop where
  groups : Groups t.root t.live
  nodup : (t.live.map (·.id)).Nodup

variable {c : OptCost} {t : Tracked}

theorem step_sound (hc : c.pmid + c.indom + c.fetch < optCostInfinity) (h : t.Sound)
    (ha : t.Allows op) : ∃ t', t.step c op = some t' ∧ t'.Sound := by
  cases op
  case add rq => exact ⟨_, rfl, h.groups.pmOptFetchAdd hc, by simpa using ⟨ha, h.nodup⟩⟩
  case del id =>
    exact ⟨_, rfl, (h.groups.pmOptFetchDel h.nodup).left,
      h.nodup.sublist <| filter_sublist.map _⟩
  case redo rand => exact ⟨_, rfl, h.groups.pmOptFetchRedo hc, h.nodup⟩

theorem exec_sound (hc : c.pmid + c.indom + c.fetch < optCostInfinity)
    (hg : Run.Guarded (step c) Allows new ops) :
    ∃ t, Run.exec (step c) new ops = some t ∧ t.Sound :=
  Run.exec_invariant (fun _ _ => step_sound hc) ⟨.nil, .nil⟩ hg

theorem exec_sound_add_del :
    let rq i m is := { id := i, indom := 60, pmid := m, instlist := is }
    let ops := [.add (rq 0 7 [3, 1]), .add (rq 1 8 []), .redo 1, .add (rq 2 7 [2, 1]), .del 1]
    ∃ t, Run.exec (step .default) new ops = some t ∧ t.Sound := by
  intro rq ops
  refine exec_sound (by decide) ⟨nofun, fun t₁ h₁ => ?_⟩
  obtain rfl := some.inj h₁
  refine ⟨by simp [Allows, new], fun t₂ h₂ => ?_⟩
  obtain rfl := some.inj h₂
  refine ⟨trivial, fun t₃ h₃ => ?_⟩
  obtain rfl := some.inj h₃
  exact ⟨by simp [Allows, new, rq], fun _ _ => ⟨trivial, fun _ _ => trivial⟩⟩

end Tracked

end OptFetch
