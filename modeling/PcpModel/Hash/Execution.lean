import Mathlib.Algebra.Order.Group.Multiset
import PcpModel.Hash.Table

-- What holds after any sequence of operations on a table.
namespace Hash

open List

variable {α σ : Type} [DecidableEq α]

namespace Table

structure Good (t : Table α) : Prop where
  bucket : ∀ i < t.ctl.hsize, ∀ r ∈ t.ctl.chain i, ∃ n, t.ctl.node r = some n ∧
    n.key.toNat % t.ctl.hsize = i
  linked : ∀ r n, t.ctl.node r = some n → r ∈ t.ctl.chain (n.key.toNat % t.ctl.hsize)
  pairs : (t.ctl.pairs : Multiset (Node α)) + t.deleted = t.added
  search : ∀ key, ∃ o, t.ctl.hashSearch key = some o ∧
    (∀ r ∈ o, ∃ n ∈ t.ctl.pairs, t.ctl.node r = some n ∧ n.key = key) ∧
    (o = none → ∀ n ∈ t.ctl.pairs, n.key ≠ key)
  del : ∀ key data, ∃ c sts, t.ctl.hashDel key data = some (c, sts) ∧
    c.pairs.Perm (t.ctl.pairs.erase ⟨key, data⟩) ∧
    sts = if ⟨key, data⟩ ∈ t.ctl.pairs then 1 else 0
  walk : ∃ c rs, t.ctl.walkAll = some (c, rs) ∧ c.pairs = t.ctl.pairs ∧ rs.Nodup ∧
    (∀ r, r ∈ rs ↔ ∃ n, t.ctl.node r = some n) ∧ rs.filterMap t.ctl.node = t.ctl.pairs
  walkCB : ∀ (σ : Type) (cb : Node α → σ → WalkState × σ) cdata, ∃ c w,
    t.ctl.hashWalkCB cb cdata = some (c, w) ∧ w = (Ctl.visits cb t.ctl.pairs ⟨cdata, []⟩).1 ∧
    (c.pairs : Multiset (Node α)) + w.deleted = t.ctl.pairs

def Inv (t : Table α) : Prop :=
  (∃ f, t.ctl.Inv f) ∧ (t.ctl.stored : Multiset (Node α)) + t.deleted = t.added

theorem Inv.good {t : Table α} (h : t.Inv) : t.Good := by
  obtain ⟨⟨f, h⟩, ha⟩ := h
  have hp := h.pairs_perm
  constructor
  case bucket =>
    intro i _ r hr
    obtain ⟨n, hn, -, hi⟩ := h.placed i r (h.chain_eq i ▸ hr)
    exact ⟨n, hn, hi⟩
  case linked =>
    intro r n hn
    rw [h.chain_eq]
    exact h.complete r n hn
  case pairs => rw [Multiset.coe_eq_coe.mpr hp, ha]
  case search =>
    intro key
    obtain ⟨o, he, hs, hf⟩ := h.hashSearch key
    refine ⟨o, he, fun r hr => ?_, fun ho n hn => hf ho n (hp.mem_iff.mp hn)⟩
    obtain ⟨n, hn, hk⟩ := hs r hr
    exact ⟨n, hp.mem_iff.mpr (h.mem_stored.mpr ⟨r, hn⟩), hn, hk⟩
  case del =>
    intro key data
    obtain ⟨c, sts, f', he, h', hd, hs⟩ := h.hashDel key data
    refine ⟨c, sts, he, ?_, ?_⟩
    · exact h'.pairs_perm.trans (hd.trans (hp.symm.erase _))
    · simp [hs, hp.mem_iff]
  case walk =>
    obtain ⟨o, i, he⟩ := h.walkAll
    refine ⟨_, _, he, rfl, h.nodup_nodes, fun r => h.mem_nodes, ?_⟩
    rw [Ctl.pairs, funext h.chain_eq]
  case walkCB =>
    intro σ cb cdata
    obtain ⟨c, w, he, hw, hv⟩ := h.walkBuckets cb _ nodup_range ⟨cdata, []⟩
    obtain ⟨f', h'⟩ := hw.inv
    refine ⟨c, w, he, ?_, ?_⟩
    · rw [hv, Ctl.pairs, funext h.chain_eq]
    · rw [Multiset.coe_add, Multiset.coe_eq_coe]
      exact perm_append_comm.trans ((h'.pairs_perm.append_left _).trans (hw.perm.trans hp.symm))

theorem Inv.step {t : Table α} (h : t.Inv) (op : Op α σ) : ∃ t', t.step op = some t' ∧ t'.Inv := by
  obtain ⟨⟨f, h⟩, ha⟩ := h
  cases op
  case add key data =>
    obtain ⟨c, f', he, h', hs⟩ := h.hashAdd key data
    have hs : (c.stored : Multiset (Node α)) = ⟨key, data⟩ ::ₘ ↑t.ctl.stored := by
      rw [hs, Multiset.cons_coe, Multiset.coe_eq_coe]
      exact List.perm_append_singleton _ _
    refine ⟨⟨c, ⟨key, data⟩ ::ₘ t.added, t.deleted⟩, by simp [Table.step, he], ⟨f', h'⟩, ?_⟩
    rw [hs, Multiset.cons_add, ha]
  case del key data =>
    obtain ⟨c, sts, f', he, h', hd, hs⟩ := h.hashDel key data
    refine ⟨_, by rw [Table.step, he]; rfl, ⟨f', h'⟩, ?_⟩
    by_cases hm : ⟨key, data⟩ ∈ t.ctl.stored
    case pos =>
      have hd : ⟨key, data⟩ ::ₘ (c.stored : Multiset (Node α)) = ↑t.ctl.stored := by
        rw [Multiset.cons_coe, Multiset.coe_eq_coe]
        exact (hd.cons _).trans (List.perm_cons_erase hm).symm
      rw [hs, if_pos hm, if_pos rfl, Multiset.add_cons, ← Multiset.cons_add, hd, ha]
    case neg =>
      rw [List.erase_of_not_mem hm] at hd
      rw [hs, if_neg hm, if_neg (by decide), Multiset.coe_eq_coe.mpr hd, ha]
  case walkCB cb cdata =>
    obtain ⟨c, w, he, hw, -⟩ := h.walkBuckets cb (range t.ctl.hsize) nodup_range ⟨cdata, []⟩
    refine ⟨⟨c, t.added, t.deleted + (w.deleted : Multiset (Node α))⟩, ?_, hw.inv, ?_⟩
    · simp [Table.step, Ctl.hashWalkCB, he]
    · have hp : (c.stored : Multiset (Node α)) + ↑w.deleted = ↑t.ctl.stored := by
        rw [Multiset.coe_add, Multiset.coe_eq_coe]
        exact List.perm_append_comm.trans hw.perm
      rw [add_left_comm, hp, add_comm, ha]
  case walk =>
    obtain ⟨o, i, he⟩ := h.walkAll
    exact ⟨⟨_, t.added, t.deleted⟩, by rw [Table.step, he]; rfl, ⟨f, h.atPos o i⟩, ha⟩

omit [DecidableEq α] in
theorem inv_new : (new : Table α).Inv :=
  ⟨⟨_, Ctl.inv_new⟩, rfl⟩

theorem exec_hashed (ops : List (Op α σ)) : ∃ t, Run.exec step (new : Table α) ops = some t ∧
    t.Good := by
  have hg : Run.Guarded step (fun _ _ => True) (new : Table α) ops := Run.guarded_true
  obtain ⟨t, he, h⟩ := Run.exec_invariant (fun _ op h _ => Inv.step h op) inv_new hg
  exact ⟨t, he, h.good⟩

end Table

end Hash
