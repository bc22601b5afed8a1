import PcpModel.Hash.Basic

-- The chains of a table hold its nodes, whatever has been done to it.
namespace Hash

open Linked List Function Option Nat

namespace Ctl

variable {α : Type} {c : Ctl α} {f : Nat → List Ref} {r : Ref} {n : Node α}

-- The nodes that are not freed are those in the chains.
structure Inv (c : Ctl α) (f : Nat → List Ref) : Prop where
  chains : c.table.Holds f
  placed : ∀ i, ∀ r ∈ f i, ∃ n, c.node r = some n ∧ 0 < c.hsize ∧ c.idx n.key = i
  complete : ∀ r n, c.node r = some n → r ∈ f (c.idx n.key)
  fresh : ∀ r n, c.node r = some n → r < c.brk

theorem inv_new : (new : Ctl α).Inv fun _ => [] where
  chains := fun _ => rfl
  placed := by simp
  complete := by simp [new]
  fresh := by simp [new]

namespace Inv

theorem disjoint (h : c.Inv f) : Buckets.Disjoint f := by
  intro i j r hi hj
  obtain ⟨n, hn, -, rfl⟩ := h.placed i r hi
  obtain ⟨n', hn', -, rfl⟩ := h.placed j r hj
  cases hn.symm.trans hn'
  rfl

theorem lt_hsize (h : c.Inv f) (hr : r ∈ f i) : i < c.hsize := by
  obtain ⟨n, -, hs, rfl⟩ := h.placed i r hr
  exact mod_lt _ hs

theorem lt_brk (h : c.Inv f) (hr : r ∈ f i) : r < c.brk := by
  obtain ⟨n, hn, -⟩ := h.placed i r hr
  exact h.fresh r n hn

theorem mem_nodes (h : c.Inv f) : r ∈ (range c.hsize).flatMap f ↔ ∃ n, c.node r = some n := by
  rw [mem_flatMap]
  constructor
  case mp =>
    intro ⟨i, _, hr⟩
    obtain ⟨n, hn, -⟩ := h.placed i r hr
    exact ⟨n, hn⟩
  case mpr =>
    intro ⟨n, hn⟩
    have hr := h.complete r n hn
    exact ⟨_, mem_range.mpr (h.lt_hsize hr), hr⟩

theorem nodup_nodes (h : c.Inv f) : ((range c.hsize).flatMap f).Nodup := by
  rw [nodup_flatMap]
  refine ⟨fun i _ => (h.chains i).nodup, nodup_range.imp fun {i j} hij r hi hj => hij ?_⟩
  exact h.disjoint i j r hi hj

theorem length_le (h : c.Inv f) : ((range c.hsize).flatMap f).length ≤ c.brk := by
  have hs : (range c.hsize).flatMap f ⊆ range c.brk := by
    intro r hr
    obtain ⟨n, hn⟩ := h.mem_nodes.mp hr
    exact mem_range.mpr (h.fresh r n hn)
  simpa using (h.nodup_nodes.subperm hs).length_le

theorem chain_length_le (h : c.Inv f) (i : Nat) : (f i).length ≤ c.brk := by
  have hs : f i ⊆ range c.brk := fun r hr => mem_range.mpr (h.lt_brk hr)
  simpa using ((h.chains i).nodup.subperm hs).length_le

theorem chain_eq (h : c.Inv f) (i : Nat) : c.chain i = f i :=
  (h.chains i).follow_eq (le_succ_of_le (h.chain_length_le i))

end Inv

def stored (c : Ctl α) : List (Node α) :=
  (List.range c.brk).filterMap c.node

theorem Inv.pairs_perm (h : c.Inv f) : c.pairs.Perm c.stored := by
  have hc : c.chain = f := funext h.chain_eq
  have hp : ((range c.hsize).flatMap f).Perm
      ((range c.brk).filter (c.node · |>.isSome)) := by
    rw [perm_ext_iff_of_nodup h.nodup_nodes (nodup_range.filter _)]
    intro r
    rw [h.mem_nodes, mem_filter, mem_range, isSome_iff_exists]
    exact ⟨fun ⟨n, hn⟩ => ⟨h.fresh r n hn, n, hn⟩, fun hr => hr.right⟩
  have hf : c.stored = ((range c.brk).filter (c.node · |>.isSome)).filterMap c.node := by
    rw [stored, filterMap_filter]
    congr 1
    funext r
    cases c.node r <;> rfl
  rw [pairs, hc, hf]
  exact hp.filterMap _

theorem stored_link (c : Ctl α) (n : Node α) : (c.link n).stored = c.stored ++ [n] := by
  simp only [stored, link, range_succ, filterMap_append]
  congr 1
  · refine filterMap_congr fun r hr => ?_
    exact update_of_ne (Nat.ne_of_lt (mem_range.mp hr)) _ _
  · simp

theorem stored_remove (hn : c.node r = some n) (hr : r < c.brk) :
    (n :: (c.remove k prior r).stored).Perm c.stored := by
  obtain ⟨l₁, l₂, hl⟩ := append_of_mem (mem_range.mpr hr)
  have hd : (l₁ ++ r :: l₂).Nodup := hl ▸ nodup_range
  have hu : ∀ l : List Ref, r ∉ l →
      l.filterMap (update c.node r none) = l.filterMap c.node := by
    refine fun l hl => filterMap_congr fun r' hr' => ?_
    exact update_of_ne (ne_of_mem_of_not_mem hr' hl) _ _
  rw [nodup_middle, nodup_cons, mem_append, not_or] at hd
  simp only [stored, remove, hl, filterMap_append, filterMap_cons, hn,
    update_self, hu l₁ hd.left.left, hu l₂ hd.left.right]
  exact perm_middle.symm

theorem Inv.link (h : c.Inv f) (hs : 0 < c.hsize) (n : Node α) :
    (c.link n).Inv (update f (c.idx n.key) (c.brk :: f (c.idx n.key))) := by
  have hb : ∀ {i r}, r ∈ f i → r ≠ c.brk := fun hr => Nat.ne_of_lt (h.lt_brk hr)
  constructor
  case chains => exact h.chains.push (fun _ hr => Nat.lt_irrefl _ (h.lt_brk hr)) _
  case placed =>
    intro i r hr
    by_cases hi : i = c.idx n.key ∧ r = c.brk
    case pos =>
      obtain ⟨rfl, rfl⟩ := hi
      exact ⟨n, update_self .., hs, rfl⟩
    case neg =>
      have hr : r ∈ f i := by
        by_cases hk : i = c.idx n.key
        case neg => rwa [update_of_ne hk] at hr
        case pos =>
          subst hk
          rw [update_self, mem_cons] at hr
          exact hr.resolve_left fun he => hi ⟨rfl, he⟩
      obtain ⟨n', hn', hs, hk⟩ := h.placed i r hr
      exact ⟨n', (update_of_ne (hb hr) _ _).trans hn', hs, hk⟩
  case complete =>
    intro r n' hn'
    by_cases hr : r = c.brk
    case pos =>
      subst hr
      obtain rfl : n = n' := by simpa [Ctl.link] using hn'
      simp [Ctl.link, idx]
    case neg =>
      have hn' : c.node r = some n' := (update_of_ne hr _ _).symm.trans hn'
      have hm := h.complete r n' hn'
      by_cases hk : c.idx n'.key = c.idx n.key
      case pos =>
        rw [hk] at hm
        simp only [Ctl.link, idx] at hk hm ⊢
        rw [hk, update_self]
        exact mem_cons_of_mem _ hm
      case neg =>
        simp only [Ctl.link, idx] at hk hm ⊢
        rwa [update_of_ne hk]
  case fresh =>
    intro r n' hn'
    by_cases hr : r = c.brk
    case pos => exact Nat.lt_succ_of_le (Nat.le_of_eq hr)
    case neg =>
      have hn' : c.node r = some n' := (update_of_ne hr _ _).symm.trans hn'
      exact Nat.lt_succ_of_lt (h.fresh r n' hn')

theorem adjust_bounds (m a n : Nat) : n ≤ adjust m a n ∧ adjust m a n ≤ n + a := by
  unfold adjust
  split <;> omega

theorem grownSize_bounds (n : Nat) : n ≤ grownSize n ∧ grownSize n ≤ 2 * n + 5 := by
  have h₂ := adjust_bounds 2 1 (n * 2)
  have h₃ := adjust_bounds 3 2 (adjust 2 1 (n * 2))
  have h₅ := adjust_bounds 5 2 (adjust 3 2 (adjust 2 1 (n * 2)))
  unfold grownSize
  omega

theorem Inv.idxOf_eq (h : c.Inv f) (hr : r ∈ f i) : c.idxOf r = i := by
  obtain ⟨n, hn, -, hi⟩ := h.placed i r hr
  rw [idxOf, hn]
  exact hi

theorem Inv.indexes (h : c.Inv f) : c.table.Indexes c.idxOf ((range c.hsize).flatMap f) := by
  refine ⟨f, h.chains, fun i r => ?_⟩
  rw [mem_flatMap]
  constructor
  case mp => exact fun hr => ⟨⟨i, mem_range.mpr (h.lt_hsize hr), hr⟩, h.idxOf_eq hr⟩
  case mpr =>
    rintro ⟨⟨j, _, hr⟩, rfl⟩
    rwa [h.idxOf_eq hr]

theorem Inv.grow (h : c.Inv f) (hs : 0 < c.hsize) : ∃ c' f', c.grow = some c' ∧ c'.Inv f' ∧
    0 < c'.hsize ∧ c'.node = c.node ∧ c'.brk = c.brk := by
  have hs' : 0 < grownSize c.hsize := lt_of_lt_of_le hs (grownSize_bounds _).left
  have hi : ∀ r ∈ (range c.hsize).flatMap f, c.idxOf r ∈ (range c.hsize).reverse := by
    intro r hr
    obtain ⟨j, hj, hr⟩ := mem_flatMap.mp hr
    rwa [h.idxOf_eq hr, mem_reverse]
  let c' : Ctl α := { c with hsize := grownSize c.hsize }
  obtain ⟨b, hb, f', hh, hm⟩ := h.indexes.moveAll c'.idxOf
    (nodup_reverse.mpr nodup_range) hi (lt_succ_of_le h.length_le)
  have hidx : ∀ {r n}, c.node r = some n → c'.idxOf r = c'.idx n.key := by
    intro r n hn
    rw [idxOf, show c'.node r = some n from hn]
    rfl
  refine ⟨{ c' with table := b }, f', ?_, ⟨hh, ?_, ?_, h.fresh⟩, hs', rfl, rfl⟩
  case refine_1 => simp [Ctl.grow, fuel, c', hb]
  case refine_2 =>
    intro i r hr
    obtain ⟨hr', rfl⟩ := (hm i r).mp hr
    obtain ⟨n, hn⟩ := h.mem_nodes.mp hr'
    exact ⟨n, hn, hs', (hidx hn).symm⟩
  case refine_3 =>
    intro r n hn
    exact (hm _ r).mpr ⟨h.mem_nodes.mpr ⟨n, hn⟩, hidx hn⟩

theorem Inv.makeRoom (h : c.Inv f) : ∃ c' f', c.makeRoom = some c' ∧ c'.Inv f' ∧
    0 < c'.hsize ∧ c'.node = c.node ∧ c'.brk = c.brk := by
  by_cases hs : c.hsize = 0
  case pos =>
    have hn : ∀ r n, c.node r ≠ some n := by
      intro r n hn
      obtain ⟨_, -, h₀, -⟩ := h.placed _ r (h.complete r n hn)
      omega
    refine ⟨_, fun _ => [], if_pos hs, ⟨fun _ => rfl, by simp, ?_, h.fresh⟩, Nat.one_pos, rfl, rfl⟩
    exact fun r n hn' => absurd hn' (hn r n)
  case neg =>
    rw [Ctl.makeRoom, if_neg hs]
    split
    case isTrue => exact h.grow (Nat.pos_of_ne_zero hs)
    case isFalse => exact ⟨c, f, rfl, h, Nat.pos_of_ne_zero hs, rfl, rfl⟩

theorem Inv.hashAdd (h : c.Inv f) (key : UInt32) (data : α) : ∃ c' f',
    c.hashAdd key data = some c' ∧ c'.Inv f' ∧ c'.stored = c.stored ++ [⟨key, data⟩] := by
  have h' : Inv { c with nodes := CInt.int (c.nodes + 1) } f :=
    ⟨h.chains, h.placed, h.complete, h.fresh⟩
  obtain ⟨c₁, f₁, hm, h₁, hs, hn, hb⟩ := h'.makeRoom
  refine ⟨_, _, ?_, h₁.link hs ⟨key, data⟩, ?_⟩
  · simp [Ctl.hashAdd, hm]
  · rw [stored_link, stored, hn, hb]
    rfl

section Del

theorem Inv.remove (h : c.Inv f) (hk : f k = rs₁ ++ r :: rs₂) :
    (c.remove k rs₁.getLast? r).Inv (update f k (rs₁ ++ rs₂)) := by
  have hd : r ∉ rs₁ ++ rs₂ := by
    have := (h.chains k).nodup
    rw [hk, nodup_middle, nodup_cons] at this
    exact this.left
  have hsub : ∀ i r', r' ∈ update f k (rs₁ ++ rs₂) i → r' ∈ f i ∧ r' ≠ r := by
    intro i r' hr'
    by_cases hi : i = k
    case pos =>
      subst hi
      rw [update_self] at hr'
      refine ⟨?_, ne_of_mem_of_not_mem hr' hd⟩
      rw [hk, mem_append, mem_cons]
      exact (mem_append.mp hr').imp_right .inr
    case neg =>
      rw [update_of_ne hi] at hr'
      refine ⟨hr', ?_⟩
      rintro rfl
      exact hi (h.disjoint i k r' hr' (by simp [hk]))
  constructor
  case chains => exact h.chains.unlink h.disjoint hk
  case placed =>
    intro i r' hr'
    obtain ⟨hr', hne⟩ := hsub i r' hr'
    obtain ⟨n, hn, hs⟩ := h.placed i r' hr'
    exact ⟨n, (update_of_ne hne _ _).trans hn, hs⟩
  case complete =>
    intro r' n hn
    have hne : r' ≠ r := by
      rintro rfl
      simp [Ctl.remove] at hn
    have hm := h.complete r' n ((update_of_ne hne _ _).symm.trans hn)
    by_cases hi : c.idx n.key = k
    case pos =>
      subst hi
      rw [hk, mem_append, mem_cons] at hm
      simp only [Ctl.remove, idx, update_self]
      exact mem_append.mpr (hm.imp_right fun hm => hm.resolve_left hne)
    case neg =>
      simp only [Ctl.remove, idx] at hi ⊢
      rwa [update_of_ne hi]
  case fresh =>
    intro r' n hn
    have hne : r' ≠ r := by
      rintro rfl
      simp [Ctl.remove] at hn
    exact h.fresh r' n ((update_of_ne hne _ _).symm.trans hn)

theorem Inv.mem_chain (h : c.Inv f) (hn : c.node r = some n) :
    r ∈ f (c.idx n.key) ∧ c.hsize ≠ 0 := by
  have hr := h.complete r n hn
  exact ⟨hr, ne_of_gt (zero_lt_of_lt (h.lt_hsize hr))⟩

theorem Inv.search (h : c.Inv f) (found : Ref → Bool) (k : Nat) :
    (∃ rs₁ r rs₂, f k = rs₁ ++ r :: rs₂ ∧ found r ∧
      Linked.search c.table.next found c.fuel none (c.table.head k) = some (rs₁.getLast?, some r)) ∨
    ((∀ r ∈ f k, found r = false) ∧ ∃ prior,
      Linked.search c.table.next found c.fuel none (c.table.head k) = some (prior, none)) := by
  rcases search_cases found (h.chains k) (lt_succ_of_le (h.chain_length_le k)) with
    ⟨rs₁, r, rs₂, hk, hr, -, hs⟩ | hs
  · exact .inl ⟨rs₁, r, rs₂, hk, hr, hs⟩
  · exact .inr hs

theorem mem_stored : n ∈ c.stored ↔ ∃ r < c.brk, c.node r = some n := by
  simp [stored]

theorem Inv.mem_stored (h : c.Inv f) : n ∈ c.stored ↔ ∃ r, c.node r = some n :=
  Ctl.mem_stored.trans ⟨fun ⟨r, _, hn⟩ => ⟨r, hn⟩, fun ⟨r, hn⟩ => ⟨r, h.fresh r n hn, hn⟩⟩

theorem Inv.hashSearch (h : c.Inv f) (key : UInt32) : ∃ o, c.hashSearch key = some o ∧
    (∀ r ∈ o, ∃ n, c.node r = some n ∧ n.key = key) ∧ (o = none → ∀ n ∈ c.stored, n.key ≠ key) := by
  by_cases hs : c.hsize = 0
  case pos =>
    refine ⟨none, if_pos hs, by simp, fun _ n hn => ?_⟩
    obtain ⟨r, hn⟩ := h.mem_stored.mp hn
    exact absurd hs (h.mem_chain hn).right
  case neg =>
    rw [Ctl.hashSearch, if_neg hs]
    rcases h.search (c.hasKey key) (c.idx key) with ⟨rs₁, r, rs₂, -, hr, he⟩ | ⟨hr, prior, he⟩
    case inl =>
      rw [he]
      refine ⟨some r, rfl, ?_, nofun⟩
      simpa [hasKey, Option.any_eq_true] using hr
    case inr =>
      rw [he]
      refine ⟨none, rfl, nofun, ?_⟩
      rintro - n hn rfl
      obtain ⟨r, hn⟩ := h.mem_stored.mp hn
      have := hr r (h.mem_chain hn).left
      simp [hasKey, hn] at this

variable [DecidableEq α]

theorem Inv.hashDel (h : c.Inv f) (key : UInt32) (data : α) : ∃ c' sts f',
    c.hashDel key data = some (c', sts) ∧ c'.Inv f' ∧
      c'.stored.Perm (c.stored.erase ⟨key, data⟩) ∧
      sts = if ⟨key, data⟩ ∈ c.stored then 1 else 0 := by
  by_cases hs : c.hsize = 0
  case pos =>
    have hn : ⟨key, data⟩ ∉ c.stored := by
      intro hn
      obtain ⟨r, hn⟩ := h.mem_stored.mp hn
      exact (h.mem_chain hn).right hs
    exact ⟨c, 0, f, if_pos hs, h, by rw [erase_of_not_mem hn], (if_neg hn).symm⟩
  case neg =>
    rw [Ctl.hashDel, if_neg hs]
    rcases h.search (c.isNode ⟨key, data⟩) (c.idx key) with
      ⟨rs₁, r, rs₂, hk, hr, he⟩ | ⟨hr, prior, he⟩
    case inl =>
      have hn : c.node r = some ⟨key, data⟩ := by simpa [isNode] using hr
      have hm : ⟨key, data⟩ ∈ c.stored := h.mem_stored.mpr ⟨r, hn⟩
      rw [he]
      refine ⟨_, 1, _, rfl, h.remove hk, ?_, (if_pos hm).symm⟩
      refine Perm.cons_inv ((stored_remove hn (h.fresh r _ hn)).trans ?_)
      exact perm_cons_erase hm
    case inr =>
      have hn : ⟨key, data⟩ ∉ c.stored := by
        intro hn
        obtain ⟨r, hn⟩ := h.mem_stored.mp hn
        have := hr r (h.mem_chain hn).left
        simp [isNode, hn] at this
      rw [he]
      exact ⟨c, 0, f, rfl, h, by rw [erase_of_not_mem hn], (if_neg hn).symm⟩

end Del

section WalkCB

variable {σ : Type} {w w' : Calls α σ} {s : WalkState} {cdata : σ}

theorem Calls.deleted_keep (w : Calls α σ) (h : ¬s.Deletes) :
    Calls.deleted ⟨cdata, w.log ++ [(n, s)]⟩ = w.deleted := by
  simp [deleted, h]

theorem Calls.deleted_delete (w : Calls α σ) (h : s.Deletes) :
    Calls.deleted ⟨cdata, w.log ++ [(n, s)]⟩ = w.deleted ++ [n] := by
  simp [deleted, h]

-- The calls for a list of nodes, up to an answer that stops the walk.
def visits (cb : Node α → σ → WalkState × σ) : List (Node α) → Calls α σ → Calls α σ × Bool
  | [], w => (w, false)
  | n :: ns, w =>
    let (s, cdata) := cb n w.cdata
    let w := ⟨cdata, w.log ++ [(n, s)]⟩
    if s = .next ∨ s = .deleteNext then visits cb ns w else (w, true)

theorem visits_append (cb : Node α → σ → WalkState × σ) : visits cb (ns ++ ms) w =
    if (visits cb ns w).2 then visits cb ns w else visits cb ms (visits cb ns w).1 := by
  induction ns generalizing w
  case nil => rfl
  case cons n ns hi =>
    simp only [cons_append, visits]
    split
    · exact hi
    · rfl

structure Walked (c : Ctl α) (w : Calls α σ) (c' : Ctl α) (w' : Calls α σ) : Prop where
  inv : ∃ f, c'.Inv f
  hsize : c'.hsize = c.hsize
  brk : c'.brk = c.brk
  perm : (w'.deleted ++ c'.stored).Perm (w.deleted ++ c.stored)

theorem Walked.refl (h : c.Inv f) (hw : w'.deleted = w.deleted) : Walked c w c w' :=
  ⟨⟨f, h⟩, rfl, rfl, hw ▸ .refl _⟩

theorem Walked.trans (h : Walked c w c' w')
    (h' : Walked c' w' c'' w'') : Walked c w c'' w'' :=
  ⟨h'.inv, h'.hsize.trans h.hsize, h'.brk.trans h.brk, h'.perm.trans h.perm⟩

theorem Inv.walked_remove (h : c.Inv f) (hk : f k = rs₁ ++ r :: rs₂) (hn : c.node r = some n)
    (w : Calls α σ) (hs : s.Deletes) :
    Walked c w (c.remove k rs₁.getLast? r) ⟨cdata, w.log ++ [(n, s)]⟩ := by
  refine ⟨⟨_, h.remove hk⟩, rfl, rfl, ?_⟩
  rw [Calls.deleted_delete w hs, append_assoc]
  exact (stored_remove hn (h.fresh r n hn)).append_left _

theorem Inv.walkChain (cb : Node α → σ → WalkState × σ) (h : c.Inv f) (rs₁ : List Ref)
    (hk : f k = rs₁ ++ rs₂) (hl : rs₂.length < m) (w : Calls α σ) : ∃ c' w' stopped,
    Ctl.walkChain cb k m rs₁.getLast? rs₂.head? c w = some (c', w', stopped) ∧
      Walked c w c' w' ∧ (w', stopped) = visits cb (rs₂.filterMap c.node) w ∧
      ∃ f', c'.Inv f' ∧ ∀ i ≠ k, f' i = f i ∧ ∀ r ∈ f i, c'.node r = c.node r := by
  induction rs₂ generalizing c f rs₁ m w
  case nil =>
    obtain ⟨m, rfl⟩ := exists_eq_add_one.mpr (zero_lt_of_lt hl)
    exact ⟨c, w, false, rfl, .refl h rfl, rfl, f, h, fun _ _ => ⟨rfl, fun _ _ => rfl⟩⟩
  case cons r rs ih =>
    obtain ⟨m, rfl⟩ := exists_eq_add_one.mpr (zero_lt_of_lt hl)
    obtain ⟨n, hn, -⟩ := h.placed k r (by simp [hk])
    have hx : c.table.next r = rs.head? := IsList.next_eq (hk ▸ h.chains k)
    have hl : rs.length < m := lt_of_succ_lt_succ hl
    have hsame : ∀ i ≠ k, update f k (rs₁ ++ rs) i = f i ∧
        ∀ r' ∈ f i, (c.remove k rs₁.getLast? r).node r' = c.node r' := by
      refine fun i hi => ⟨update_of_ne hi .., fun r' hr' => update_of_ne ?_ ..⟩
      rintro rfl
      exact hi (h.disjoint i k r' hr' (by simp [hk]))
    have hrs : rs.filterMap (c.remove k rs₁.getLast? r).node = rs.filterMap c.node := by
      have hd := (h.chains k).nodup
      rw [hk, nodup_middle, nodup_cons] at hd
      refine filterMap_congr fun r' hr' => update_of_ne ?_ ..
      rintro rfl
      exact hd.left (mem_append_right _ hr')
    rw [head?_cons, Ctl.walkChain, filterMap_cons_some hn, visits, hn, bind_eq_bind, bind_some, hx]
    rcases cb n w.cdata with ⟨s, cdata⟩
    cases s
    case start | stop =>
      exact ⟨c, _, true, rfl, .refl h (w.deleted_keep id), rfl, f, h,
        fun _ _ => ⟨rfl, fun _ _ => rfl⟩⟩
    case deleteStop =>
      exact ⟨_, _, true, rfl, h.walked_remove hk hn w trivial, rfl, _, h.remove hk, hsame⟩
    case next =>
      obtain ⟨c', w', b, he, hw, hv, hf⟩ := ih h (rs₁ ++ [r]) (by simp [hk]) hl
        ⟨cdata, w.log ++ [(n, .next)]⟩
      rw [getLast?_append_of_ne_nil _ (by simp)] at he
      exact ⟨c', w', b, he, .trans (.refl h (w.deleted_keep id)) hw, hv, hf⟩
    case deleteNext =>
      obtain ⟨c', w', b, he, hw, hv, f', h', hf⟩ := ih (h.remove hk) rs₁ (update_self ..) hl
        ⟨cdata, w.log ++ [(n, .deleteNext)]⟩
      refine ⟨c', w', b, he, .trans (h.walked_remove hk hn w (s := .deleteNext) trivial) hw,
        hrs ▸ hv, f', h', fun i hi => ⟨(hf i hi).left.trans (hsame i hi).left, fun r' hr' => ?_⟩⟩
      rw [(hf i hi).right r' ((hsame i hi).left ▸ hr'), (hsame i hi).right r' hr']

theorem Inv.walkBuckets (cb : Node α → σ → WalkState × σ) (h : c.Inv f) (ks : List Nat)
    (hd : ks.Nodup) (w : Calls α σ) : ∃ c' w', Ctl.walkBuckets cb ks c w = some (c', w') ∧
      Walked c w c' w' ∧ w' = (visits cb ((ks.flatMap f).filterMap c.node) w).1 := by
  induction ks generalizing c f w
  case nil => exact ⟨c, w, rfl, .refl h rfl, rfl⟩
  case cons k ks ih =>
    obtain ⟨hk, hd⟩ := nodup_cons.mp hd
    obtain ⟨c₁, w₁, stopped, he, hw, hv, f₁, h₁, hf⟩ := h.walkChain cb [] rfl
      (lt_succ_of_le (h.chain_length_le k)) w
    rw [getLast?_nil, ← IsList.head_eq (h.chains k)] at he
    rw [Ctl.walkBuckets, show Ctl.walkChain cb k c.fuel _ _ c w = _ from he, bind_eq_bind,
      bind_some, flatMap_cons, filterMap_append, visits_append, ← hv]
    cases stopped
    case true => exact ⟨c₁, w₁, rfl, hw, rfl⟩
    case false =>
      have hr : (ks.flatMap f₁).filterMap c₁.node = (ks.flatMap f).filterMap c.node := by
        have hne : ∀ i ∈ ks, i ≠ k := fun i hi => ne_of_mem_of_not_mem hi hk
        rw [flatMap_congr fun i hi => (hf i (hne i hi)).left]
        refine filterMap_congr fun r hr => ?_
        obtain ⟨i, hi, hr⟩ := mem_flatMap.mp hr
        exact (hf i (hne i hi)).right r hr
      obtain ⟨c', w', he', hw', hv'⟩ := ih h₁ hd w₁
      exact ⟨c', w', he', hw.trans hw', hr ▸ hv'⟩

end WalkCB

def later (c : Ctl α) (f : Nat → List Ref) (i : Nat) : List Ref :=
  ((List.range c.hsize).drop i).flatMap f

theorem later_of_lt (h : i < c.hsize) : c.later f i = f i ++ c.later f (i + 1) := by
  rw [later, drop_eq_getElem_cons (by simpa using h), getElem_range]
  rfl

theorem later_of_le (h : c.hsize ≤ i) : c.later f i = [] := by
  rw [later, drop_of_length_le (by simpa using h), flatMap_nil]

def atPos (c : Ctl α) (o : Option Ref) (i : Nat) : Ctl α :=
  { c with next := o, index := i }

@[simp]
theorem atPos_atPos (c : Ctl α) : (c.atPos o i).atPos o' i' = c.atPos o' i' :=
  rfl

def Remains (c : Ctl α) (f : Nat → List Ref) (rest : List Ref) : Prop :=
  ∃ rs, IsList c.table.next c.next rs ∧ rest = rs ++ c.later f (c.index + 1)

theorem Remains.advance (h : c.table.Holds f) (hr : c.Remains f rest) (hn : 0 < m)
    (hm : c.hsize < m + c.index) : ∃ o i, c.advance m = some (c.atPos o i) ∧
      (c.atPos o i).Remains f rest ∧ o = rest.head? := by
  induction m generalizing c
  case zero => cases hn
  case succ m ih =>
    obtain ⟨rs, hl, rfl⟩ := hr
    cases rs
    case cons r rs =>
      rw [Ctl.advance, if_pos (by rw [hl.left]; rfl)]
      exact ⟨c.next, c.index, rfl, ⟨r :: rs, hl, rfl⟩, hl.left⟩
    case nil =>
      have hx : c.next = none := hl
      rw [Ctl.advance, if_neg (by simp [hx])]
      by_cases hi : c.index + 1 ≥ c.hsize
      case pos =>
        refine ⟨none, c.index + 1, ?_, ⟨[], rfl, ?_⟩, ?_⟩
        · simp [hi, atPos, hx]
        · rw [later_of_le hi]
          exact (later_of_le (le_succ_of_le hi)).symm
        · rw [later_of_le hi]
          rfl
      case neg =>
        have hi' : c.index + 1 < c.hsize := Nat.lt_of_not_le hi
        let c' : Ctl α := c.atPos (c.table.head (c.index + 1)) (c.index + 1)
        have hr : c'.Remains f ([] ++ c.later f (c.index + 1)) :=
          ⟨f (c.index + 1), h _, later_of_lt hi'⟩
        have hm' : c'.hsize < m + c'.index := by
          simp only [c', atPos]
          omega
        obtain ⟨o, i, he, hh⟩ := ih (c := c') h hr (by omega) hm'
        refine ⟨o, i, ?_, hh⟩
        simp only [if_neg hi]
        exact he

theorem Remains.hashWalk (h : c.table.Holds f) (hs : c.hsize ≠ 0) (hr : c.Remains f rest) :
    ∃ o i, c.hashWalk .next = some (c.atPos o i, rest.head?) ∧
      (c.atPos o i).Remains f rest.tail := by
  obtain ⟨o, i, he, ⟨rs, hl, hrest⟩, ho⟩ := hr.advance h (succ_pos c.hsize) (by omega)
  rw [Ctl.hashWalk, if_neg hs]
  simp only [reduceCtorEq, if_false, he, bind_eq_bind, bind_some]
  cases rest
  case nil =>
    obtain rfl : o = none := ho
    exact ⟨none, i, rfl, rs, hl, hrest⟩
  case cons r rest =>
    obtain rfl : o = some r := ho
    cases rs
    case nil => cases hl
    case cons r' rs =>
      cases hrest
      exact ⟨c.table.next r, i, rfl, rs, hl.right, rfl⟩

theorem Remains.walkNodes (h : c.table.Holds f) (hs : c.hsize ≠ 0) (hr : c.Remains f rest)
    (hm : rest.length < m) :
    ∃ o i, Ctl.walkNodes m .next c = some (c.atPos o i, rest) := by
  induction rest generalizing c m
  case nil =>
    obtain ⟨m, rfl⟩ := exists_eq_add_one.mpr hm
    obtain ⟨o, i, he, -⟩ := hr.hashWalk h hs
    exact ⟨o, i, by simp [Ctl.walkNodes, he]⟩
  case cons r rest ih =>
    obtain ⟨m, rfl⟩ := exists_eq_add_one.mpr (zero_lt_of_lt hm)
    obtain ⟨o, i, he, hr'⟩ := hr.hashWalk h hs
    obtain ⟨o', i', he'⟩ := ih (c := c.atPos o i) h hs hr' (lt_of_succ_lt_succ hm)
    exact ⟨o', i', by simp [Ctl.walkNodes, he, he']⟩

-- START begins with the first bucket, whatever the position is.
theorem walkNodes_start (c : Ctl α) (hs : c.hsize ≠ 0) :
    walkNodes m .start c = walkNodes m .next (c.atPos (c.table.head 0) 0) := by
  cases m
  case zero => rfl
  case succ m =>
    have hw : c.hashWalk .start = (c.atPos (c.table.head 0) 0).hashWalk .next := by
      simp [hashWalk, hs, atPos]
    rw [walkNodes, hw, walkNodes]

theorem Inv.walkAll (h : c.Inv f) :
    ∃ o i, c.walkAll = some (c.atPos o i, (range c.hsize).flatMap f) := by
  by_cases hs : c.hsize = 0
  case pos =>
    refine ⟨c.next, c.index, ?_⟩
    rw [hs, range_zero, flatMap_nil, Ctl.walkAll, fuel, Ctl.walkNodes, hashWalk,
      if_pos hs]
    rfl
  case neg =>
    have hr : (c.atPos (c.table.head 0) 0).Remains f ((range c.hsize).flatMap f) :=
      ⟨f 0, h.chains 0, later_of_lt (Nat.pos_of_ne_zero hs)⟩
    obtain ⟨o, i, he⟩ := Remains.walkNodes (c := c.atPos _ 0) h.chains hs hr
      (Nat.lt_succ_of_le h.length_le)
    exact ⟨o, i, (walkNodes_start c hs).trans he⟩

theorem Inv.atPos (h : c.Inv f) (o : Option Ref) (i : Nat) : (c.atPos o i).Inv f :=
  ⟨h.chains, h.placed, h.complete, h.fresh⟩

end Ctl

end Hash
