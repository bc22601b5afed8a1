import PcpModel.Cache.Chains
import PcpModel.Cache.Order

namespace Cache.Links

open Linked List Function Nat

variable {h : Links} {es : List Ref}

section Split

variable {state : Ref → State} {next : Ref → Option Ref} {p : Part} {s : Split} {e : Option Ref}
  {r t : Ref} {as is rs : List Ref}

structure Part.Holds (p : Part) (next : Ref → Option Ref) (rs : List Ref) : Prop where
  list : IsList next p.head rs
  last : p.last = rs.getLast?

theorem Part.Holds.congr {next' : Ref → Option Ref} (h : p.Holds next rs)
    (hn : ∀ r ∈ rs, next' r = next r) : p.Holds next' rs :=
  ⟨h.list.congr hn, h.last⟩

theorem Part.Holds.add (h : p.Holds next rs) (hn : next t = none) (ht : t ∉ rs) :
    (p.add next t).2.Holds (p.add next t).1 (rs ++ [t]) := by
  constructor
  case list =>
    rw [Part.add, h.last]
    exact h.list.attach (by simp [hn]) (disjoint_singleton.mpr ht)
  case last => simp [Part.add]

theorem Part.Holds.add_next (h : p.Holds next rs) (hr : r ∉ rs) : (p.add next t).1 r = next r := by
  rw [Part.add, h.last]
  exact attach_of_notMem hr

structure Split.Holds (s : Split) (e : Option Ref) (as is rs : List Ref) : Prop where
  active : s.active.Holds s.next as
  inactive : s.inactive.Holds s.next is
  rest : IsList s.next e rs
  nodup : (as ++ is ++ rs).Nodup

def inState (state : Ref → State) (s : State) (rs : List Ref) : List Ref :=
  rs.filter (state · = s)

theorem mem_inState : r ∈ inState state st rs ↔ r ∈ rs ∧ state r = st := by
  simp [inState]

theorem inState_cons (state : Ref → State) (st : State) (t : Ref) (rs : List Ref) :
    inState state st (t :: rs) = inState state st [t] ++ inState state st rs :=
  filter_append [t] rs

theorem Split.Holds.unlinked (h : s.Holds (some t) as is (t :: rs)) :
    Split.Holds { s with next := update s.next t none } (s.next t) as is rs ∧
      t ∉ as ++ is ++ rs := by
  obtain ⟨ht, hn⟩ := nodup_cons.mp (nodup_middle.mp h.nodup)
  have hu : ∀ r ∈ as ++ is ++ rs, update s.next t none r = s.next r :=
    fun r hr => update_of_ne (ne_of_mem_of_not_mem hr ht) _ _
  refine ⟨⟨?_, ?_, ?_, hn⟩, ht⟩
  · exact h.active.congr fun r hr => hu r (by simp [hr])
  · exact h.inactive.congr fun r hr => hu r (by simp [hr])
  · exact h.rest.right.congr fun r hr => hu r (by simp [hr])

theorem Split.Holds.addActive (h : s.Holds e as is rs) (hn : s.next t = none)
    (ht : t ∉ as ++ is ++ rs) :
    Split.Holds { s with next := (s.active.add s.next t).1, active := (s.active.add s.next t).2 }
      e (as ++ [t]) is rs := by
  have hd := h.nodup
  simp only [mem_append, not_or] at ht
  simp only [nodup_append, mem_append] at hd
  obtain ⟨⟨-, -, hi⟩, -, hr⟩ := hd
  constructor
  case active => exact h.active.add hn ht.left.left
  case inactive =>
    exact h.inactive.congr fun r hm => h.active.add_next fun hm' => hi r hm' r hm rfl
  case rest =>
    exact h.rest.congr fun r hm => h.active.add_next fun hm' => hr r (.inl hm') r hm rfl
  case nodup =>
    rw [append_assoc, append_assoc, singleton_append, nodup_middle,
      nodup_cons, ← append_assoc]
    exact ⟨by simpa [and_assoc] using ht, h.nodup⟩

theorem Split.Holds.swap (h : s.Holds e as is rs) :
    Split.Holds { s with active := s.inactive, inactive := s.active } e is as rs :=
  ⟨h.inactive, h.active, h.rest, (perm_append_comm.append_right rs).nodup_iff.mp h.nodup⟩

theorem Split.Holds.addInactive (h : s.Holds e as is rs) (hn : s.next t = none)
    (ht : t ∉ as ++ is ++ rs) :
    Split.Holds
      { s with next := (s.inactive.add s.next t).1, inactive := (s.inactive.add s.next t).2 }
      e as (is ++ [t]) rs :=
  (h.swap.addActive hn (mt (perm_append_comm.append_right rs).mem_iff.mp ht)).swap

theorem Split.Holds.step (h : s.Holds (some t) as is (t :: rs)) (state : Ref → State) :
    (s.step state t).Holds (s.next t) (as ++ inState state .active [t])
      (is ++ inState state .inactive [t]) rs ∧
    ∀ r ∉ as ++ is ++ (t :: rs), (s.step state t).next r = s.next r := by
  obtain ⟨hu, ht⟩ := h.unlinked
  have hn : update s.next t none t = none := update_self ..
  have hf : ∀ r ∉ as ++ is ++ (t :: rs), update s.next t none r = s.next r := by
    intro r hr
    simp only [mem_append, mem_cons, not_or] at hr
    exact update_of_ne hr.right.left _ _
  cases hs : state t
  case empty =>
    simp only [Split.step, hs, inState]
    exact ⟨by simpa [hs] using hu, hf⟩
  case active =>
    simp only [Split.step, hs]
    refine ⟨by simpa [inState, hs] using hu.addActive hn ht, fun r hr => ?_⟩
    exact (hu.active.add_next fun hm => hr (by simp [hm])).trans (hf r hr)
  case inactive =>
    simp only [Split.step, hs]
    refine ⟨by simpa [inState, hs] using hu.addInactive hn ht, fun r hr => ?_⟩
    exact (hu.inactive.add_next fun hm => hr (by simp [hm])).trans (hf r hr)

theorem Split.Holds.run (h : s.Holds e as is rs) (state : Ref → State) (hn : rs.length < n) :
    ∃ s', Split.run state n e s = some s' ∧
      s'.Holds none (as ++ inState state .active rs) (is ++ inState state .inactive rs) [] ∧
      ∀ r ∉ as ++ is ++ rs, s'.next r = s.next r := by
  induction rs generalizing n e s as is
  case nil =>
    obtain ⟨n, rfl⟩ := exists_eq_add_one.mpr hn
    obtain rfl := seg_nil.mp h.rest
    exact ⟨s, rfl, by simpa [inState] using h, fun _ _ => rfl⟩
  case cons t rs ih =>
    obtain ⟨n, rfl⟩ := exists_eq_add_one.mpr (zero_lt_of_lt hn)
    obtain rfl : e = some t := h.rest.left
    obtain ⟨h₁, hf₁⟩ := h.step state
    obtain ⟨s', hr, h', hf⟩ := ih h₁ (lt_of_succ_lt_succ hn)
    refine ⟨s', hr, ?_, fun r hr => ?_⟩
    · rwa [inState_cons state .active t rs, inState_cons state .inactive t rs,
        ← append_assoc, ← append_assoc]
    · refine (hf r fun hm => hr ?_).trans (hf₁ r hr)
      simp only [mem_append, mem_inState, mem_cons, not_mem_nil, or_false] at hm ⊢
      tauto

def reordered (state : Ref → State) (rs : List Ref) : List Ref :=
  inState state .active rs ++ inState state .inactive rs

theorem mem_reordered : r ∈ reordered state rs ↔ r ∈ rs ∧ state r ≠ .empty := by
  rw [reordered, mem_append, mem_inState, mem_inState]
  cases state r <;> simp

theorem reorderChain_eq {b : Buckets Ref} {f : Nat → List Ref} (h : b.Holds f)
    (hd : Buckets.Disjoint f) (state : Ref → State) (hn : (f i).length < n) :
    ∃ b', reorderChain state n b i = some b' ∧
      b'.Holds (update f i (reordered state (f i))) := by
  have h₀ : Split.Holds ⟨b.next, ⟨none, none⟩, ⟨none, none⟩⟩ (b.head i) [] [] (f i) :=
    ⟨⟨rfl, rfl⟩, ⟨rfl, rfl⟩, h i, (h i).nodup⟩
  obtain ⟨s, hr, hs, hf⟩ := h₀.run state hn
  simp only [nil_append] at hs hf
  refine ⟨_, by rw [reorderChain, hr]; rfl, fun j => ?_⟩
  simp only [hs.active.last]
  by_cases hj : j = i
  case pos =>
    subst hj
    rw [update_self, update_self]
    have hn := hs.nodup
    rw [append_nil] at hn
    exact hs.active.list.attach hs.inactive.list (disjoint_of_nodup_append hn)
  case neg =>
    rw [update_of_ne hj, update_of_ne hj]
    refine (h j).congr fun r hr => ?_
    have hi : r ∉ f i := fun hi => hj (hd j i r hr hi)
    rw [attach_of_notMem fun hm => hi (mem_inState.mp hm).left, hf r hi]

theorem reorderChains_eq {b : Buckets Ref} {f : Nat → List Ref} (h : b.Holds f)
    (hd : Buckets.Disjoint f) (state : Ref → State) (hn : ∀ i, (f i).length < n) (ks : List Nat) :
    ∃ b' f', reorderChains state n ks b = some b' ∧ b'.Holds f' ∧
      ∀ i r, r ∈ f' i ↔ r ∈ f i ∧ (i ∈ ks → state r ≠ .empty) := by
  induction ks generalizing b f
  case nil => exact ⟨b, f, rfl, h, by simp⟩
  case cons k ks ih =>
    obtain ⟨b₁, he, h₁⟩ := reorderChain_eq h hd state (hn k)
    have hm : ∀ i r, r ∈ update f k (reordered state (f k)) i ↔
        r ∈ f i ∧ (i = k → state r ≠ .empty) := by
      intro i r
      by_cases hi : i = k
      case pos => simp [hi, mem_reordered]
      case neg => simp [hi]
    have hl : ∀ i, (update f k (reordered state (f k)) i).length < n := by
      intro i
      have hs := (h₁ i).nodup.subperm fun r hr => ((hm i r).mp hr).left
      exact lt_of_le_of_lt hs.length_le (hn i)
    obtain ⟨b', f', he', h', hm'⟩ := ih h₁
      (fun i j r hi hj => hd i j r ((hm i r).mp hi).left ((hm j r).mp hj).left) hl
    refine ⟨b', f', by rw [reorderChains, he, Option.bind_some, he'], h', fun i r => ?_⟩
    rw [hm', hm, mem_cons]
    tauto

theorem reorderChains_indexes {b : Buckets Ref} {idx : Ref → Nat} (h : b.Indexes idx es)
    (state : Ref → State) (hi : ∀ r ∈ es, idx r ∈ ks) (hn : es.length < n) :
    ∃ b', reorderChains state n ks b = some b' ∧
      b'.Indexes idx (es.filter (state · ≠ .empty)) := by
  obtain ⟨f, hf, hm⟩ := h
  have hl : ∀ i, (f i).length < n := by
    intro i
    have hs := (hf i).nodup.subperm fun r hr => ((hm i r).mp hr).left
    exact lt_of_le_of_lt hs.length_le hn
  have hd : Buckets.Disjoint f := fun i j r hr hr' =>
    ((hm i r).mp hr).right.symm.trans ((hm j r).mp hr').right
  obtain ⟨b', f', he, hb, hm'⟩ := reorderChains_eq hf hd state hl ks
  refine ⟨b', he, f', hb, fun i r => ?_⟩
  rw [hm', hm, mem_filter, decide_eq_true_eq]
  constructor
  case mp =>
    rintro ⟨⟨hr, rfl⟩, hs⟩
    exact ⟨⟨hr, hs (hi r hr)⟩, rfl⟩
  case mpr =>
    rintro ⟨⟨hr, hs⟩, rfl⟩
    exact ⟨⟨hr, rfl⟩, fun _ => hs⟩

end Split

theorem dropEmpty_eq (ks : List Ref) (hl : IsList h.next h.first (ks ++ rs)) (hn : rs.length < n) :
    ∃ next first entry, dropEmpty n ks.getLast? rs.head? h = some { h with next, first, entry } ∧
      IsList next first (ks ++ rs.filter (h.state · ≠ .empty)) ∧
      ∀ r, entry r = if r ∈ rs ∧ h.state r = .empty then none else h.entry r := by
  induction rs generalizing n h ks
  case nil =>
    obtain ⟨n, rfl⟩ := exists_eq_add_one.mpr hn
    exact ⟨h.next, h.first, h.entry, rfl, by simpa using hl, by simp⟩
  case cons t rs ih =>
    obtain ⟨n, rfl⟩ := exists_eq_add_one.mpr (zero_lt_of_lt hn)
    have ht : h.next t = rs.head? := hl.next_eq
    rw [head?_cons, dropEmpty, ht]
    by_cases hs : h.state t = .empty
    case neg =>
      rw [append_cons] at hl
      obtain ⟨next, first, entry, he, hl', hm⟩ := ih _ hl (lt_of_succ_lt_succ hn)
      refine ⟨next, first, entry, ?_, ?_, fun r => ?_⟩
      · rw [if_neg hs, ← he, getLast?_append_of_ne_nil _ (by simp)]
        rfl
      · rwa [filter_cons_of_pos (by simpa using hs), append_cons]
      · rw [hm]
        refine if_congr (and_congr_left fun hr => ?_) rfl rfl
        simp only [mem_cons, iff_or_self]
        rintro rfl
        exact absurd hr hs
    case pos =>
      let h₁ : Links :=
        { h with
          next := (attach h.next h.first rs.head? ks.getLast?).1
          first := (attach h.next h.first rs.head? ks.getLast?).2
          entry := update h.entry t none
        }
      have hst : h₁.state = h.state := by
        funext r
        by_cases hr : r = t
        case pos =>
          subst hr
          rw [hs]
          simp [state, h₁]
        case neg => simp [state, h₁, update_of_ne hr]
      have hl₁ : IsList h₁.next h₁.first (ks ++ rs) := by
        have := hl.detach
        rwa [ht] at this
      obtain ⟨next, first, entry, he, hl', hm⟩ := ih ks hl₁ (lt_of_succ_lt_succ hn)
      rw [hst] at hl' hm
      refine ⟨next, first, entry, ?_, ?_, fun r => ?_⟩
      · rw [if_pos hs]
        exact he
      · rwa [filter_cons_of_neg (by simpa using hs)]
      · rw [hm]
        by_cases hr : r = t
        case pos => simp [hr, hs, h₁]
        case neg => simp [hr, h₁]

-- The hash tables hold exactly the entries of the list.
structure Wf (h : Links) (es : List Ref) : Prop where
  list : IsList h.next h.first es
  alive : ∀ r ∈ es, ∃ e, h.entry r = some e
  fresh : ∀ r ∈ es, r < h.brk
  mask : h.hbits < h.hsize
  insts : h.ctlInst.Indexes h.instIdx es
  names : h.ctlName.Indexes h.nameIdx es

theorem Wf.length_lt (hw : h.Wf es) : es.length < h.fuel := by
  have hs := hw.list.nodup.subperm fun r hr => mem_range.mpr (hw.fresh r hr)
  simpa [fuel, Nat.lt_succ_iff] using hs.length_le

theorem instIdx_mem (hm : h.hbits < h.hsize) (r : Ref) : h.instIdx r ∈ range h.hsize := by
  rw [mem_range, instIdx]
  cases h.entry r
  case none => exact zero_lt_of_lt hm
  case some e => exact lt_of_le_of_lt and_le_right hm

theorem nameIdx_mem (hm : h.hbits < h.hsize) (r : Ref) : h.nameIdx r ∈ range h.hsize := by
  rw [mem_range, nameIdx]
  cases h.entry r
  case none => exact zero_lt_of_lt hm
  case some e => exact lt_of_le_of_lt and_le_right hm

theorem Wf.resize (hw : h.Wf es) : ∃ h', h.resize = some h' ∧ h'.Wf es ∧ h'.entry = h.entry := by
  let h' := { h with hsize := 2 * h.hsize, hbits := 2 * h.hbits + 1 }
  obtain ⟨b, hb, hi⟩ := hw.insts.moveAll h'.instIdx nodup_range
    (fun r _ => instIdx_mem hw.mask r) hw.length_lt
  obtain ⟨b', hb', hi'⟩ := hw.names.moveAll h'.nameIdx nodup_range
    (fun r _ => nameIdx_mem hw.mask r) hw.length_lt
  refine ⟨{ h' with ctlInst := b, ctlName := b' }, ?_,
    ⟨hw.list, hw.alive, hw.fresh, ?_, hi, hi'⟩, rfl⟩
  · simp [Links.resize, h', hb, hb']
  · have := hw.mask
    simp only [h']
    omega

structure Redone (h : Links) (es : List Ref) (h' : Links) : Prop where
  wf : h'.Wf (es.filter (h.state · ≠ .empty))
  entry : ∀ r ∈ es, h'.entry r = if h.state r = .empty then none else h.entry r

theorem Wf.reorder (hw : h.Wf es) : ∃ h', h.redoHash false = some h' ∧ Redone h es h' := by
  obtain ⟨b, hb, hi⟩ := reorderChains_indexes hw.insts h.state
    (fun r _ => instIdx_mem hw.mask r) hw.length_lt
  obtain ⟨b', hb', hi'⟩ := reorderChains_indexes hw.names h.state
    (fun r _ => nameIdx_mem hw.mask r) hw.length_lt
  obtain ⟨next, first, entry, he, hl, hm⟩ :=
    dropEmpty_eq (h := { h with ctlInst := b, ctlName := b' }) [] hw.list hw.length_lt
  have hkeep : ∀ r ∈ es.filter (h.state · ≠ .empty), entry r = h.entry r := by
    intro r hr
    rw [mem_filter, decide_eq_true_eq] at hr
    rw [hm]
    exact if_neg fun hs => hr.right hs.right
  refine ⟨{ h with next, first, entry, ctlInst := b, ctlName := b' }, ?_, ⟨?_, ?_⟩⟩
  case refine_1 =>
    rw [← hw.list.head_eq] at he
    simp only [Links.redoHash, Bool.false_eq_true, Option.bind_eq_bind, Option.bind_some,
      hb, hb']
    exact he
  case refine_2 =>
    constructor
    case list => exact hl
    case alive =>
      intro r hr
      obtain ⟨e, he⟩ := hw.alive r (mem_of_mem_filter hr)
      exact ⟨e, (hkeep r hr).trans he⟩
    case fresh => exact fun r hr => hw.fresh r (mem_of_mem_filter hr)
    case mask => exact hw.mask
    case insts => exact hi.congr fun r hr => congrArg (Option.elim · 0 _) (hkeep r hr)
    case names => exact hi'.congr fun r hr => congrArg (Option.elim · 0 _) (hkeep r hr)
  case refine_3 =>
    intro r hr
    refine (hm r).trans (if_congr ?_ rfl rfl)
    exact and_iff_right hr

theorem Wf.redoHash (hw : h.Wf es) (resize : Bool) :
    ∃ h', h.redoHash resize = some h' ∧ Redone h es h' := by
  cases resize
  case false => exact hw.reorder
  case true =>
    obtain ⟨h₁, hr, hw₁, he⟩ := hw.resize
    obtain ⟨h', hr', hd⟩ := hw₁.reorder
    have hs : h₁.state = h.state := by
      funext r
      rw [state, state, he]
    refine ⟨h', ?_, hs ▸ hd.wf, hs ▸ he ▸ hd.entry⟩
    simp only [Links.redoHash, Option.bind_eq_bind, hr]
    exact hr'

structure Agrees (h : Links) : Prop where
  inst : ∀ inst, ∃ o, h.findEntryInst inst = some o ∧ h.findInst inst = some o
  name : ∀ name, ∃ o, h.findEntryName name = some o ∧ h.findName name = some o

structure Unique (h : Links) (es : List Ref) : Prop where
  inst : ∀ r ∈ es, ∀ r' ∈ es, ∀ e ∈ h.entry r, ∀ e' ∈ h.entry r', e.Live → e'.Live →
    e.inst = e'.inst → r = r'
  name : ∀ r ∈ es, ∀ r' ∈ es, ∀ e ∈ h.entry r, ∀ e' ∈ h.entry r', e.Live → e'.Live →
    e.name.short = e'.name.short → r = r'

theorem find?_eq_of_unique {p : α → Bool} {l₁ l₂ : List α} (hm : ∀ x, p x → (x ∈ l₁ ↔ x ∈ l₂))
    (hu : ∀ x ∈ l₁, ∀ y ∈ l₁, p x → p y → x = y) : l₁.find? p = l₂.find? p := by
  cases h₁ : l₁.find? p
  case none =>
    rw [find?_eq_none] at h₁
    rw [eq_comm, find?_eq_none]
    exact fun x hx hp => h₁ x ((hm x hp).mpr hx) hp
  case some x =>
    have hx := find?_some h₁
    have hx₁ := mem_of_find?_eq_some h₁
    cases h₂ : l₂.find? p
    case none => exact absurd hx (find?_eq_none.mp h₂ x ((hm x hx).mp hx₁))
    case some y =>
      have hy := find?_some h₂
      have hy₁ := (hm y hy).mpr (mem_of_find?_eq_some h₂)
      rw [hu x hx₁ y hy₁ hx hy]

theorem isInst_iff : h.isInst inst r = true ↔ ∃ e ∈ h.entry r, e.inst = inst ∧ e.Live := by
  simp [isInst, Option.any_eq_true, Entry.Live]

theorem isName_iff :
    h.isName name r = true ↔ ∃ e ∈ h.entry r, e.Live ∧ e.name.short = name.short := by
  simp [isName, Option.any_eq_true, Entry.Live, nameEq_ne_zero]

theorem isInst_idx (hr : h.isInst inst r) : h.instIdx r = inst &&& h.hbits := by
  obtain ⟨e, he, rfl, -⟩ := isInst_iff.mp hr
  rw [instIdx, he]
  rfl

theorem isName_idx (hr : h.isName name r) : h.nameIdx r = hashStr name &&& h.hbits := by
  obtain ⟨e, he, -, hn⟩ := isName_iff.mp hr
  rw [nameIdx, he]
  simp [hashStr, hn]

theorem Wf.search_eq (hw : h.Wf es) {b : Buckets Ref} (hb : b.Indexes idx es)
    (hp : ∀ r, p r → idx r = i)
    (hu : ∀ r ∈ es, ∀ r' ∈ es, p r → p r' → r = r') :
    (search b.next p h.fuel none (b.head i)).map (·.2) =
      (search h.next p h.fuel none h.first).map (·.2) := by
  obtain ⟨f, hf, hm⟩ := hb
  have hl : (f i).length < h.fuel := by
    have hs := (hf i).nodup.subperm fun r hr => ((hm i r).mp hr).left
    exact lt_of_le_of_lt hs.length_le hw.length_lt
  rw [search_eq_find (hf i) hl, search_eq_find hw.list hw.length_lt]
  refine congrArg some (find?_eq_of_unique (fun r hr => ?_) fun r hr r' hr' => ?_)
  · rw [hm, and_iff_left (hp r hr)]
  · exact hu r ((hm i r).mp hr).left r' ((hm i r').mp hr').left

theorem Wf.agrees (hw : h.Wf es) (hu : h.Unique es) : h.Agrees := by
  constructor
  case inst =>
    intro inst
    refine ⟨_, ?_, search_eq_find hw.list hw.length_lt⟩
    rw [findEntryInst, hw.search_eq hw.insts (fun _ => isInst_idx),
      search_eq_find hw.list hw.length_lt]
    intro r hr r' hr' hp hp'
    obtain ⟨e, he, hi, hl⟩ := isInst_iff.mp hp
    obtain ⟨e', he', hi', hl'⟩ := isInst_iff.mp hp'
    exact hu.inst r hr r' hr' e he e' he' hl hl' (hi.trans hi'.symm)
  case name =>
    intro name
    have hmap : ∀ o : Option (Option Ref × Option Ref), o.map (fun r => (r.2, h.nameSts name r.2)) =
        (o.map (·.2)).map fun e => (e, h.nameSts name e) := fun o => by cases o <;> rfl
    rw [findEntryName, findName, hmap, hmap, hw.search_eq hw.names (fun _ => isName_idx),
      search_eq_find hw.list hw.length_lt]
    · exact ⟨_, rfl, rfl⟩
    intro r hr r' hr' hp hp'
    obtain ⟨e, he, hl, hn⟩ := isName_iff.mp hp
    obtain ⟨e', he', hl', hn'⟩ := isName_iff.mp hp'
    exact hu.name r hr r' hr' e he e' he' hl hl' (hn.trans hn'.symm)

theorem Redone.unique (hd : Redone h es h') (hu : h.Unique es) :
    h'.Unique (es.filter (h.state · ≠ .empty)) := by
  have hm : ∀ {r e}, r ∈ es.filter (h.state · ≠ .empty) → e ∈ h'.entry r →
      r ∈ es ∧ e ∈ h.entry r := by
    intro r e hr he
    have hr' := mem_filter.mp hr
    rw [hd.entry r hr'.left, if_neg (by simpa using hr'.right)] at he
    exact ⟨hr'.left, he⟩
  constructor
  case inst =>
    intro r hr r' hr' e he e' he'
    exact hu.inst r (hm hr he).left r' (hm hr' he').left e (hm hr he).right e' (hm hr' he').right
  case name =>
    intro r hr r' hr' e he e' he'
    exact hu.name r (hm hr he).left r' (hm hr' he').left e (hm hr he).right e' (hm hr' he').right

theorem lookups_agree (h : Links) (es : List Ref) (hw : h.Wf es) (hu : h.Unique es)
    (resize : Bool) :
    h.Agrees ∧ ∃ h', h.redoHash resize = some h' ∧ h'.Agrees ∧ Redone h es h' := by
  obtain ⟨h', hr, hd⟩ := hw.redoHash resize
  exact ⟨hw.agrees hu, h', hr, hd.wf.agrees (hd.unique hu), hd⟩

def two (e₀ e₁ : Entry) : Links where
  first := some 0
  next := fun r => if r = 0 then some 1 else none
  ctlInst := Buckets.push (Buckets.push ⟨fun _ => none, fun _ => none⟩ (e₀.inst &&& 0xf) 0)
    (e₁.inst &&& 0xf) 1
  ctlName := Buckets.push (Buckets.push ⟨fun _ => none, fun _ => none⟩ (hashStr e₀.name &&& 0xf) 0)
    (hashStr e₁.name &&& 0xf) 1
  hsize := 16
  hbits := 0xf
  entry := fun r => [e₀, e₁][r]?
  brk := 2

theorem two_wf (e₀ e₁ : Entry) : (two e₀ e₁).Wf [0, 1] := by
  have hm : ∀ r : Ref, r ∈ [0, 1] ↔ r ∈ [1, 0] := by simp [or_comm]
  have hi := (Buckets.indexes_empty (two e₀ e₁).instIdx).push (r := 0) (by simp)
  have hn := (Buckets.indexes_empty (two e₀ e₁).nameIdx).push (r := 0) (by simp)
  constructor
  case list => simp [two]
  case alive => simp [two]
  case fresh => simp [two]
  case mask => exact (by decide : 0xf < 16)
  case insts => exact (hi.push (by simp)).of_mem hm
  case names => exact (hn.push (by simp)).of_mem hm

theorem two_unique {e₀ e₁ : Entry} (hi : e₀.inst ≠ e₁.inst) (hn : e₀.name.short ≠ e₁.name.short) :
    (two e₀ e₁).Unique [0, 1] := by
  constructor <;> simp [two, hi, hi.symm, hn, hn.symm]

def live (inst : Nat) (name : CStr) : Entry where
  ref := inst
  inst := inst
  name := name
  key := []
  state := .active
  priv := 0
  stamp := 0

def nameA : CStr where
  bytes := [97]
  noNul := by decide

def nameAB : CStr where
  bytes := [97, 32, 98]
  noNul := by decide

def nameAC : CStr where
  bytes := [97, 32, 99]
  noNul := by decide

def nameB : CStr where
  bytes := [98]
  noNul := by decide

theorem lookups_agree_two :
    ∃ h', (two (live 0 nameAB) (live 1 nameB)).redoHash true = some h' ∧ h'.Agrees := by
  obtain ⟨-, h', hr, ha, -⟩ := lookups_agree _ _ (two_wf (live 0 nameAB) (live 1 nameB))
    (two_unique (by decide) (by decide)) true
  exact ⟨h', hr, ha⟩

-- Two live entries that have the same name up to a space are found in different orders.
theorem lookups_disagree : (two (live 0 nameAB) (live 1 nameAC)).Wf [0, 1] ∧
    ¬(two (live 0 nameAB) (live 1 nameAC)).Agrees := by
  refine ⟨two_wf _ _, fun h => ?_⟩
  obtain ⟨o, ho, ho'⟩ := h.name nameA
  exact absurd (ho.trans ho'.symm) (by decide +kernel)

end Cache.Links
