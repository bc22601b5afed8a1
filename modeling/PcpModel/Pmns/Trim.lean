import Mathlib.Data.List.Induction

-- Trimming of a name space that has been loaded by an explicit call (pmns.c).
namespace Pmns

open List

-- The path of a metric and its pmid without the mark bit.
abbrev Leaf := List String × Nat

structure Tree where
  nodes : List (List String)
  htab : List (List Leaf)
  markState : Option Bool
  marked : List String → Bool

namespace Tree

variable (t : Tree)

def leaves : List Leaf :=
  t.htab.flatten

-- Changes the bits on the path from a leaf to the root.
def mark (bit : Bool) (e : Leaf) : Tree :=
  { t with marked := fun p => if p <+: e.1 then bit else t.marked p }

def markAll (bit : Bool) : Tree :=
  if t.markState = some bit then
    t
  else
    t.leaves.foldl (·.mark bit ·) { t with markState := some bit }

def lookup (pmid : Nat) : Option Leaf :=
  (t.htab.getD (pmid % t.htab.length) []).find? (·.2 = pmid)

-- Only the first metric with the pmid is changed.
def markOne (bit : Bool) (pmid : Nat) : Tree :=
  if t.markState = some bit then
    t
  else
    let t := { t with markState := none }
    (t.lookup pmid).elim t (t.mark bit)

-- `archive` has the metrics of the archive, if the context is an archive.
def trim (archive : Option (List Nat)) : Tree :=
  match archive with
  | none => t.markAll false
  | some pmids => pmids.foldl (·.markOne false ·) (t.markAll true)

-- The children of a node that are found by locate and listed by pmGetChildrenStatus.
def isChild (p : List String) (c : String) : Bool :=
  p ++ [c] ∈ t.nodes && !t.marked (p ++ [c])

def locate (p : List String) : List String → Bool
  | [] => true
  | c :: cs => t.isChild p c && locate (p ++ [c]) cs

-- The paths that lead to one of some metrics.
def above (l : List Leaf) (p : List String) : Bool :=
  l.any (p <+: ·.1)

-- Nodes without a metric below them have PM_ID_NULL, which includes the mark bit.
structure Loaded : Prop where
  nodes : ∀ p ≠ [], above t.leaves p → p ∈ t.nodes
  root : [] ∉ t.nodes
  hashed : ∀ e ∈ t.leaves, e ∈ t.htab.getD (e.2 % t.htab.length) []
  apart : ∀ e ∈ t.leaves, ∀ e' ∈ t.leaves, e.1 <+: e'.1 → e = e'
  named : ∀ e ∈ t.leaves, e.1 ≠ []
  state : t.markState = some false
  marked : ∀ p, t.marked p = !above t.leaves p

structure Inv (t' : Tree) : Prop where
  nodes : t'.nodes = t.nodes
  htab : t'.htab = t.htab
  off : ∀ p, above t.leaves p = false → t'.marked p = true
  on : ∀ b ∈ t'.markState, ∀ p, above t.leaves p → t'.marked p = b

variable {t t' : Tree} {l : List Leaf}

theorem above_iff : above l p ↔ ∃ e ∈ l, p <+: e.1 := by
  simp [above]

theorem above_cons : above (e :: l) p = (decide (p <+: e.1) || above l p) :=
  rfl

theorem foldl_mark : l.foldl (·.mark bit ·) t =
    { t with marked := fun p => if above l p then bit else t.marked p } := by
  induction l generalizing t
  case nil => simp [above]
  case cons e l hi =>
    rw [foldl_cons, hi]
    refine congrArg (fun m => { t with marked := m }) (funext fun p => ?_)
    by_cases hp : p <+: e.1 <;> simp [mark, above_cons, hp]

theorem Inv.markAll (h : t.Inv t') (bit : Bool) :
    t.Inv (t'.markAll bit) ∧ (t'.markAll bit).markState = some bit := by
  have hl : t'.leaves = t.leaves := by rw [leaves, h.htab, leaves]
  rw [Tree.markAll]
  split
  case isTrue hs => exact ⟨h, hs⟩
  case isFalse =>
    rw [foldl_mark, hl]
    refine ⟨⟨h.nodes, h.htab, fun p hp => ?_, fun b hb p hp => ?_⟩, rfl⟩
    · simp [hp, h.off p hp]
    · cases hb
      simp [hp]

theorem markOne_eq (h : t.markState ≠ some false) (pmid : Nat) :
    t.markOne false pmid = { t with
      markState := none
      marked := fun p => t.marked p && !above (t.lookup pmid).toList p } := by
  rw [markOne, if_neg h]
  have hl : lookup { t with markState := none } pmid = t.lookup pmid := rfl
  simp only [hl]
  cases t.lookup pmid
  case none => simp [above]
  case some e =>
    simp only [Option.elim, mark, above, Option.toList]
    congr
    funext p
    by_cases hp : p <+: e.1 <;> simp [hp]

theorem foldl_markOne (h : t.markState ≠ some false) (pmids : List Nat) :
    pmids.foldl (·.markOne false ·) t = { t with
      markState := if pmids = [] then t.markState else none
      marked := fun p => t.marked p && !above (pmids.filterMap t.lookup) p } := by
  induction pmids generalizing t
  case nil => simp [above]
  case cons pmid pmids hi =>
    rw [foldl_cons, markOne_eq h, hi (by simp)]
    simp only [ite_self, reduceCtorEq, if_false, Bool.and_assoc, ← Bool.not_or]
    refine congrArg (fun m => { t with markState := none, marked := m }) (funext fun p => ?_)
    change (t.marked p &&
      !(above (t.lookup pmid).toList p || above (pmids.filterMap t.lookup) p)) = _
    cases he : t.lookup pmid <;> simp [above, he]

theorem Inv.lookup (h : t.Inv t') : t'.lookup = t.lookup := by
  funext pmid
  rw [Tree.lookup, h.htab, Tree.lookup]

theorem mem_lookup {pmids : List Nat} (h : e ∈ pmids.filterMap t.lookup) :
    e ∈ t.leaves ∧ e.2 ∈ pmids ∧ t.lookup e.2 = some e := by
  obtain ⟨pmid, hp, he⟩ := mem_filterMap.mp h
  have hb := mem_of_find?_eq_some he
  cases hg : t.htab[pmid % t.htab.length]?
  case none => simp [hg] at hb
  case some b =>
    have hb : e ∈ b := by simpa [hg] using hb
    have hs : e.2 = pmid := by simpa using find?_some he
    exact ⟨mem_flatten.mpr ⟨b, mem_of_getElem? hg, hb⟩, hs ▸ hp, hs ▸ he⟩

theorem above_lookup {pmids : List Nat} (h : above (pmids.filterMap t.lookup) p) :
    above t.leaves p := by
  obtain ⟨e, he, hp⟩ := above_iff.mp h
  exact above_iff.mpr ⟨e, (mem_lookup he).left, hp⟩

-- Which nodes are not marked after trimming.
theorem Inv.trim (h : t.Inv t') (archive : Option (List Nat)) : t.Inv (t'.trim archive) ∧
    ∀ p, (t'.trim archive).marked p =
      !above (archive.elim t.leaves (·.filterMap t.lookup)) p := by
  cases archive
  case none =>
    obtain ⟨hi, hs⟩ := h.markAll false
    refine ⟨hi, fun p => ?_⟩
    cases hp : above t.leaves p
    · exact (hi.off p hp).trans (by simp [hp])
    · exact (hi.on false hs p hp).trans (by simp [hp])
  case some pmids =>
    obtain ⟨hi, hs⟩ := h.markAll true
    have hm (p : List String) : (t'.markAll true).marked p = true := by
      cases hp : above t.leaves p
      · exact hi.off p hp
      · exact hi.on true hs p hp
    rw [Tree.trim, foldl_markOne (by simp [hs])]
    simp only [hm, hi.lookup, hs, Bool.true_and]
    refine ⟨⟨hi.nodes, hi.htab, fun p hp => ?_, fun b hb p hp => ?_⟩, fun p => rfl⟩
    · simpa using mt above_lookup (by simp [hp])
    · cases pmids <;> simp at hb
      subst hb
      rfl

theorem Loaded.inv (h : t.Loaded) (history : List (Option (List Nat))) :
    t.Inv (history.foldl Tree.trim t) := by
  induction history using reverseRecOn
  case nil =>
    refine ⟨rfl, rfl, fun p hp => by simp [h.marked, hp], fun b hb p hp => ?_⟩
    cases h.state.symm.trans hb
    simp [h.marked, hp]
  case append_singleton l a hi => simpa using (hi.trim a).left

-- What is found, if the nodes that are shown are the ones on the paths of some metrics.
theorem locate_iff (hn : ∀ p ≠ [], above l p → p ∈ t.nodes) (hm : ∀ p, t.marked p = !above l p) :
    t.locate q p ↔ p = [] ∨ above l (q ++ p) := by
  induction p generalizing q
  case nil => simp [locate]
  case cons c cs hi =>
    have hc : q ++ [c] ++ cs = q ++ c :: cs := by simp
    have hl (h : above l (q ++ c :: cs)) : above l (q ++ [c]) := by
      obtain ⟨e, he, hp⟩ := above_iff.mp h
      exact above_iff.mpr ⟨e, he, (hc ▸ prefix_append ..).trans hp⟩
    simp only [locate, isChild, Bool.and_eq_true, decide_eq_true_eq, hm, Bool.not_not, hi, hc,
      reduceCtorEq, false_or]
    constructor
    · rintro ⟨⟨-, h⟩, rfl | h'⟩
      exacts [h, h']
    · intro h
      exact ⟨⟨hn _ (by simp) (hl h), hl h⟩, .inr h⟩

theorem Loaded.locate_trim (h : t.Loaded) (hi : t.Inv t') (archive : Option (List Nat))
    (hp : p ≠ []) : (t'.trim archive).locate [] p ↔
      above (archive.elim t.leaves (·.filterMap t.lookup)) p := by
  obtain ⟨hi, hm⟩ := hi.trim archive
  refine (locate_iff (fun q hq ha => hi.nodes ▸ h.nodes q hq ?_) hm).trans (by simp [hp])
  cases archive
  exacts [ha, above_lookup ha]

theorem Loaded.lookup (h : t.Loaded) (he : e ∈ t.leaves) : ∃ e' ∈ t.lookup e.2, e'.2 = e.2 := by
  have hs : (t.lookup e.2).isSome := find?_isSome.mpr ⟨e, h.hashed e he, decide_eq_true rfl⟩
  obtain ⟨e', hl⟩ := Option.isSome_iff_exists.mp hs
  exact ⟨e', hl, by simpa using find?_some hl⟩

-- Names without a metric are never found, and only one of the names of a metric.
theorem trim_exact (h : t.Loaded) (history : List (Option (List Nat))) (pmids : List Nat) :
    ((∀ p ≠ [], ((history.foldl Tree.trim t).trim none).locate [] p ↔ p ∈ t.nodes) ↔
      ∀ p ∈ t.nodes, ∃ e ∈ t.leaves, p <+: e.1) ∧
    ((∀ p ≠ [], ((history.foldl Tree.trim t).trim (some pmids)).locate [] p ↔
      ∃ e ∈ t.leaves, e.2 ∈ pmids ∧ p <+: e.1) ↔
      ∀ e ∈ t.leaves, ∀ e' ∈ t.leaves, e.2 ∈ pmids → e.2 = e'.2 → e = e') := by
  have hi := h.inv history
  constructor
  · constructor
    · intro hl p hp
      have hp' : p ≠ [] := fun hn => h.root (hn ▸ hp)
      exact above_iff.mp ((h.locate_trim hi none hp').mp ((hl p hp').mpr hp))
    · intro ha p hp
      exact (h.locate_trim hi none hp).trans ⟨h.nodes p hp, fun hn => above_iff.mpr (ha p hn)⟩
  · constructor
    · intro hl e he e' he' hp hq
      -- A metric that is found is the first one with its pmid.
      have hf (e) (he : e ∈ t.leaves) (hp : e.2 ∈ pmids) : t.lookup e.2 = some e := by
        have hl := (hl e.1 (h.named e he)).mpr ⟨e, he, hp, prefix_rfl⟩
        rw [h.locate_trim hi _ (h.named e he)] at hl
        obtain ⟨e₁, he₁, hp₁⟩ := above_iff.mp hl
        obtain ⟨hm, -, hs⟩ := mem_lookup he₁
        exact h.apart e he e₁ hm hp₁ ▸ hs
      exact Option.some.inj ((hf e he hp).symm.trans (hq ▸ hf e' he' (hq ▸ hp)))
    · intro hu p hp
      rw [h.locate_trim hi _ hp, above_iff]
      constructor
      · rintro ⟨e, he, hp⟩
        obtain ⟨hm, hs, -⟩ := mem_lookup he
        exact ⟨e, hm, hs, hp⟩
      · rintro ⟨e, he, hs, hp⟩
        obtain ⟨e', hl, hq⟩ := h.lookup he
        have hm := mem_filterMap.mpr ⟨e.2, hs, hl⟩
        cases hu e he e' (mem_lookup hm).left hs hq.symm
        exact ⟨e, hm, hp⟩

def twins (pmid : Nat) : Tree where
  nodes := [["a"], ["b"]]
  htab := [[(["b"], pmid), (["a"], 1)]]
  markState := some false
  marked p := !above [(["b"], pmid), (["a"], 1)] p

theorem twins_loaded : (twins pmid).Loaded where
  nodes p hp ha := by
    obtain ⟨e, he, hp'⟩ := above_iff.mp ha
    rcases (by simpa [twins, leaves] using he : e = (["b"], pmid) ∨ e = (["a"], 1)) with rfl | rfl
    all_goals simp_all [twins, prefix_cons_iff]
  root := by simp [twins]
  hashed := by simp [twins, leaves, Nat.mod_one]
  apart := by simp [twins, leaves, prefix_cons_iff]
  named := by simp [twins, leaves]
  state := rfl
  marked _ := rfl

theorem trim_exact_twins :
    (twins 2).Loaded ∧ ∀ p ≠ [], (((twins 2).trim none).trim (some [2])).locate [] p ↔
      ∃ e ∈ (twins 2).leaves, e.2 ∈ [2] ∧ p <+: e.1 :=
  ⟨twins_loaded, (trim_exact twins_loaded [none] [2]).right.mpr (by decide +kernel)⟩

theorem trim_hides_alias : (twins 1).Loaded ∧ (["a"], 1) ∈ (twins 1).leaves ∧
    ((twins 1).trim (some [1])).locate [] ["a"] = false :=
  ⟨twins_loaded, by decide +kernel, by decide +kernel⟩

end Tree

end Pmns
