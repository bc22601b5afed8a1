import Mathlib.Data.List.Perm.Subperm
import PcpModel.Library.Linked

-- Chains of cells that are linked into the buckets of a table.
namespace Linked

open List Function

structure Buckets (ρ : Type) where
  next : ρ → Option ρ
  head : Nat → Option ρ

namespace Buckets

variable {ρ : Type} [DecidableEq ρ] {b : Buckets ρ} {f : Nat → List ρ} {r : ρ} {rs : List ρ}

def Holds (b : Buckets ρ) (f : Nat → List ρ) : Prop :=
  ∀ i, IsList b.next (b.head i) (f i)

-- `r->next = head[k]; head[k] = r`
def push (b : Buckets ρ) (k : Nat) (r : ρ) : Buckets ρ where
  next := Function.update b.next r (b.head k)
  head := Function.update b.head k (some r)

theorem Holds.push (h : b.Holds f) (hr : ∀ i, r ∉ f i) (k : Nat) :
    (b.push k r).Holds (update f k (r :: f k)) := by
  intro i
  by_cases hi : i = k
  case neg =>
    simp only [Buckets.push, update_of_ne hi]
    exact (h i).update_of_notMem (hr i) _
  case pos =>
    subst hi
    simp only [Buckets.push, update_self, seg_cons, true_and]
    exact (h i).update_of_notMem (hr i) _

-- Moves the cells of a chain to the buckets of a table that shares the link field with it.
def move (idx : ρ → Nat) : Nat → Option ρ → Buckets ρ → Option (Buckets ρ)
  | 0, _, _ => none
  | _ + 1, none, b => some b
  | n + 1, some r, b => move idx n (b.next r) (b.push (idx r) r)

def moveAll (idx : ρ → Nat) (n : Nat) (old : Nat → Option ρ) :
    List Nat → Buckets ρ → Option (Buckets ρ)
  | [], b => some b
  | i :: is, b => (move idx n (old i) b).bind (moveAll idx n old is)

section Moved

omit [DecidableEq ρ]

variable (idx : ρ → Nat)

def moved (rs : List ρ) (f : Nat → List ρ) : Nat → List ρ := fun i =>
  (rs.filter (idx · = i)).reverse ++ f i

theorem moved_cons :
    moved idx (r :: rs) f = moved idx rs (update f (idx r) (r :: f (idx r))) := by
  funext i
  by_cases hi : idx r = i
  case pos =>
    subst hi
    simp [moved]
  case neg => simp [moved, hi, update_of_ne (Ne.symm hi)]

theorem moved_append : moved idx (rs ++ rs') f = moved idx rs' (moved idx rs f) := by
  funext i
  simp [moved]

theorem mem_moved : r ∈ moved idx rs f i ↔ (r ∈ rs ∧ idx r = i) ∨ r ∈ f i := by
  simp [moved]

end Moved

theorem move_eq (idx : ρ → Nat) (hb : b.Holds f) (hl : IsList b.next o rs)
    (hd : ∀ r ∈ rs, ∀ i, r ∉ f i) (hn : rs.length < n) :
    ∃ b', move idx n o b = some b' ∧ b'.Holds (moved idx rs f) ∧
      ∀ r ∉ rs, b'.next r = b.next r := by
  induction rs generalizing n o b f
  case nil =>
    obtain ⟨n, rfl⟩ := Nat.exists_eq_add_one.mpr hn
    obtain rfl := seg_nil.mp hl
    exact ⟨b, rfl, hb, fun _ _ => rfl⟩
  case cons r rs ih =>
    obtain ⟨n, rfl⟩ := Nat.exists_eq_add_one.mpr (Nat.zero_lt_of_lt hn)
    have hr : r ∉ rs := (nodup_cons.mp hl.nodup).left
    obtain ⟨rfl, hs⟩ := hl
    have hd' : ∀ r' ∈ rs, ∀ i, r' ∉ update f (idx r) (r :: f (idx r)) i := by
      intro r' hr' i
      by_cases hi : i = idx r
      case pos =>
        subst hi
        simpa using ⟨ne_of_mem_of_not_mem hr' hr, hd r' (by simp [hr']) (idx r)⟩
      case neg =>
        rw [update_of_ne hi]
        exact hd r' (by simp [hr']) i
    obtain ⟨b', hm, hh, hx⟩ := ih (hb.push (hd r (by simp)) (idx r)) (hs.update_of_notMem hr _) hd'
      (Nat.lt_of_succ_lt_succ hn)
    refine ⟨b', hm, moved_cons idx ▸ hh, fun r' hr' => ?_⟩
    rw [mem_cons, not_or] at hr'
    rw [hx r' hr'.right]
    exact update_of_ne hr'.left _ _

theorem moveAll_eq (idx : ρ → Nat) {old : Nat → Option ρ} {g : Nat → List ρ} (hb : b.Holds f)
    (hl : ∀ i ∈ is, IsList b.next (old i) (g i)) (hu : (is.flatMap g).Nodup)
    (hd : ∀ r ∈ is.flatMap g, ∀ i, r ∉ f i) (hn : (is.flatMap g).length < n) :
    ∃ b', moveAll idx n old is b = some b' ∧ b'.Holds (moved idx (is.flatMap g) f) := by
  induction is generalizing b f
  case nil => exact ⟨b, rfl, hb⟩
  case cons i is ih =>
    rw [flatMap_cons] at hu hd hn
    rw [length_append] at hn
    have hdis := disjoint_of_nodup_append hu
    obtain ⟨b₁, hm, hh, hx⟩ := move_eq idx hb (hl i (by simp))
      (fun r hr => hd r (mem_append_left _ hr)) (show (g i).length < n by omega)
    have hl₁ : ∀ j ∈ is, IsList b₁.next (old j) (g j) := by
      refine fun j hj => (hl j (by simp [hj])).congr fun r hr => hx r fun hr' => ?_
      exact hdis hr' (mem_flatMap_of_mem hj hr)
    have hd₁ : ∀ r ∈ is.flatMap g, ∀ k, r ∉ moved idx (g i) f k := by
      intro r hr k
      rw [mem_moved, not_or]
      exact ⟨fun hr' => hdis hr'.left hr, hd r (mem_append_right _ hr) k⟩
    obtain ⟨b', hm', hh'⟩ := ih hh hl₁ (Nodup.of_append_right hu) hd₁ (by omega)
    refine ⟨b', ?_, ?_⟩
    · rw [moveAll, hm, Option.bind_some, hm']
    · rw [flatMap_cons, moved_append]
      exact hh'

section Indexes

variable {idx : ρ → Nat} {es : List ρ}

-- The buckets hold the cells of a list, each one in the bucket that its index says.
def Indexes (b : Buckets ρ) (idx : ρ → Nat) (es : List ρ) : Prop :=
  ∃ f, b.Holds f ∧ ∀ i r, r ∈ f i ↔ r ∈ es ∧ idx r = i

omit [DecidableEq ρ] in
theorem Indexes.congr {idx' : ρ → Nat} (h : b.Indexes idx es) (hi : ∀ r ∈ es, idx' r = idx r) :
    b.Indexes idx' es := by
  obtain ⟨f, hf, hm⟩ := h
  refine ⟨f, hf, fun i r => (hm i r).trans (and_congr_right fun hr => ?_)⟩
  rw [hi r hr]

omit [DecidableEq ρ] in
theorem indexes_empty (idx : ρ → Nat) : Indexes ⟨fun _ => none, fun _ => none⟩ idx [] :=
  ⟨fun _ => [], fun _ => rfl, by simp⟩

theorem Indexes.push (h : b.Indexes idx es) (hr : r ∉ es) :
    (b.push (idx r) r).Indexes idx (r :: es) := by
  obtain ⟨f, hf, hm⟩ := h
  refine ⟨_, hf.push (fun i hi => hr ((hm i r).mp hi).left) (idx r), fun i r' => ?_⟩
  by_cases hi : i = idx r
  case pos =>
    subst hi
    rw [update_self, mem_cons, hm, mem_cons, or_and_right]
    exact or_congr_left ⟨fun h => ⟨h, h ▸ rfl⟩, fun h => h.left⟩
  case neg =>
    rw [update_of_ne hi, hm, mem_cons, or_and_right]
    refine (or_iff_right fun h => hi ?_).symm
    rw [← h.right, h.left]

omit [DecidableEq ρ] in
theorem Indexes.of_mem {es' : List ρ} (h : b.Indexes idx es) (he : ∀ r, r ∈ es' ↔ r ∈ es) :
    b.Indexes idx es' := by
  obtain ⟨f, hf, hm⟩ := h
  exact ⟨f, hf, fun i r => by rw [hm, he]⟩

theorem Indexes.moveAll (h : b.Indexes idx es) (idx' : ρ → Nat) (hk : ks.Nodup)
    (hi : ∀ r ∈ es, idx r ∈ ks) (hn : es.length < n) :
    ∃ b', Buckets.moveAll idx' n b.head ks { b with head := fun _ => none } = some b' ∧
      b'.Indexes idx' es := by
  obtain ⟨f, hf, hm⟩ := h
  have hmem : ∀ r, r ∈ ks.flatMap f ↔ r ∈ es := by
    intro r
    rw [mem_flatMap]
    constructor
    case mp => exact fun ⟨i, _, hr⟩ => ((hm i r).mp hr).left
    case mpr => exact fun hr => ⟨idx r, hi r hr, (hm _ r).mpr ⟨hr, rfl⟩⟩
  have hu : (ks.flatMap f).Nodup := by
    rw [nodup_flatMap]
    refine ⟨fun i _ => (hf i).nodup, hk.imp fun {i j} hij r hr hr' => hij ?_⟩
    exact ((hm i r).mp hr).right.symm.trans ((hm j r).mp hr').right
  have hl : (ks.flatMap f).length < n := by
    have := (hu.subperm fun r hr => (hmem r).mp hr).length_le
    omega
  obtain ⟨b', hb, hh⟩ := moveAll_eq idx' (b := { b with head := fun _ => none })
    (f := fun _ => []) (fun _ => rfl) (fun i _ => hf i) hu (by simp) hl
  refine ⟨b', hb, _, hh, fun i r => ?_⟩
  rw [mem_moved, hmem]
  simp

end Indexes

-- Sets the link that leads to the cell after `prior` in a bucket.
def setLink (b : Buckets ρ) (k : Nat) (o : Option ρ) : Option ρ → Buckets ρ
  | none => { b with head := Function.update b.head k o }
  | some p => { b with next := Function.update b.next p o }

-- No cell is in two buckets.
def Disjoint (f : Nat → List ρ) : Prop :=
  ∀ i j r, r ∈ f i → r ∈ f j → i = j

theorem Holds.unlink (h : b.Holds f) (hd : Disjoint f) (hk : f k = rs₁ ++ r :: rs₂) :
    (b.setLink k (b.next r) rs₁.getLast?).Holds (update f k (rs₁ ++ rs₂)) := by
  intro i
  have hs := h k
  rw [hk] at hs
  rcases rs₁.eq_nil_or_concat with rfl | ⟨rs, p, rfl⟩
  case inl =>
    by_cases hi : i = k
    case pos =>
      subst hi
      simpa [setLink] using hs.right
    case neg =>
      simp only [setLink, getLast?_nil, update_of_ne hi]
      exact h i
  case inr =>
    rw [concat_eq_append] at *
    by_cases hi : i = k
    case pos =>
      subst hi
      rw [append_assoc] at hs
      simpa [setLink] using hs.unlink
    case neg =>
      simp only [getLast?_append, getLast?_singleton,
        update_of_ne hi]
      refine (h i).update_of_notMem (fun hp => hi ?_) _
      exact hd i k p hp (by simp [hk])

end Buckets

end Linked
