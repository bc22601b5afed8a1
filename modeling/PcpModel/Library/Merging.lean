import Mathlib.Data.List.Basic
import Mathlib.Data.List.Flatten
import Mathlib.Order.Lattice

-- In each step of a merge, the least of the first elements is taken away, the first of several.
namespace Merging

open List

variable {ι τ κ : Type*} [LinearOrder ι] [LinearOrder κ] (key : τ → κ)

def Before (p q : ι × τ) : Prop :=
  key p.2 < key q.2 ∨ key p.2 = key q.2 ∧ p.1 ≤ q.1

def IsLeast (f : ι → List τ) (p : ι × τ) : Prop :=
  ∀ j y, (f j).head? = some y → Before key p (j, y)

structure Takes (f : ι → List τ) (i : ι) (x : τ) (g : ι → List τ) : Prop where
  head : f i = x :: g i
  rest : ∀ j, j ≠ i → g j = f j
  least : IsLeast key f (i, x)

inductive Path : (ι → List τ) → List (ι × τ) → (ι → List τ) → Prop
  | refl : Path f [] f
  | snoc : Path f l g → Takes key g i x h → Path f (l ++ [(i, x)]) h

def Sorted (f : ι → List τ) : Prop :=
  ∀ i, (f i).Pairwise (key · ≤ key ·)

def taken (l : List (ι × τ)) (i : ι) : List τ :=
  (l.filter (·.1 = i)).map Prod.snd

variable {key} {f g h : ι → List τ} {l l' : List (ι × τ)} {i : ι} {x y : τ}

theorem taken_append : taken (l ++ l') i = taken l i ++ taken l' i := by
  simp [taken]

theorem mem_taken : x ∈ taken l i ↔ (i, x) ∈ l := by
  simp [taken]

theorem flatMap_taken_perm {is : List ι} (hn : is.Nodup) (hl : ∀ p ∈ l, p.1 ∈ is) :
    (is.flatMap (taken l)).Perm (l.map Prod.snd) := by
  induction is generalizing l
  case nil =>
    obtain rfl : l = [] := eq_nil_iff_forall_not_mem.mpr fun p hp => not_mem_nil (hl p hp)
    rfl
  case cons i is ih =>
    obtain ⟨hi, hn⟩ := nodup_cons.mp hn
    have ht : ∀ j ∈ is, taken l j = taken (l.filter (¬·.1 = i)) j := by
      intro j hj
      have hij : j ≠ i := by
        rintro rfl
        exact hi hj
      have hp : ∀ p ∈ l, decide (p.1 = j) = (decide (p.1 = j) && decide ¬p.1 = i) := by
        intro p _
        by_cases h : p.1 = j <;> simp [h, hij]
      rw [taken, taken, filter_filter, filter_congr hp]
    have hl : ∀ p ∈ l.filter (¬·.1 = i), p.1 ∈ is := by
      intro p hp
      obtain ⟨hp, hi⟩ := mem_filter.mp hp
      exact (mem_cons.mp (hl p hp)).resolve_left (by simpa using hi)
    calc taken l i ++ is.flatMap (taken l)
      _ = taken l i ++ is.flatMap (taken (l.filter (¬·.1 = i))) := by rw [flatMap_congr ht]
      _ |>.Perm (taken l i ++ (l.filter (¬·.1 = i)).map Prod.snd) := (ih hn hl).append_left _
      _ |>.Perm (l.map Prod.snd) := by
        rw [taken, ← map_append]
        simpa using (filter_append_perm (·.1 = i) l).map Prod.snd

theorem Before.key_le {q : ι × τ} (h : Before key p q) : key p.2 ≤ key q.2 := by
  obtain h | ⟨h, -⟩ := h
  · exact h.le
  · exact h.le

theorem IsLeast.before (hp : IsLeast key f p) (h : Sorted key f) (j : ι)
    (hy : y ∈ f j) :
    Before key p (j, y) := by
  cases hf : f j
  case nil => simp [hf] at hy
  case cons z l =>
    have hz := hp j z (by simp [hf])
    have hs := h j
    rw [hf] at hy hs
    obtain rfl | hy := mem_cons.mp hy
    · exact hz
    · have hle : key z ≤ key y := rel_of_pairwise_cons hs hy
      obtain hz | ⟨hz, hi⟩ := hz
      · exact .inl (hz.trans_le hle)
      · exact (hz.le.trans hle).lt_or_eq.imp_right fun he => ⟨he, hi⟩

namespace Takes

variable (t : Takes key f i x g)
include t

theorem subset (j : ι) (h : y ∈ g j) : y ∈ f j := by
  by_cases hj : j = i
  · subst hj
    rw [t.head]
    exact mem_cons_of_mem _ h
  · rwa [← t.rest j hj]

theorem sorted (h : Sorted key f) : Sorted key g := by
  intro j
  by_cases hj : j = i
  · subst hj
    exact (t.head ▸ h j).of_cons
  · exact t.rest j hj ▸ h j

end Takes

namespace Path

theorem sorted (p : Path key f l g) (h : Sorted key f) : Sorted key g := by
  induction p
  case refl => exact h
  case snoc t ih => exact t.sorted ih

theorem taken_append_rest (p : Path key f l g) (i : ι) : taken l i ++ g i = f i := by
  induction p
  case refl => rfl
  case snoc j x _ _ t ih =>
    rw [← ih, taken_append]
    by_cases hj : j = i
    · subst hj
      simp [taken, t.head]
    · simp [taken, hj, t.rest i (Ne.symm hj)]

theorem mem_of_mem (p : Path key f l g) (h : q ∈ l) : q.2 ∈ f q.1 := by
  rw [← p.taken_append_rest q.1]
  exact mem_append_left _ (mem_taken.mpr h)

theorem length_le (p : Path key f l g) {is : List ι} (hn : is.Nodup) (hf : ∀ i, f i ≠ [] → i ∈ is) :
    l.length ≤ (is.flatMap f).length := by
  have hl : ∀ q ∈ l, q.1 ∈ is := fun q hq => hf q.1 (ne_nil_of_mem (p.mem_of_mem hq))
  have ht : ∀ i ∈ is, (taken l i).Sublist (f i) := by
    intro i hi
    rw [← p.taken_append_rest i]
    exact sublist_append_left ..
  calc l.length
    _ = (is.flatMap (taken l)).length := by simp [(flatMap_taken_perm hn hl).length_eq]
    _ ≤ (is.flatMap f).length := (Sublist.flatMap_right is ht).length_le

theorem rest_subset (p : Path key f l g) (i : ι) (h : y ∈ g i) : y ∈ f i := by
  rw [← p.taken_append_rest i]
  exact mem_append_right _ h

theorem before_rest (p : Path key f l g) (h : Sorted key f) :
    ∀ q ∈ l, ∀ j, ∀ y ∈ g j, Before key q (j, y) := by
  induction p
  case refl => nofun
  case snoc p t ih =>
    intro q hq j y hy
    obtain hq | rfl := mem_append.mp hq |>.imp_right mem_singleton.mp
    · exact ih q hq j y (t.subset j hy)
    · exact t.least.before (p.sorted h) j (t.subset j hy)

theorem ordered (p : Path key f l g) (h : Sorted key f) : l.Pairwise (Before key) := by
  induction p
  case refl => exact .nil
  case snoc i x _ p t ih =>
    refine pairwise_append.mpr ⟨ih, pairwise_singleton .., fun q hq r hr => ?_⟩
    obtain rfl := mem_singleton.mp hr
    exact p.before_rest h q hq i x (by simp [t.head])

end Path

end Merging
