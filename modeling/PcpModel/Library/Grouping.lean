import Mathlib.Data.List.TakeWhile

-- Lists in which the elements of one key stand together.
namespace Grouping

open List

variable {τ κ : Type*} [DecidableEq κ]

def Grouped : List κ → Prop
  | [] => True
  | k :: ks => k ∉ ks.dropWhile (· = k) ∧ Grouped ks

-- A key is added after the first one that is equal, or at the end.
def add (d : κ) : List κ → List κ
  | [] => [d]
  | k :: ks => if k = d then k :: d :: ks else k :: add d ks

def block (key : τ → κ) (d : κ) (l : List τ) : List τ :=
  (l.dropWhile (key · ≠ d)).takeWhile (key · = d)

variable {ks : List κ} {d k : κ}

theorem mem_add : k ∈ add d ks ↔ k = d ∨ k ∈ ks := by
  induction ks
  case nil => simp [add]
  case cons k' ks ih =>
    unfold add
    split
    case isTrue h => grind
    case isFalse => simp [ih, or_left_comm]

theorem dropWhile_add (h : k ≠ d) :
    (add d ks).dropWhile (· = k) = add d (ks.dropWhile (· = k)) := by
  induction ks
  case nil => simp [add, h.symm]
  case cons k' ks ih =>
    by_cases hk : k' = k
    · simp [add, hk, h, ih]
    · by_cases hd : k' = d
      · simp [add, hd, h.symm]
      · simp [add, hk, hd]

theorem Grouped.add (h : Grouped ks) : Grouped (add d ks) := by
  induction ks
  case nil => exact ⟨not_mem_nil, trivial⟩
  case cons k ks ih =>
    unfold Grouping.add
    split
    case isTrue hk =>
      subst hk
      exact ⟨by simpa using h.left, h⟩
    case isFalse hk =>
      refine ⟨?_, ih h.right⟩
      rw [dropWhile_add hk, mem_add, not_or]
      exact ⟨hk, h.left⟩

-- No element of the key is missed.
theorem block_eq_filter {key : τ → κ} {l : List τ} (h : Grouped (l.map key)) (d : κ) :
    block key d l = l.filter (key · = d) := by
  induction l
  case nil => rfl
  case cons x l ih =>
    by_cases hx : key x = d
    · subst hx
      have hd : ∀ y ∈ l.dropWhile (key · = key x), ¬key y = key x := by
        intro y hy he
        refine h.left ?_
        rw [dropWhile_map, ← he]
        exact mem_map_of_mem (by rwa [← he] at hy)
      have hs := takeWhile_append_dropWhile (p := (key · = key x)) (l := l)
      have ht : l.filter (key · = key x) = l.takeWhile (key · = key x) := by
        have ht : ∀ y ∈ l.takeWhile (key · = key x), key y = key x := fun y hy => by
          simpa using mem_takeWhile_imp hy
        have hf := congrArg (filter (key · = key x)) hs
        rw [filter_append, filter_eq_self.mpr (by simpa using ht),
          filter_eq_nil_iff.mpr (by simpa using hd), append_nil] at hf
        exact hf.symm
      simp [block, ht]
    · simpa [block, hx] using ih h.right

end Grouping
