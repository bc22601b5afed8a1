import Mathlib.Data.List.Basic
import Mathlib.Data.List.Induction
import Mathlib.Order.Lattice

-- What is in effect at a time: the last one of the latest elements that are not later.
namespace Latest

open List

variable {τ κ : Type*} [LinearOrder κ] (key : τ → κ)

def better (t : κ) (b : Option τ) (x : τ) : Option τ :=
  match b with
  | none => if key x ≤ t then some x else none
  | some y => if key x ≤ t ∧ key y ≤ key x then some x else some y

def latest (t : κ) (l : List τ) : Option τ :=
  l.foldl (better key t) none

variable {key} {t t' : κ} {l : List τ} {x y : τ} {b : Option τ}

theorem better_eq_none : better key t b x = none ↔ b = none ∧ t < key x := by
  cases b
  case none => simp [better]
  case some y => by_cases h : key x ≤ t ∧ key y ≤ key x <;> simp [better, h]

theorem better_eq_some (h : better key t b x = some y) : y = x ∧ key x ≤ t ∨ b = some y := by
  cases b <;> grind [better]

theorem better_congr (h : key x ≤ t ↔ key x ≤ t') : better key t b x = better key t' b x := by
  cases b <;> simp [better, h]

theorem latest_concat : latest key t (l ++ [x]) = better key t (latest key t l) x := by
  simp [latest]

theorem latest_congr (h : ∀ x ∈ l, key x ≤ t ↔ key x ≤ t') : latest key t l = latest key t' l :=
  foldl_ext _ _ _ fun _ x hx => better_congr (h x hx)

theorem lt_of_latest_none (h : latest key t l = none) : ∀ x ∈ l, t < key x := by
  induction l using reverseRecOn
  case nil => nofun
  case append_singleton l y ih =>
    obtain ⟨hl, hy⟩ := better_eq_none.mp (latest_concat.symm.trans h)
    exact forall_mem_append.mpr ⟨ih hl, forall_mem_singleton.mpr hy⟩

theorem latest_mem (h : latest key t l = some x) : x ∈ l ∧ key x ≤ t := by
  induction l using reverseRecOn
  case nil => cases h
  case append_singleton l y ih =>
    obtain ⟨rfl, hx⟩ | hl := better_eq_some (latest_concat.symm.trans h)
    · exact ⟨mem_append_right _ (mem_singleton_self _), hx⟩
    · exact ⟨mem_append_left _ (ih hl).left, (ih hl).right⟩

theorem latest_concat_of_le (hx : key x ≤ t) (h : ∀ y ∈ l, key y ≤ key x) :
    latest key t (l ++ [x]) = some x := by
  rw [latest_concat]
  cases hb : latest key t l
  case none => simp [better, hx]
  case some y => simp [better, hx, h y (latest_mem hb).left]

theorem latest_concat_of_lt (hx : t < key x) : latest key t (l ++ [x]) = latest key t l := by
  rw [latest_concat]
  cases latest key t l <;> simp [better, not_le.mpr hx]

end Latest
