import Mathlib.Data.List.Basic

-- Loops whose body may be undefined, and the arrays that they read and write.
namespace Loop

open List

variable {α σ : Type*}

-- The invariant is about the elements for which the body has been executed.
theorem foldlM_invariant {I : List α → σ → Prop}
    (h₀ : I [] s)
    (hs : ∀ ys y zs s, xs = ys ++ y :: zs → I ys s → ∃ s', f s y = some s' ∧ I (ys ++ [y]) s') :
    ∃ s', xs.foldlM f s = some s' ∧ I xs s' := by
  suffices h : ∀ zs ys s, xs = ys ++ zs → I ys s → ∃ s', zs.foldlM f s = some s' ∧ I xs s' from
    h xs [] s rfl h₀
  intro zs
  induction zs
  case nil =>
    intro ys s hx hi
    exact ⟨s, rfl, by simpa [hx] using hi⟩
  case cons z zs ih =>
    intro ys s hx hi
    obtain ⟨s₁, h₁, hi₁⟩ := hs ys z zs s hx hi
    obtain ⟨s₂, h₂, hi₂⟩ := ih (ys ++ [z]) s₁ (by simp [hx]) hi₁
    exact ⟨s₂, by simp [h₁, h₂], hi₂⟩

theorem foldlM_induction {I : List α → σ → Prop}
    (h : xs.foldlM f s = some s') (h₀ : I [] s)
    (hs : ∀ ys y zs s s', xs = ys ++ y :: zs → I ys s → f s y = some s' → I (ys ++ [y]) s') :
    I xs s' := by
  suffices hg : ∀ zs ys s, xs = ys ++ zs → I ys s → zs.foldlM f s = some s' → I xs s' from
    hg xs [] s rfl h₀ h
  intro zs
  induction zs
  case nil =>
    intro ys s hx hi h
    cases h
    simpa [hx] using hi
  case cons z zs ih =>
    intro ys s hx hi h
    obtain ⟨s₁, h₁, h⟩ := Option.bind_eq_some_iff.mp h
    exact ih (ys ++ [z]) s₁ (by simp [hx]) (hs ys z zs s s₁ hx hi h₁) h

theorem forall₂_of_mapM {xs : List α} {ys : List σ}
    (h : xs.mapM f = some ys) :
    Forall₂ (fun x y => f x = some y) xs ys := by
  induction xs generalizing ys
  case nil =>
    cases h
    exact .nil
  case cons x xs ih =>
    rw [mapM_cons] at h
    obtain ⟨y, hy, h⟩ := Option.bind_eq_some_iff.mp h
    obtain ⟨ys', hys, h⟩ := Option.bind_eq_some_iff.mp h
    cases h
    exact .cons hy (ih hys)

theorem exists_of_mapM {xs : List α} {ys : List σ} (h : xs.mapM f = some ys) :
    (∀ y ∈ ys, ∃ x ∈ xs, f x = some y) ∧ ∀ x ∈ xs, ∃ y ∈ ys, f x = some y := by
  replace h := forall₂_of_mapM h
  induction h
  case nil => simp
  case cons hy _ hi =>
    simp only [mem_cons, forall_eq_or_imp, exists_eq_or_imp]
    exact ⟨⟨.inl hy, fun y h => .inr (hi.left y h)⟩, .inl hy, fun x h => .inr (hi.right x h)⟩

theorem range_invariant {I : Nat → σ → Prop}
    (h₀ : I 0 s) (hs : ∀ i < n, ∀ s, I i s → ∃ s', f s i = some s' ∧ I (i + 1) s') :
    ∃ s', (range n).foldlM f s = some s' ∧ I n s' := by
  induction n
  case zero => exact ⟨s, rfl, h₀⟩
  case succ n ih =>
    obtain ⟨s₁, h₁, hi₁⟩ := ih fun i hi => hs i (Nat.lt_succ_of_lt hi)
    obtain ⟨s₂, h₂, hi₂⟩ := hs n n.lt_succ_self s₁ hi₁
    exact ⟨s₂, by simp [range_succ, h₁, h₂], hi₂⟩

-- A write is undefined behind the end of the array.
def write (a : List α) (i : Nat) (v : α) : Option (List α) :=
  if i < a.length then some (a.set i v) else none

def fill (a : List α) (n : Nat) (v : α) : Option (List α) :=
  if n ≤ a.length then some (List.replicate n v ++ a.drop n) else none

theorem write_eq (h : i < a.length) (v : α) : write a i v = some (a.set i v) :=
  if_pos h

theorem fill_eq (h : n ≤ a.length) (v : α) :
    ∃ b, fill a n v = some b ∧ b.length = a.length ∧ ∀ i < n, b[i]? = some v := by
  refine ⟨_, if_pos h, ?_, ?_⟩
  · simp
    omega
  · intro i hi
    simp [getElem?_append, hi]

end Loop
