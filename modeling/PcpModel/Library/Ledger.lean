import Mathlib.Algebra.Order.Group.Multiset

-- A ledger holds the resources that are owned. Only what is available can be acquired.
namespace Ledger

inductive Tx (ρ : Type*)
  | acquire (r : ρ)
  | release (r : ρ)

variable {ρ : Type*} {av : ρ → Prop}

def Moves (av : ρ → Prop) : List (Tx ρ) → Multiset ρ → Multiset ρ → Prop
  | [], l, l' => l = l'
  | .acquire r :: ts, l, l' => av r ∧ Moves av ts (r ::ₘ l) l'
  | .release r :: ts, l, l' => ∃ l₀, l = r ::ₘ l₀ ∧ Moves av ts l₀ l'

namespace Moves

theorem refl : Moves av [] l l :=
  rfl

theorem append (h₁ : Moves av ts l₁ l₂) (h₂ : Moves av ts' l₂ l₃) :
    Moves av (ts ++ ts') l₁ l₃ := by
  induction ts generalizing l₁
  case nil => exact h₁ ▸ h₂
  case cons t ts hi =>
    cases t
    case acquire r => exact ⟨h₁.left, hi h₁.right⟩
    case release r =>
      have ⟨l₀, hl, h₀⟩ := h₁
      exact ⟨l₀, hl, hi h₀⟩

-- What is owned on top of that does not matter.
theorem frame (k : Multiset ρ) (h : Moves av ts l l') :
    Moves av ts (l + k) (l' + k) := by
  induction ts generalizing l
  case nil => exact congrArg (· + k) h
  case cons t ts hi =>
    cases t
    case acquire r =>
      rw [Moves, ← Multiset.cons_add]
      exact ⟨h.left, hi h.right⟩
    case release r =>
      have ⟨l₀, hl, h₀⟩ := h
      exact ⟨l₀ + k, by rw [hl, Multiset.cons_add], hi h₀⟩

theorem flatMap {as : List α}
    (h : ∀ a ∈ as, Moves av (f a) (g a) (g' a)) :
    Moves av (as.flatMap f) (as.map g).sum (as.map g').sum := by
  induction as
  case nil => exact refl
  case cons a as hi =>
    have h₁ := h a (by simp) |>.frame (as.map g).sum
    have h₂ := hi (fun b hb => h b (by simp [hb])) |>.frame (g' a)
    rw [add_comm _ (g' a), add_comm _ (g' a)] at h₂
    exact h₁.append h₂

end Moves

end Ledger
