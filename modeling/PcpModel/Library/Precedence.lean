import Mathlib.Data.Set.Basic

-- Rules with ranks, of which the ones with the lowest rank decide.
namespace Precedence

variable {β : Type*}

def Decides (rules : Set (Nat × β)) (b : β) : Prop :=
  ∃ k, (k, b) ∈ rules ∧ ∀ k' b', (k', b') ∈ rules → k ≤ k'

variable {ρ : Type*} (rank : ρ → Nat) (verdict : ρ → Option β)

def rules (l : List ρ) : Set (Nat × β) :=
  { p | ∃ r ∈ l, rank r = p.fst ∧ verdict r = some p.snd }

variable {rank verdict}

theorem rules_append :
    rules rank verdict (l ++ l') = rules rank verdict l ∪ rules rank verdict l' := by
  ext p
  simp [rules, or_and_right, exists_or]

theorem rules_cons : rules rank verdict (r :: l) = rules rank verdict [r] ∪ rules rank verdict l :=
  rules_append (l := [r])

theorem rules_cons_none (h : verdict r = none) :
    rules rank verdict (r :: l) = rules rank verdict l := by
  simp [rules, h]

-- In a list that is sorted by rank, the first rule decides if rules of one rank agree.
theorem decides_iff_findSome? (hs : l.Pairwise (rank · ≤ rank ·))
    (hu : ∀ k b b', (k, b) ∈ rules rank verdict l → (k, b') ∈ rules rank verdict l → b = b') :
    Decides (rules rank verdict l) b ↔ l.findSome? verdict = some b := by
  induction l
  case nil => simp [Decides, rules]
  case cons r l hi =>
    have ⟨hr, hs⟩ := List.pairwise_cons.mp hs
    cases h : verdict r
    case none =>
      rw [rules_cons_none h] at hu ⊢
      simp [h, hi hs hu]
    case some b' =>
      have hm : (rank r, b') ∈ rules rank verdict (r :: l) := ⟨r, List.mem_cons_self, rfl, h⟩
      have hl : ∀ k b'', (k, b'') ∈ rules rank verdict (r :: l) → rank r ≤ k := by
        rintro k b'' ⟨r', hr', rfl, _⟩
        cases List.mem_cons.mp hr'
        case inl h => exact h ▸ Nat.le_refl _
        case inr h => exact hr r' h
      simp only [List.findSome?_cons, h, Option.some_inj]
      constructor
      · intro ⟨k, hk, hmin⟩
        have e : k = rank r := Nat.le_antisymm (hmin _ _ hm) (hl _ _ hk)
        exact hu _ _ _ hm (e ▸ hk)
      · rintro rfl
        exact ⟨rank r, hm, hl⟩

end Precedence
