import PcpModel.Library.Memory

-- Areas of a memory of which only some bytes are known, e.g. because the others are padding.
namespace Memory

variable {m m' : Bytes}

def Matches (m : Bytes) (a : Int) (l : List (Option UInt8)) : Prop :=
  ∀ (i : Nat) b, l[i]? = some (some b) → m (a + i) = b

namespace Matches

@[simp]
theorem nil : Matches m a [] := by
  simp [Matches]

theorem append : Matches m a (l₁ ++ l₂) ↔ Matches m a l₁ ∧ Matches m (a + l₁.length) l₂ := by
  constructor
  · intro h
    constructor <;> intro i b hi
    · refine h i b ?_
      rwa [List.getElem?_append_left (List.getElem?_eq_some_iff.mp hi).choose]
    · have := h (l₁.length + i) b
        (by rwa [List.getElem?_append_right (by omega), Nat.add_sub_cancel_left])
      simpa [add_assoc] using this
  · intro ⟨h₁, h₂⟩ i b hi
    by_cases hl : i < l₁.length
    · rw [List.getElem?_append_left hl] at hi
      exact h₁ i b hi
    · rw [List.getElem?_append_right (by omega)] at hi
      rw [← h₂ _ b hi]
      congr 1
      omega

theorem free : Matches m a (List.replicate n none) := by
  intro i b hi
  simp [List.getElem?_replicate] at hi

@[simp]
theorem known : Matches m a (l.map some) ↔ Holds m a l := by
  constructor
  · intro h i hi
    exact h i _ (by simp)
  · intro h i b hi
    rw [List.getElem?_map, Option.map_eq_some_iff] at hi
    obtain ⟨_, hi, hb⟩ := hi
    obtain ⟨hl, rfl⟩ := List.getElem?_eq_some_iff.mp hi
    cases hb
    exact h i hl

theorem move (h : Matches m a l) (hm : ∀ i : Nat, i < l.length → m' (a' + i) = m (a + i)) :
    Matches m' a' l := by
  intro i b hi
  rw [hm i (List.getElem?_eq_some_iff.mp hi).choose, h i b hi]

theorem beside_write {k : List UInt8} (h : Matches m a l)
    (hd : a + l.length ≤ b ∨ b + k.length ≤ a) : Matches (write m b k) a l := by
  refine h.move fun i hi => Frame.write _ ?_
  rw [mem_span]
  omega

end Matches

end Memory
