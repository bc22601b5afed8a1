import Mathlib.Data.List.Basic

-- Finite sets as lists that are strictly sorted by a relation.
namespace SortedSet

open List

variable {α : Type*} [DecidableEq α] (r : α → α → Prop) [DecidableRel r]

-- Inserts an element at the first position that is not already taken by it or by smaller elements.
def insert (a : α) : List α → List α
  | [] => [a]
  | b :: bs => if b = a then b :: bs else if r a b then a :: b :: bs else b :: insert a bs

def insertAll (bs as : List α) : List α :=
  as.foldl (fun bs a => insert r a bs) bs

variable {r} {a b : α} {as bs : List α}

@[simp]
theorem mem_insert : b ∈ insert r a bs ↔ b = a ∨ b ∈ bs := by
  induction bs <;> simp [insert]
  case cons b' bs hi =>
    split
    case isTrue h => simp [h]
    case isFalse =>
      split <;> simp
      tauto

@[simp]
theorem mem_insertAll : b ∈ insertAll r bs as ↔ b ∈ bs ∨ b ∈ as := by
  induction as generalizing bs <;> simp_all [insertAll]
  case cons => tauto

theorem pairwise_insert [IsTrans α r] [Std.Trichotomous r] (h : bs.Pairwise r) :
    (insert r a bs).Pairwise r := by
  induction bs
  case nil => simp [insert]
  case cons b bs hi =>
    have ⟨hb, h⟩ := pairwise_cons.mp h
    simp only [insert]
    split
    case isTrue => exact pairwise_cons.mpr ⟨hb, h⟩
    case isFalse hn =>
      split
      case isTrue hr =>
        refine pairwise_cons.mpr ⟨fun c hc => ?_, pairwise_cons.mpr ⟨hb, h⟩⟩
        cases mem_cons.mp hc
        case inl hc => exact hc ▸ hr
        case inr hc => exact IsTrans.trans _ _ _ hr (hb c hc)
      case isFalse hr =>
        refine pairwise_cons.mpr ⟨fun c hc => ?_, hi h⟩
        cases mem_insert.mp hc
        case inl hc =>
          by_contra hn'
          exact hn <| Std.Trichotomous.trichotomous b a (hc ▸ hn') hr
        case inr hc => exact hb c hc

theorem pairwise_insertAll [IsTrans α r] [Std.Trichotomous r] (h : bs.Pairwise r) :
    (insertAll r bs as).Pairwise r := by
  induction as generalizing bs
  case nil => exact h
  case cons a as hi => exact hi (pairwise_insert h)

end SortedSet
