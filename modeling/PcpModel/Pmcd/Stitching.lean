import Mathlib.Algebra.GroupWithZero.Nat
import Mathlib.Data.List.Induction
import PcpModel.Pmcd.NameSpace

-- How the answers of PMDAs are stitched into a list of names (traverse_dynamic in dopdus.c).
namespace Pmcd.Names

open List Option

-- What is found for a name. The array that a PMDA returns may be NULL if it is empty.
inductive Answer
  | other
  | failed
  | names (offspring : Option (List Name))

def strlens (l : List Name) : Nat :=
  (l.map (·.length + 1)).sum

-- The strings that are copied and their offsets. `n` names are left, `ii` is the next old one.
def copyNames (names offspring : List Name) (i : Nat) : (n k ii p : Nat) →
    Option (List (Nat × Name))
  | 0, _, _, _ => some []
  | n + 1, k, ii, p =>
    if k < i ∨ k ≥ i + offspring.length then
      let ii := if k = i + offspring.length then ii + 1 else ii
      names[ii]?.bind fun name =>
        (copyNames names offspring i n (k + 1) (ii + 1) (p + name.length + 1)).map ((p, name) :: ·)
    else
      offspring[k - i]?.bind fun name =>
        (copyNames names offspring i n (k + 1) ii (p + name.length + 1)).map ((p, name) :: ·)

-- `blocks` has what has been copied to each block, and how much space there was for it.
-- The length is an int in the source: the names take less than 2^31 bytes.
structure Traversal where
  names : List Name
  strlen : Int
  fake : Bool
  blocks : List (List (Nat × Name) × Int)

namespace Traversal

def stitch (t : Traversal) (i : Nat) : Answer → Option Traversal
  | .names (some offspring) => do
    let name ← t.names[i]?
    let newLen := t.strlen - name.length - 1 + strlens offspring
    let new ← copyNames t.names offspring i (t.names.length - 1 + offspring.length) 0 0 0
    return ⟨new.map Prod.snd, newLen, false, (new, newLen) :: t.blocks⟩
  | _ => some t

-- `σ` is what the answers depend on, and what they change.
def run (answers : Nat → Name → σ → Answer × σ) (t : Traversal) (s : σ) :
    Nat → Option (Traversal × σ)
  | 0 => some (t, s)
  | i + 1 => do
    let (a, s) := answers i (← t.names[i]?) s
    run answers (← t.stitch i a) s i

end Traversal

-- The length of the names has been added up by AddLengths.
def stitchAll (answers : Nat → Name → σ → Answer × σ) (start : Name) (names : List Name) (s : σ) :
    Option (Traversal × σ) := do
  let t := if names = [] then ⟨[start], strlens [start], true, []⟩
    else ⟨names, strlens names, false, []⟩
  let (t, s) ← Traversal.run answers t s t.names.length
  return (if t.fake then { t with names := [], strlen := 0 } else t, s)

-- Answers that only depend on the position and the name.
def fixed (answers : Nat → Name → Answer) (i : Nat) (name : Name) (_ : Unit) : Answer × Unit :=
  (answers i name, ())

def Answer.stitched (name : Name) : Answer → List Name
  | names (some l) => l
  | _ => [name]

-- The names that a PMDA has returned.
def Answer.returned : Answer → Option (List Name)
  | names l => some (l.getD [])
  | _ => none

def expected (answers : Nat → Name → Answer) (start : Name) (names : List Name) : List Name :=
  if names = [] then (answers 0 start).returned.getD []
  else names.zipIdx.flatMap fun x => (answers x.2 x.1).returned.getD [x.1]

def place (p : Nat) : List Name → List (Nat × Name)
  | [] => []
  | name :: l => (p, name) :: place (p + name.length + 1) l

variable {l l₁ l₂ o : List Name} {t : Traversal} {answers : Nat → Name → Answer}

theorem place_names : (place p l).map Prod.snd = l := by
  induction l generalizing p <;> simp_all [place]

theorem place_within : ∀ c ∈ place p l, c.1 + c.2.length + 1 ≤ p + strlens l := by
  induction l generalizing p
  case nil => simp [place]
  case cons name l hi =>
    simp only [place, forall_mem_cons, strlens, map_cons, sum_cons]
    refine ⟨by omega, fun c hc => ?_⟩
    have := hi c hc
    simp only [strlens] at this
    omega

theorem copyNames_eq (hk : k + n = (l₁ ++ o ++ l₂).length)
    (hi : ii = if k ≤ l₁.length then k else if k ≤ l₁.length + o.length then l₁.length
      else k - o.length + 1) :
    copyNames (l₁ ++ name :: l₂) o l₁.length n k ii p =
      some (place p ((l₁ ++ o ++ l₂).drop k)) := by
  induction n generalizing k ii p
  case zero => rw [drop_of_length_le (by omega), copyNames, place]
  case succ n ih =>
    have hk' : k < (l₁ ++ o ++ l₂).length := by omega
    rw [drop_eq_getElem_cons hk', copyNames, place]
    have hn : k + 1 + n = (l₁ ++ o ++ l₂).length := by omega
    split
    case isTrue hold =>
      have hg : (l₁ ++ name :: l₂)[if k = l₁.length + o.length then ii + 1 else ii]? =
          some (l₁ ++ o ++ l₂)[k] := by grind
      simp only [hg, bind_some]
      rw [ih hn (by grind), map_some]
    case isFalse hnew =>
      have hg : o[k - l₁.length]? = some (l₁ ++ o ++ l₂)[k] := by grind
      rw [hg, bind_some, ih hn (by grind), map_some]

structure Traversal.Ok (t : Traversal) : Prop where
  strlen : t.strlen = strlens t.names
  blocks : ∀ b ∈ t.blocks, ∀ c ∈ b.1, (c.1 + c.2.length + 1 : Int) ≤ b.2

theorem Traversal.Ok.stitch (h : t.Ok) (hn : t.names = l₁ ++ name :: l₂) (a : Answer) :
    ∃ t', t.stitch l₁.length a = some t' ∧ t'.Ok ∧ t'.names = l₁ ++ (a.stitched name ++ l₂) ∧
      (t'.fake ↔ t.fake ∧ ∀ l, a ≠ .names (some l)) := by
  rcases a with _ | _ | _ | o
  case names.some =>
    have hg : t.names[l₁.length]? = some name := by simp [hn]
    have hc : copyNames t.names o l₁.length (t.names.length - 1 + o.length) 0 0 0 =
        some (place 0 (l₁ ++ o ++ l₂)) := by
      rw [hn, copyNames_eq (by simp; omega) (by simp), drop_zero]
    have hl : t.strlen - name.length - 1 + strlens o = strlens (l₁ ++ o ++ l₂) := by
      rw [h.strlen, hn]
      simp [strlens]
      omega
    simp only [Traversal.stitch, hg, hc, hl, bind_eq_bind, bind_some, place_names]
    refine ⟨_, rfl, ⟨rfl, forall_mem_cons.mpr ⟨fun c hc => ?_, h.blocks⟩⟩, ?_, by simp⟩
    · have := place_within c hc
      omega
    · simp [Answer.stitched]
  all_goals exact ⟨t, rfl, h, by simp [hn, Answer.stitched], by simp⟩

theorem Answer.stitched_eq_nil {a : Answer} : a.stitched name = [] ↔ a = .names (some []) := by
  rcases a with _ | _ | _ | o <;> simp [stitched]

theorem Traversal.Ok.run (h : t.Ok) (hn : t.names = l₁ ++ l) (answers : Nat → Name → Answer) :
    ∃ t', t.run (fixed answers) () l₁.length = some (t', ()) ∧ t'.Ok ∧ (t'.fake → t.fake) ∧
      t'.names = (l₁.zipIdx.flatMap fun x => (answers x.2 x.1).stitched x.1) ++ l := by
  induction l₁ using reverseRecOn generalizing t l
  case nil => exact ⟨t, rfl, h, id, by simpa using hn⟩
  case append_singleton l₁ name hi =>
    rw [append_assoc] at hn
    obtain ⟨t₁, he, h₁, hn₁, hf⟩ := h.stitch hn (answers l₁.length name)
    obtain ⟨t₂, he₂, h₂, hf₂, hn₂⟩ := hi h₁ hn₁
    have hg : t.names[l₁.length]? = some name := by simp [hn]
    refine ⟨t₂, ?_, h₂, fun h => (hf.mp (hf₂ h)).left, by simp [hn₂, zipIdx_append]⟩
    rw [length_append, length_singleton, Traversal.run]
    simp [hg, fixed, he, he₂]

theorem flatMap_eq_iff {l : List α} {g : α → List β} (h : ∀ x, (g x).Sublist (f x)) :
    (l.flatMap g).Sublist (l.flatMap f) ∧ (l.flatMap f = l.flatMap g ↔ ∀ x ∈ l, f x = g x) := by
  induction l
  case nil => simp
  case cons x l hi =>
    obtain ⟨hs, hi⟩ := hi
    rw [flatMap_cons, flatMap_cons, forall_mem_cons, ← hi]
    refine ⟨(h x).append hs, fun he => ?_, fun ⟨hx, hl⟩ => by rw [hx, hl]⟩
    have hl := congrArg length he
    have := (h x).length_le
    have := hs.length_le
    rw [length_append, length_append] at hl
    exact ⟨((h x).eq_of_length (by omega)).symm, (hs.eq_of_length (by omega)).symm⟩

theorem Answer.returned_sublist (a : Answer) :
    (a.returned.getD [name]).Sublist (a.stitched name) := by
  rcases a with _ | _ | _ | o <;> simp [returned, stitched]

theorem Answer.stitched_iff {a : Answer} :
    a.stitched name = a.returned.getD [name] ↔ a ≠ .names none := by
  rcases a with _ | _ | _ | o <;> simp [returned, stitched]

-- An array that is NULL is taken for a failure, so that the name stays.
theorem stitchAll_exact (answers : Nat → Name → Answer) (start : Name) (names : List Name) :
    ∃ t, stitchAll (fixed answers) start names () = some (t, ()) ∧
      (∀ b ∈ t.blocks, ∀ c ∈ b.1, (c.1 + c.2.length + 1 : Int) ≤ b.2) ∧
      (t.names = expected answers start names ↔
        names = [] ∨ ∀ i name, names[i]? = some name → answers i name ≠ .names none) := by
  by_cases hn : names = []
  case pos =>
    subst hn
    have h₀ : Traversal.Ok ⟨[start], strlens [start], true, []⟩ := ⟨rfl, by simp⟩
    obtain ⟨t, he, h, ht, hf⟩ := h₀.stitch (nil_append [start]).symm (answers 0 start)
    have hr : stitchAll (fixed answers) start [] () =
        some (if t.fake then { t with names := [], strlen := 0 } else t, ()) := by
      rw [length_nil] at he
      simp [stitchAll, Traversal.run, fixed, he]
    refine ⟨_, hr, by split <;> exact h.blocks, iff_of_true ?_ (.inl rfl)⟩
    rw [expected]
    cases ha : answers 0 start
    case names o => cases o <;> simp_all [Answer.returned, Answer.stitched]
    all_goals simp_all [Answer.returned]
  case neg =>
    have h₀ : Traversal.Ok ⟨names, strlens names, false, []⟩ := ⟨rfl, by simp⟩
    obtain ⟨t, he, h, hf, ht⟩ := h₀.run names.append_nil.symm answers
    have hff : t.fake = false := by simpa using hf
    refine ⟨t, by simp [stitchAll, hn, he, hff], h.blocks, ?_⟩
    rw [ht, append_nil, expected, if_neg hn,
      (flatMap_eq_iff fun x => Answer.returned_sublist _).right, or_iff_right hn]
    simp only [Answer.stitched_iff, Prod.forall, mem_zipIdx_iff_getElem?]
    exact forall_comm

theorem stitchAll_keeps_name :
    (stitchAll (fixed fun _ _ => .names none) [97] [[98]] ()).map (·.1.names) = some [[98]] ∧
      expected (fun _ _ => .names none) [97] [[98]] = [] := by
  decide

end Pmcd.Names
