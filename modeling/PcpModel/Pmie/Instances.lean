import Mathlib.Data.List.DropRight

-- The instances that are requested for a metric (initMetric and reinitMetric in pragmatics.c).
namespace Pmie

open List

abbrev Name := List UInt8

def isspace (c : UInt8) : Bool :=
  c = 32 ∨ 9 ≤ c ∧ c ≤ 13

def eqword (i₁ i₂ : Name) : Bool :=
  i₁ <+: i₂ ∧ (i₂.drop i₁.length).head?.all isspace

-- Steps forward at least once and while `p` holds, up to where less than `n₁` characters are left.
def skip (p : UInt8 → Bool) (n₁ : Nat) : Name → Option Name
  | [] => none
  | _ :: i₂ => if i₂.length < n₁ then none else if p (i₂.headD 0) then skip p n₁ i₂ else some i₂

def eqinst (i₁ i₂ : Name) : Bool :=
  eqword i₁ i₂ ||
    ((skip (!isspace ·) i₁.length i₂).bind (skip isspace i₁.length)).any (eqword i₁)

-- An entry of `inames` and `iids`, where the identifier `none` is PM_IN_NULL.
abbrev Inst := Name × Option Nat

def Inst.found (x : Inst) : Bool :=
  x.2.isSome

-- The first instance of the domain with a name is taken.
def resolve (indom : List (Nat × Name)) (inames : List Name) : List Inst :=
  inames.map fun name => (name, (indom.find? (eqinst name ·.2)).map (·.1))

def mIdom (l : List Inst) : Nat :=
  l.countP (·.found)

-- The entries from `i` to `j`. If the first one is missing, it is swapped with the last one, which
-- is not looked at, and both indices move on.
def swaps (p : α → Bool) : List α → List α
  | [] => []
  | x :: l =>
    if h : l ≠ [] ∧ p x = false then l.getLast h.1 :: swaps p l.dropLast ++ [x] else x :: swaps p l
termination_by l => l.length

-- At first, `j` is the last entry that was found.
def reorder (l : List Inst) : List Inst :=
  swaps Inst.found (l.rdropWhile (!·.found)) ++ l.rtakeWhile (!·.found)

def Known (indom : List (Nat × Name)) (name : Name) : Bool :=
  indom.any (eqinst name ·.2)

-- The first `m` entries are the requested names that are known, with the identifier of the first
-- instance that matches.
structure Separated (indom : List (Nat × Name)) (inames : List Name) (m : Nat) (r : List Inst) :
    Prop where
  perm : (r.map Prod.fst).Perm inames
  found : ∀ x ∈ r.take m, ∃ id name l₁ l₂, x.2 = some id ∧ indom = l₁ ++ (id, name) :: l₂ ∧
    eqinst x.1 name ∧ ∀ e ∈ l₁, ¬eqinst x.1 e.2
  missing : ∀ x ∈ r.drop m, x.2 = none ∧ ∀ e ∈ indom, ¬eqinst x.1 e.2

section Swaps

variable {p : α → Bool} {l r : List α}

theorem swaps_perm : (swaps p l).Perm l := by
  fun_induction swaps p l
  case case1 => rfl
  case case2 x l h hi =>
    obtain ⟨m, y, rfl⟩ := eq_nil_or_concat' l |>.resolve_left h.left
    rw [dropLast_concat] at hi ⊢
    rw [getLast_append_singleton]
    exact ((hi.cons y).append_right [x]).trans <| (perm_append_singleton x (y :: m)).trans <|
      (perm_append_singleton y m).symm.cons x
  case case3 x l _ hi => exact hi.cons x

theorem countP_take_add_drop : (l.take k).countP p + (l.drop k).countP p = l.countP p := by
  rw [← countP_append, take_append_drop]

-- The swaps are right iff behind the entries that get filled, no missing entry follows a found one.
theorem swaps_found_iff : (∀ x ∈ (swaps p l).take (l.countP p), p x) ↔
    (l.drop (l.countP p)).Pairwise fun x y => p x → p y := by
  fun_induction swaps p l
  case case1 => simp
  case case2 x l h hi =>
    obtain ⟨m, y, rfl⟩ := eq_nil_or_concat' l |>.resolve_left h.left
    have hm := m.countP_le_length (p := p)
    simp only [dropLast_concat, getLast_append_singleton, cons_append] at hi ⊢
    cases hy : p y
    case true =>
      simp_all [take_append_of_le_length, swaps_perm.length_eq, drop_append_of_le_length,
        pairwise_append]
    case false =>
      rw [countP_cons_of_neg (by simp [h.right]), countP_append, countP_singleton, hy]
      cases hc : m.countP p
      case zero =>
        have : ∀ a ∈ m, p a = false := by simpa using countP_eq_zero.mp hc
        refine iff_of_true (by simp) (pairwise_of_forall_mem_list fun a ha => ?_)
        grind
      case succ k =>
        have hs := countP_take_add_drop (p := p) (l := m) (k := k)
        have ht := (m.take k).countP_le_length (p := p)
        rw [length_take] at ht
        have hd : (m.drop k).countP p ≠ 0 := by omega
        rw [ne_eq, countP_eq_zero] at hd
        simp_all [drop_append_of_le_length (show k ≤ m.length by omega), pairwise_append]
  case case3 x l h hi =>
    cases l
    case nil => cases hx : p x <;> simp [swaps, hx]
    case cons => simp_all

theorem drop_missing (h : r.Perm l) (hf : ∀ x ∈ r.take (l.countP p), p x) :
    ∀ x ∈ r.drop (l.countP p), p x = false := by
  have hs := countP_take_add_drop (p := p) (l := r) (k := l.countP p)
  have hl := l.countP_le_length (p := p)
  rw [countP_eq_length.mpr hf, length_take, h.countP_eq, h.length_eq, min_eq_left hl] at hs
  simpa using countP_eq_zero.mp (Nat.add_eq_left.mp hs)

end Swaps

theorem reorder_perm : (reorder l).Perm l :=
  .trans (swaps_perm.append_right _) (.of_eq rdropWhile_append_rtakeWhile)

-- In terms of the entries, the list is separated iff the swaps are right.
theorem reorder_found_iff {l : List Inst} : (∀ x ∈ (reorder l).take (mIdom l), x.found) ↔
    ((l.rdropWhile (!·.found)).drop (mIdom l)).Pairwise fun x y => x.found → y.found := by
  have hc : mIdom l = (l.rdropWhile (!·.found)).countP Inst.found := by
    have ht : (l.rtakeWhile (!·.found)).countP Inst.found = 0 :=
      countP_eq_zero.mpr fun x hx => by simpa using mem_rtakeWhile_imp hx
    have ha := @rdropWhile_append_rtakeWhile _ (!·.found) l
    rw [← Nat.add_zero (countP ..), ← ht, ← countP_append, ha, mIdom]
  have hk : mIdom l ≤ (swaps Inst.found (l.rdropWhile (!·.found))).length := by
    rw [swaps_perm.length_eq, hc]
    exact countP_le_length
  have hr : (reorder l).take (mIdom l) = _ := take_append_of_le_length hk
  rw [hc, ← swaps_found_iff, ← hc, ← hr]

section Resolve

variable {indom : List (Nat × Name)} {inames : List Name} {x : Inst}

theorem mem_resolve (h : x ∈ resolve indom inames) :
    x.2 = (indom.find? (eqinst x.1 ·.2)).map (·.1) := by
  obtain ⟨name, -, rfl⟩ := mem_map.mp h
  rfl

theorem found_of_mem_resolve (h : x ∈ resolve indom inames) (hf : x.found) :
    ∃ id name l₁ l₂, x.2 = some id ∧ indom = l₁ ++ (id, name) :: l₂ ∧ eqinst x.1 name ∧
      ∀ e ∈ l₁, ¬eqinst x.1 e.2 := by
  rw [Inst.found, mem_resolve h, Option.isSome_map, Option.isSome_iff_exists] at hf
  obtain ⟨⟨id, name⟩, he⟩ := hf
  obtain ⟨hm, l₁, l₂, rfl, hn⟩ := find?_eq_some_iff_append.mp he
  exact ⟨id, name, l₁, l₂, by rw [mem_resolve h, he]; rfl, rfl, hm, by simpa using hn⟩

theorem missing_of_mem_resolve (h : x ∈ resolve indom inames) (hf : x.found = false) :
    x.2 = none ∧ ∀ e ∈ indom, ¬eqinst x.1 e.2 := by
  have hn : x.2 = none := by simpa [Inst.found] using hf
  refine ⟨hn, ?_⟩
  rw [mem_resolve h, Option.map_eq_none_iff, find?_eq_none] at hn
  simpa using hn

theorem found_eq_known (indom : List (Nat × Name)) (name : Name) :
    Inst.found (name, (indom.find? (eqinst name ·.2)).map (·.1)) = Known indom name := by
  rw [Bool.eq_iff_iff]
  simp [Inst.found, Known]

theorem mIdom_resolve : mIdom (resolve indom inames) = inames.countP (Known indom) := by
  rw [mIdom, resolve, countP_map]
  exact countP_congr fun name _ => by rw [Function.comp, found_eq_known]

theorem rdropWhile_resolve : (resolve indom inames).rdropWhile (!·.found) =
    resolve indom (inames.rdropWhile (!Known indom ·)) := by
  simp only [rdropWhile, resolve, ← map_reverse, dropWhile_map, Function.comp_def, found_eq_known]

end Resolve

theorem reorder_separated_iff (indom : List (Nat × Name)) (inames : List Name) :
    let l := resolve indom inames
    Separated indom inames (mIdom l) (reorder l) ↔
      ((inames.rdropWhile (!Known indom ·)).drop (inames.countP (Known indom))).Pairwise
        fun x y => Known indom x → Known indom y := by
  intro l
  have hf : Separated indom inames (mIdom l) (reorder l) ↔
      ∀ x ∈ (reorder l).take (mIdom l), x.found := by
    constructor
    case mp =>
      intro h x hx
      obtain ⟨id, _, _, _, hi, -⟩ := h.found x hx
      rw [Inst.found, hi]
      rfl
    case mpr =>
      intro h
      have hm (x) (hx : x ∈ reorder l) : x ∈ resolve indom inames := reorder_perm.mem_iff.mp hx
      constructor
      case perm =>
        have hl : l.map Prod.fst = inames := by simp [l, resolve, Function.comp_def]
        exact (reorder_perm.map _).trans (.of_eq hl)
      case found => exact fun x hx => found_of_mem_resolve (hm x (mem_of_mem_take hx)) (h x hx)
      case missing =>
        intro x hx
        exact missing_of_mem_resolve (hm x (mem_of_mem_drop hx)) (drop_missing reorder_perm h x hx)
  rw [hf, reorder_found_iff, rdropWhile_resolve, mIdom_resolve, resolve, ← map_drop, pairwise_map]
  simp only [found_eq_known]

-- Of five instances, the last one is swapped with the first, and the fourth with the second.
theorem reorder_mixed :
    let l := resolve [(7, [99]), (9, [101])] [[97], [98], [99], [100], [101]]
    mIdom l = 2 ∧ reorder l =
      [([101], some 9), ([100], none), ([99], some 7), ([98], none), ([97], none)] ∧
    ¬Separated [(7, [99]), (9, [101])] [[97], [98], [99], [100], [101]] (mIdom l) (reorder l) := by
  intro l
  have hl : l = [([97], none), ([98], none), ([99], some 7), ([100], none), ([101], some 9)] := by
    decide
  have hr : reorder l =
      [([101], some 9), ([100], none), ([99], some 7), ([98], none), ([97], none)] := by
    simp [hl, reorder, swaps, Inst.found, rdropWhile, rtakeWhile]
  refine ⟨by decide, hr, fun h => ?_⟩
  obtain ⟨id, _, _, _, hi, -⟩ := h.found ([100], none) (by rw [hr, hl]; decide)
  cases hi

end Pmie
