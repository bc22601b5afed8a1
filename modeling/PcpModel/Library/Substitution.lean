import Mathlib.Data.List.Nodup

-- Rules that are applied one after the other, and the substitution that applies them at once.
namespace Substitution

open List

variable {ρ κ α : Type*} [DecidableEq κ] (dom : ρ → κ) (act : ρ → α → Option α) (key : α → κ)

-- A rule is about the elements with one key. `none` removes the element.
def apply (r : ρ) (x : α) : Option α :=
  if key x = dom r then act r x else some x

-- The element is looked up once.
def atOnce (rules : List ρ) (x : α) : Option α :=
  match rules.find? fun r => dom r = key x with
  | none => some x
  | some r => act r x

def chain (rules : List ρ) (x : α) : Option α :=
  rules.foldlM (fun x r => apply dom act key r x) x

-- No rule makes an element that a later rule is about.
def Clear (rules : List ρ) : Prop :=
  rules.Pairwise fun r s => ∀ x y, key x = dom r → act r x = some y → key y ≠ dom s

variable {dom act key}

theorem apply_of_eq (h : key x = dom r) : apply dom act key r x = act r x :=
  if_pos h

theorem apply_of_ne (h : key x ≠ dom r) : apply dom act key r x = some x :=
  if_neg h

theorem filterMap_apply_of_not_mem {l : List α} (h : dom r ∉ l.map key) :
    l.filterMap (apply dom act key r) = l := by
  induction l
  case nil => rfl
  case cons x l hi =>
    simp only [map_cons, mem_cons, not_or] at h
    rw [filterMap_cons_some (apply_of_ne (Ne.symm h.left)), hi h.right]

theorem atOnce_nil : atOnce dom act key [] = some :=
  rfl

theorem atOnce_of_not_mem (h : ∀ r ∈ rules, dom r ≠ key x) :
    atOnce dom act key rules x = some x := by
  have hf : rules.find? (fun r => decide (dom r = key x)) = none := by simpa using h
  rw [atOnce, hf]

theorem atOnce_cons_of_eq (h : key x = dom r) :
    atOnce dom act key (r :: rules) x = act r x := by
  simp [atOnce, h]

theorem atOnce_cons_of_ne (h : key x ≠ dom r) :
    atOnce dom act key (r :: rules) x = atOnce dom act key rules x := by
  simp [atOnce, h.symm]

theorem atOnce_of_mem (hd : (rules.map dom).Nodup) (hr : r ∈ rules) (h : key x = dom r) :
    atOnce dom act key rules x = act r x := by
  induction rules
  case nil => cases hr
  case cons s rules hi =>
    obtain ⟨hs, hd⟩ := nodup_cons.mp hd
    rcases mem_cons.mp hr with rfl | hr
    · exact atOnce_cons_of_eq h
    · have hne : key x ≠ dom s := fun he => hs (he ▸ h ▸ mem_map_of_mem hr)
      rw [atOnce_cons_of_ne hne, hi hd hr]

theorem chain_filter
    (h : ∀ r ∈ rules, p r = false → ∀ x, key x = dom r → act r x = some x) (x : α) :
    chain dom act key (rules.filter p) x = chain dom act key rules x := by
  induction rules generalizing x
  case nil => rfl
  case cons r rules hi =>
    have hi := hi fun s hs => h s (mem_cons_of_mem _ hs)
    cases hp : p r
    case true =>
      rw [filter_cons_of_pos hp, chain]
      cases ha : apply dom act key r x
      case none => simp [chain, ha]
      case some y => simpa [chain, ha] using hi y
    case false =>
      have ha : apply dom act key r x = some x := by
        simpa [apply] using h r mem_cons_self hp x
      rw [filter_cons_of_neg (by simp [hp]), hi]
      simp [chain, ha]

theorem atOnce_filter (hd : (rules.map dom).Nodup)
    (h : ∀ r ∈ rules, p r = false → ∀ x, key x = dom r → act r x = some x) (x : α) :
    atOnce dom act key (rules.filter p) x = atOnce dom act key rules x := by
  induction rules
  case nil => rfl
  case cons r rules hi =>
    obtain ⟨hr, hd⟩ := nodup_cons.mp hd
    have hi := hi hd fun s hs => h s (mem_cons_of_mem _ hs)
    cases hp : p r
    case true =>
      rw [filter_cons_of_pos hp]
      by_cases hx : key x = dom r
      · rw [atOnce_cons_of_eq hx, atOnce_cons_of_eq hx]
      · rw [atOnce_cons_of_ne hx, atOnce_cons_of_ne hx, hi]
    case false =>
      rw [filter_cons_of_neg (by simp [hp])]
      by_cases hx : key x = dom r
      · rw [atOnce_cons_of_eq hx, h r mem_cons_self hp x hx]
        refine atOnce_of_not_mem fun s hs he => hr ?_
        exact mem_map.mpr ⟨s, mem_of_mem_filter hs, he.trans hx⟩
      · rw [atOnce_cons_of_ne hx, hi]

theorem chain_eq_atOnce (hc : Clear dom act key rules) (x : α) :
    chain dom act key rules x = atOnce dom act key rules x := by
  induction rules generalizing x
  case nil => rfl
  case cons r rules hi =>
    obtain ⟨hc₁, hc⟩ := pairwise_cons.mp hc
    rw [chain, foldlM_cons]
    by_cases hx : key x = dom r
    · rw [apply_of_eq hx, atOnce_cons_of_eq hx]
      cases ha : act r x
      case none => rfl
      case some y =>
        refine (hi hc y).trans ?_
        exact atOnce_of_not_mem fun s hs he => hc₁ s hs x y hx ha he.symm
    · rw [apply_of_ne hx, atOnce_cons_of_ne hx]
      exact hi hc x

-- A rule that makes no elements with a key leaves at most as many as there are.
theorem count_filterMap_apply_le {l : List α}
    (h : ∀ x y, key x = dom r → act r x = some y → key y ≠ k) :
    ((l.filterMap (apply dom act key r)).map key).count k ≤ (l.map key).count k := by
  induction l
  case nil => simp
  case cons x l hi =>
    by_cases hx : key x = dom r
    · cases ha : act r x
      case none =>
        rw [filterMap_cons_none ((apply_of_eq hx).trans ha)]
        exact Nat.le_trans hi count_le_count_cons
      case some y =>
        rw [filterMap_cons_some ((apply_of_eq hx).trans ha), map_cons,
          count_cons_of_ne (h x y hx ha)]
        exact Nat.le_trans hi count_le_count_cons
    · rw [filterMap_cons_some (apply_of_ne hx), map_cons, map_cons,
        count_cons, count_cons]
      omega

theorem foldl_eq_atOnce (step : ρ → List α → List α)
    (hstep : ∀ r ∈ rules, ∀ l, (l.map key).count (dom r) ≤ 1 →
      step r l = l.filterMap (apply dom act key r))
    (hd : (rules.map dom).Nodup) (hc : Clear dom act key rules)
    (hl : ∀ r ∈ rules, (l.map key).count (dom r) ≤ 1) :
    rules.foldl (fun l r => step r l) l = l.filterMap (atOnce dom act key rules) := by
  induction rules generalizing l
  case nil => simp [atOnce_nil]
  case cons r rules hi =>
    obtain ⟨hr, hd⟩ := nodup_cons.mp hd
    obtain ⟨hc₁, hc⟩ := pairwise_cons.mp hc
    have hl' : ∀ s ∈ rules, ((l.filterMap (apply dom act key r)).map key).count (dom s) ≤ 1 :=
      fun s hs => Nat.le_trans (count_filterMap_apply_le (hc₁ s hs)) (hl s (mem_cons_of_mem _ hs))
    rw [foldl_cons, hstep r mem_cons_self l (hl r mem_cons_self),
      hi (fun s hs => hstep s (mem_cons_of_mem _ hs)) hd hc hl', filterMap_filterMap]
    congr 1
    funext x
    rw [← chain_eq_atOnce (pairwise_cons.mpr ⟨hc₁, hc⟩), chain, foldlM_cons]
    cases apply dom act key r x
    case none => rfl
    case some y => exact (chain_eq_atOnce hc y).symm

theorem foldl_singleton (step : ρ → List α → List α)
    (hstep : ∀ r ∈ rules, ∀ l, (l.map key).count (dom r) ≤ 1 →
      step r l = l.filterMap (apply dom act key r)) :
    rules.foldl (fun l r => step r l) [x] = (chain dom act key rules x).toList := by
  have hnil : ∀ rules' ⊆ rules, rules'.foldl (fun l r => step r l) ([] : List α) = [] := by
    intro rules' hs
    induction rules'
    case nil => rfl
    case cons r rules' hi =>
      obtain ⟨hr, hs⟩ := cons_subset.mp hs
      rw [foldl_cons, hstep r hr [] (by simp)]
      exact hi hs
  induction rules generalizing x
  case nil => rfl
  case cons r rules hi =>
    have hone : ([x].map key).count (dom r) ≤ 1 := count_le_length
    rw [foldl_cons, hstep r mem_cons_self [x] hone, chain, foldlM_cons]
    cases ha : apply dom act key r x
    case none =>
      rw [filterMap_cons_none ha]
      exact hnil rules (subset_cons_self ..)
    case some y =>
      rw [filterMap_cons_some ha]
      exact hi (fun s hs => hstep s (mem_cons_of_mem _ hs))
        fun rules' hs => hnil rules' (Subset.trans hs (subset_cons_self ..))

-- An element with a key that a rule takes away and no rule makes.
theorem chain_ne
    (hm : ∀ r ∈ rules, ∀ x y, key x = dom r → act r x = some y → key y ≠ k)
    (hk : key x = k → ∃ s ∈ rules, dom s = k) (hy : chain dom act key rules x = some y) :
    key y ≠ k := by
  induction rules generalizing x
  case nil =>
    cases hy
    intro he
    obtain ⟨s, hs, _⟩ := hk he
    cases hs
  case cons r rules hi =>
    obtain ⟨z, hz, hy⟩ := Option.bind_eq_some_iff.mp hy
    refine hi (fun s hs => hm s (mem_cons_of_mem _ hs)) (fun he => ?_) hy
    by_cases hx : key x = dom r
    · exact absurd he (hm r mem_cons_self x z hx ((apply_of_eq hx).symm.trans hz))
    · cases (apply_of_ne hx).symm.trans hz
      obtain ⟨s, hs, hd⟩ := hk he
      rcases mem_cons.mp hs with rfl | hs
      · exact absurd (he.trans hd.symm) hx
      · exact ⟨s, hs, hd⟩

-- A rule that makes an element which a later rule takes away, where no later rule makes it again.
theorem chain_ne_atOnce (hd : ((rules ++ r :: rules').map dom).Nodup)
    (hx : key x = dom r) (ha : act r x = some y) (hs : ∃ s ∈ rules', dom s = key y)
    (hm : ∀ s ∈ rules', ∀ x z, key x = dom s → act s x = some z → key z ≠ key y) :
    chain dom act key (rules ++ r :: rules') x ≠ atOnce dom act key (rules ++ r :: rules') x := by
  rw [atOnce_of_mem hd (by simp) hx, ha]
  have hpre : chain dom act key rules x = some x := by
    rw [map_append, map_cons, nodup_middle] at hd
    have hn := (nodup_cons.mp hd).left
    clear hd
    induction rules
    case nil => rfl
    case cons s rules hi =>
      have hne : key x ≠ dom s := fun he => hn (by simp [← hx, he])
      rw [chain, foldlM_cons, apply_of_ne hne]
      exact hi fun h => hn (mem_cons_of_mem _ h)
  intro h
  have hc : chain dom act key (rules ++ r :: rules') x = chain dom act key rules' y := by
    rw [chain, foldlM_append]
    refine (congrArg (· >>= _) hpre).trans ?_
    simp [chain, apply_of_eq hx, ha]
  rw [hc] at h
  exact chain_ne hm (fun _ => hs) h rfl

end Substitution
