import PcpModel.LocalFetch.Basic

-- The value sets of a local fetch belong to the metrics that were asked for.
namespace LocalFetch

open List Pcp

def pmids (vset : List (Option ValueSet)) : List (Option Nat) :=
  vset.map (·.map (·.pmid))

theorem pmids_append : pmids (us ++ vs) = pmids us ++ pmids vs :=
  map_append

theorem pmids_take : pmids (vs.take j) = (pmids vs).take j :=
  map_take

theorem pmids_drop : pmids (vs.drop j) = (pmids vs).drop j :=
  map_drop

theorem copyBack_nil : copyBack sts ps vs [] as = vs := by
  cases ps <;> cases vs <;> rfl

theorem copyBack_skip (hq : ∀ q ∈ qs, p ≠ q) :
    copyBack sts (p :: ps) (v :: vs) qs as = v :: copyBack sts ps vs qs as := by
  cases qs
  case nil => rw [copyBack_nil, copyBack_nil]
  case cons q qs => rw [copyBack, if_neg (hq q mem_cons_self)]

theorem copyBack_pmids (hl : vs.length = ps.length)
    (ha : 0 ≤ sts → as.map (·.pmid) = ps.filter (domain · = d)) :
    pmids (copyBack sts ps vs (ps.filter (domain · = d)) as) =
      zipWith (fun p v => if domain p = d then some p else v) ps (pmids vs) := by
  induction ps generalizing vs as
  case nil =>
    obtain rfl := eq_nil_of_length_eq_zero hl
    rfl
  case cons p ps hi =>
    obtain ⟨v, vs, rfl⟩ := exists_cons_of_length_eq_add_one hl
    have hl : vs.length = ps.length := Nat.succ.inj hl
    by_cases hp : domain p = d
    case neg =>
      rw [filter_cons_of_neg (by simpa using hp)] at ha ⊢
      have hq : ∀ q ∈ ps.filter (domain · = d), p ≠ q := by
        rintro q hq rfl
        exact hp (by simpa using (mem_filter.mp hq).right)
      rw [copyBack_skip hq, pmids, map_cons, ← pmids, hi hl ha]
      simp [pmids, hp]
    case pos =>
      rw [filter_cons_of_pos (by simpa using hp)] at ha ⊢
      have ht : 0 ≤ sts → as.tail.map (·.pmid) = ps.filter (domain · = d) := by
        intro h₀
        rw [map_tail, ha h₀, tail_cons]
      have hh : (if sts < 0 then some ⟨p, sts⟩ else as.head?).map (·.pmid) = some p := by
        split
        case isTrue => rfl
        case isFalse h₀ => rw [← head?_map, ha (by omega), head?_cons]
      rw [copyBack, if_pos rfl, pmids, map_cons, ← pmids, hi hl ht, hh]
      simp [pmids, hp]

section Turns

variable {dso : Nat → Bool} {replies : Nat → Reply} {h : Nat} {pmidlist : List Nat} {s : Turn}

theorem sendProfile_vset : (sendProfile replies h d s).1.vset = s.vset := by
  unfold sendProfile
  split
  case isTrue =>
    simp only
    split <;> rfl
  case isFalse => rfl

theorem fetchDomain_vset : (fetchDomain dso replies h d l s).1.vset = s.vset := by
  unfold fetchDomain
  split
  case isFalse => rfl
  case isTrue =>
    simp only
    split
    case isTrue => exact sendProfile_vset
    case isFalse => exact sendProfile_vset

theorem fetchDomain_answer (h₀ : 0 ≤ (fetchDomain dso replies h d l s).2.1) :
    (fetchDomain dso replies h d l s).2.2.map (·.pmid) = l := by
  unfold fetchDomain at *
  split at h₀
  case isFalse hd => exact absurd h₀ (show ¬0 ≤ pmErrNoagent by decide)
  case isTrue hd =>
    simp only [hd] at h₀ ⊢
    split at h₀
    case isTrue hs =>
      rw [if_pos hs]
      exact (replies d).valid l h₀
    case isFalse hs => exact absurd h₀ hs

def picked (pmidlist : List Nat) (j p : Nat) : Option Nat :=
  if domain p ∈ (pmidlist.take j).map domain then some p else none

theorem picked_succ (hj : pmidlist[j]? = some p) :
    picked pmidlist (j + 1) q = if domain q = domain p then some q else picked pmidlist j q := by
  have hq : domain q ∈ (pmidlist.take (j + 1)).map domain ↔
      domain q = domain p ∨ domain q ∈ (pmidlist.take j).map domain := by
    rw [take_add_one, hj, or_comm]
    simp
  simp only [picked, hq]
  by_cases hd : domain q = domain p <;> simp [hd]

def Picked (pmidlist : List Nat) (j : Nat) (s : Turn) : Prop :=
  pmids s.vset = pmidlist.map (picked pmidlist j)

theorem Picked.getElem? (hs : Picked pmidlist j s) (hj : pmidlist[j]? = some p) :
    ∃ v, s.vset[j]? = some v ∧ v.map (·.pmid) = picked pmidlist j p := by
  have h := congrArg (·[j]?) hs
  simpa [pmids, hj] using h

theorem Picked.length (hs : Picked pmidlist j s) : s.vset.length = pmidlist.length := by
  simpa [pmids] using congrArg List.length hs

-- The metrics before the position keep what they have, as none of them is of the domain.
theorem copyBack_picked (hj : pmidlist[j]? = some p) (hs : Picked pmidlist j s)
    (hd : domain p ∉ (pmidlist.take j).map domain)
    (ha : 0 ≤ sts → as.map (·.pmid) = (pmidlist.drop j).filter (domain · = domain p)) :
    pmids (s.vset.take j ++ copyBack sts (pmidlist.drop j) (s.vset.drop j)
      ((pmidlist.drop j).filter (domain · = domain p)) as) =
    pmidlist.map (picked pmidlist (j + 1)) := by
  have hl : (s.vset.drop j).length = (pmidlist.drop j).length := by simp [hs.length]
  have ht : (pmidlist.take j).map (picked pmidlist j) =
      (pmidlist.take j).map (picked pmidlist (j + 1)) := by
    refine map_congr_left fun q hq => ?_
    rw [picked_succ hj, if_neg]
    exact fun he => hd (he ▸ mem_map_of_mem hq)
  have hz : zipWith (fun q v => if domain q = domain p then some q else v) (pmidlist.drop j)
      ((pmidlist.drop j).map (picked pmidlist j)) =
        (pmidlist.drop j).map (picked pmidlist (j + 1)) := by
    rw [zipWith_map_right, zipWith_self]
    exact map_congr_left fun q _ => (picked_succ hj).symm
  rw [pmids_append, copyBack_pmids hl ha, pmids_take, pmids_drop, hs, ← map_take,
    ← map_drop, ht, hz, ← map_append, take_append_drop]

theorem turn_picked (hj : pmidlist[j]? = some p) (hs : Picked pmidlist j s) :
    Picked pmidlist (j + 1) (turn dso replies h pmidlist s j) := by
  obtain ⟨v, hv, hp⟩ := hs.getElem? hj
  by_cases hd : domain p ∈ (pmidlist.take j).map domain
  case pos =>
    rw [picked, if_pos hd] at hp
    obtain ⟨v, rfl, -⟩ := Option.map_eq_some_iff.mp hp
    have ht : turn dso replies h pmidlist s j = s := by simp [turn, hv]
    rw [ht, Picked, hs]
    refine map_congr_left fun q _ => ?_
    rw [picked_succ hj]
    split
    case isTrue hq => exact if_pos (hq ▸ hd)
    case isFalse => rfl
  case neg =>
    rw [picked, if_neg hd, Option.map_eq_none_iff] at hp
    subst hp
    simp only [turn, hj, hv, fetchDomain_vset]
    exact copyBack_picked hj hs hd fetchDomain_answer

theorem turns_picked (hs : Picked pmidlist 0 s) :
    pmids (turns dso replies h pmidlist s).vset = pmidlist.map some := by
  have hn (j : Nat) (hj : j ≤ pmidlist.length) :
      Picked pmidlist j ((range j).foldl (turn dso replies h pmidlist) s) := by
    induction j
    case zero => exact hs
    case succ j hi =>
      rw [range_succ, foldl_append, foldl_cons]
      exact turn_picked (getElem?_eq_getElem (by omega)) (hi (by omega))
  refine (hn pmidlist.length (Nat.le_refl _)).trans (map_congr_left fun p hp => if_pos ?_)
  rw [take_length]
  exact mem_map_of_mem hp

end Turns

theorem fetchLocal_pmids {t : Table} (hc : t.context h = some c) (hl : pmidlist ≠ []) :
    ∃ vset, (t.fetchLocal dso replies h pmidlist).2 = .ok vset ∧
      pmids vset = pmidlist.map some := by
  have hl : ¬pmidlist.length < 1 := Nat.not_lt.mpr (length_pos_iff.mpr hl)
  simp only [Table.fetchLocal, hc, hl]
  refine ⟨_, rfl, turns_picked ?_⟩
  rw [Picked, Table.start, pmids, map_map]
  exact map_congr_left fun p _ => by simp [picked]

end LocalFetch
