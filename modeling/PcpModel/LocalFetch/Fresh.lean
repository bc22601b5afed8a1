import PcpModel.Library.Run
import PcpModel.LocalFetch.Result

-- In which runs a PMDA is always asked with the profile of the context that asks.
namespace LocalFetch

open List Function

variable {dso : Nat → Bool} {replies : Nat → Reply} {h : Nat} {pmidlist : List Nat}

section Turn

def Turn.Inv (h : Nat) (s : Turn) : Prop :=
  s.ctx.sent ≠ 0 → ∀ p, s.passed s.ctx.sent = some (h, p) → p = s.ctx.instprof

-- The context is right about its profile. The domain zero also stands for none.
def Turn.Kept (h d : Nat) (s : Turn) : Prop :=
  s.ctx.sent = d → ∃ p, s.passed d = some (h, p) ∧ (d = 0 → p = s.ctx.instprof)

def AllFresh (calls : List Call) : Prop :=
  ∀ c ∈ calls, c.Fresh

instance : Decidable (AllFresh calls) :=
  inferInstanceAs (Decidable (∀ _ ∈ _, _))

inductive Fetched (dso : Nat → Bool) (h d : Nat) (s : Turn) : Turn → Prop
  | unknown (hd : dso d = false) : Fetched dso h d s s
  | failed (hd : s.ctx.sent ≠ d) : Fetched dso h d s
      { s with passed := Function.update s.passed d (some (h, s.ctx.instprof)) }
  | passed (hd : s.ctx.sent ≠ d) : Fetched dso h d s
      { s with
        passed := Function.update s.passed d (some (h, s.ctx.instprof))
        ctx := { s.ctx with sent := d }
        calls := s.calls ++ [⟨h, d, some (h, s.ctx.instprof), s.ctx.instprof⟩] }
  | kept (hd : dso d) (hs : s.ctx.sent = d) : Fetched dso h d s
      { s with calls := s.calls ++ [⟨h, d, s.passed d, s.ctx.instprof⟩] }

theorem fetchDomain_fetched (d : Nat) (l : List Nat) (s : Turn) :
    Fetched dso h d s (fetchDomain dso replies h d l s).1 := by
  unfold fetchDomain
  split
  case isFalse hd => exact .unknown (by simpa using hd)
  case isTrue hd =>
    by_cases hs : s.ctx.sent = d
    case pos =>
      have hr : sendProfile replies h d s = (s, 0) := by simp [sendProfile, hs]
      simp only [hr, Int.le_refl, if_true]
      exact .kept hd hs
    case neg =>
      by_cases hp : 0 ≤ (replies d).profile
      case pos =>
        simp only [sendProfile, hs, ne_eq, not_false_eq_true, if_true, hp, callFetch,
          update_self]
        exact .passed hs
      case neg =>
        simp only [sendProfile, hs, ne_eq, not_false_eq_true, if_true, hp, if_false]
        exact .failed hs

variable {s s' : Turn}

theorem Fetched.inv (hf : Fetched dso h d s s') (hi : s.Inv h) : s'.Inv h := by
  cases hf
  case unknown => exact hi
  case kept => exact hi
  case failed hd => exact fun h₀ p hp => hi h₀ p ((update_of_ne hd ..).symm.trans hp)
  case passed =>
    intro _ p hp
    cases (update_self ..).symm.trans hp
    rfl

theorem allFresh_concat (hs : AllFresh calls) : AllFresh (calls ++ [c]) ↔ c.Fresh := by
  simp only [AllFresh, forall_mem_append, forall_mem_singleton]
  exact and_iff_right hs

theorem Turn.kept_iff (hi : s.Inv h) (hs : s.ctx.sent = d) :
    s.Kept h d ↔ s.passed d = some (h, s.ctx.instprof) := by
  subst hs
  constructor
  case mp =>
    intro hk
    obtain ⟨p, hp, h₀⟩ := hk rfl
    by_cases hz : s.ctx.sent = 0
    case pos => rw [hp, h₀ hz]
    case neg => rw [hp, hi hz p hp]
  case mpr => exact fun hp _ => ⟨_, hp, fun _ => rfl⟩

theorem Fetched.allFresh (hf : Fetched dso h d s s') (hi : s.Inv h) (hs : AllFresh s.calls) :
    AllFresh s'.calls ↔ (dso d → s.Kept h d) := by
  cases hf
  case unknown hd => exact iff_of_true hs fun h => absurd h (by simp [hd])
  case failed hd => exact iff_of_true hs fun _ he => absurd he hd
  case passed hd => exact iff_of_true ((allFresh_concat hs).mpr rfl) fun _ he => absurd he hd
  case kept hd he =>
    rw [allFresh_concat hs, imp_iff_right hd, Turn.kept_iff hi he]
    rfl

theorem Fetched.calls_subset (hf : Fetched dso h d s s') (h' : AllFresh s'.calls) :
    AllFresh s.calls := by
  cases hf
  case unknown => exact h'
  case failed => exact h'
  case passed => exact fun c hc => h' c (mem_append_left _ hc)
  case kept => exact fun c hc => h' c (mem_append_left _ hc)

theorem Fetched.passed_others (hf : Fetched dso h d s s') (hne : h' ≠ h)
    (hp : s'.passed d' = some (h', p)) : s.passed d' = some (h', p) := by
  have hu (hp : update s.passed d (some (h, s.ctx.instprof)) d' = some (h', p)) :
      s.passed d' = some (h', p) := by
    by_cases hd : d' = d
    case pos =>
      rw [hd, update_self] at hp
      cases hp
      contradiction
    case neg => rwa [update_of_ne hd] at hp
  cases hf
  case unknown => exact hp
  case kept => exact hp
  case failed => exact hu hp
  case passed => exact hu hp

theorem Fetched.instprof (hf : Fetched dso h d s s') : s'.ctx.instprof = s.ctx.instprof := by
  cases hf <;> rfl

def Open (pmidlist : List Nat) (s : Turn) (j pmid : Nat) : Prop :=
  pmidlist[j]? = some pmid ∧ s.vset[j]? = some none

theorem turn_cases (s : Turn) (j : Nat) :
    (∃ pmid s', Open pmidlist s j pmid ∧ Fetched dso h (domain pmid) s s' ∧
      ∃ vset, turn dso replies h pmidlist s j = { s' with vset }) ∨
    (∀ pmid, ¬Open pmidlist s j pmid) ∧ turn dso replies h pmidlist s j = s := by
  unfold turn
  split
  case h_1 pmid hp hv => exact .inl ⟨pmid, _, ⟨hp, hv⟩, fetchDomain_fetched .., _, rfl⟩
  case h_2 hn => exact .inr ⟨fun pmid ⟨hp, hv⟩ => hn pmid hp hv, rfl⟩

def Turn.Ok (dso : Nat → Bool) (h : Nat) (pmidlist : List Nat) (s : Turn) (j : Nat) : Prop :=
  ∀ pmid, Open pmidlist s j pmid → dso (domain pmid) → s.Kept h (domain pmid)

theorem turn_inv (s : Turn) (j : Nat) (hi : s.Inv h) :
    (turn dso replies h pmidlist s j).Inv h := by
  obtain ⟨pmid, s', -, hf, vset, ht⟩ | ⟨-, ht⟩ := turn_cases s j
  case inl =>
    rw [ht]
    exact hf.inv hi
  case inr =>
    rw [ht]
    exact hi

theorem turn_allFresh (s : Turn) (j : Nat) (hi : s.Inv h) (hs : AllFresh s.calls) :
    AllFresh (turn dso replies h pmidlist s j).calls ↔ s.Ok dso h pmidlist j := by
  obtain ⟨pmid, s', ho, hf, vset, ht⟩ | ⟨hn, ht⟩ := turn_cases s j
  case inl =>
    rw [ht, hf.allFresh hi hs]
    refine ⟨fun hk pmid' ho' => ?_, fun hk => hk pmid ho⟩
    cases ho.left.symm.trans ho'.left
    exact hk
  case inr =>
    rw [ht]
    exact iff_of_true hs fun pmid ho => absurd ho (hn pmid)

theorem turn_calls (s : Turn) (j : Nat) (hs : AllFresh (turn dso replies h pmidlist s j).calls) :
    AllFresh s.calls := by
  obtain ⟨pmid, s', -, hf, vset, ht⟩ | ⟨-, ht⟩ := turn_cases s j
  case inl =>
    rw [ht] at hs
    exact hf.calls_subset hs
  case inr => rwa [ht] at hs

structure Frame (h : Nat) (s s' : Turn) : Prop where
  inv : s'.Inv h
  instprof : s'.ctx.instprof = s.ctx.instprof
  passed : ∀ h' d p, h' ≠ h → s'.passed d = some (h', p) → s.passed d = some (h', p)

theorem turn_frame (s₀ s : Turn) (j : Nat) (hs : Frame h s₀ s) :
    Frame h s₀ (turn dso replies h pmidlist s j) := by
  refine ⟨turn_inv s j hs.inv, ?_, ?_⟩
  all_goals obtain ⟨pmid, s', -, hf, vset, ht⟩ | ⟨-, ht⟩ := turn_cases s j
  case refine_1.inl => rw [ht, ← hs.instprof, ← hf.instprof]
  case refine_1.inr => rw [ht, hs.instprof]
  case refine_2.inl =>
    intro h' d p hne hp
    rw [ht] at hp
    exact hs.passed h' d p hne (hf.passed_others hne hp)
  case refine_2.inr =>
    rw [ht]
    exact hs.passed

theorem turns_frame (hi : s.Inv h) : Frame h s (turns dso replies h pmidlist s) :=
  foldlRecOn _ _ ⟨hi, rfl, fun _ _ _ _ hp => hp⟩ fun s' hs j _ => turn_frame s s' j hs

end Turn

section Table

variable {t : Table}

def Table.Inv (t : Table) : Prop :=
  ∀ h c, t.context h = some c → c.sent ≠ 0 → ∀ p, t.passed c.sent = some (h, p) → p = c.instprof

theorem context_set {l : List (Option Context)} (hc : (l.set i o)[h]?.join = some c) :
    h = i ∧ o = some c ∨ h ≠ i ∧ l[h]?.join = some c := by
  by_cases hi : i = h
  case pos =>
    subst hi
    rw [getElem?_set_self'] at hc
    cases hl : l[i]? <;> simp_all
  case neg => exact .inr ⟨fun he => hi he.symm, by rwa [getElem?_set_ne hi] at hc⟩

theorem Table.Inv.contexts {t' : Table} (hi : t.Inv) (hp : t'.passed = t.passed)
    (hc : ∀ h c, t'.context h = some c → c.sent = 0 ∨ t.context h = some c) : t'.Inv := by
  intro h c hc' h₀ p hp'
  rw [hp] at hp'
  obtain hz | hc := hc h c hc'
  case inl => exact absurd hz h₀
  case inr => exact hi h c hc h₀ p hp'

theorem newContext_inv (hi : t.Inv) : t.newContext.Inv := by
  unfold Table.newContext
  split
  case h_1 i _ =>
    refine hi.contexts rfl fun h c hc => ?_
    obtain ⟨-, ⟨⟩⟩ | ⟨-, hc⟩ := context_set hc
    case inl => exact .inl rfl
    case inr => exact .inr hc
  case h_2 =>
    refine hi.contexts rfl fun h c hc => ?_
    simp only [Table.context] at hc ⊢
    by_cases hl : h < t.contexts.length
    case pos => exact .inr (by rwa [getElem?_append_left hl] at hc)
    case neg =>
      rw [getElem?_append_right (Nat.le_of_not_lt hl)] at hc
      cases hk : h - t.contexts.length <;> rw [hk] at hc <;> cases hc
      exact .inl rfl

theorem dupContext_inv (hi : t.Inv) : (t.dupContext h).Inv := by
  unfold Table.dupContext
  split
  case h_1 => exact newContext_inv hi
  case h_2 => exact hi

theorem destroyContext_inv (hi : t.Inv) : (t.destroyContext h).Inv := by
  refine hi.contexts rfl fun h' c hc => ?_
  obtain ⟨-, ⟨⟩⟩ | ⟨-, hc⟩ := context_set hc
  exact .inr hc

-- The profile is to be sent again unless it is as it was.
theorem setProfile_sent {e : InstProfile.Edit} {ctx : InstProfile.Context} :
    (InstProfile.setProfile e ctx indom l).1.sent = false ∨
      (InstProfile.setProfile e ctx indom l).1 = ctx := by
  unfold InstProfile.setProfile
  split
  case isTrue => exact .inr rfl
  case isFalse =>
    split
    case isTrue => exact .inl rfl
    case isFalse =>
      simp only
      split
      case h_1 => exact .inl rfl
      case h_2 => exact .inl rfl

theorem setProfile_inv {f : InstProfile.Context → InstProfile.Context × Int}
    (hf : ∀ ctx, (f ctx).1.sent = false ∨ (f ctx).1 = ctx) (hi : t.Inv) :
    (t.setProfile f h).Inv := by
  unfold Table.setProfile
  split
  case h_2 => exact hi
  case h_1 c hc =>
    refine hi.contexts rfl fun h' c' hc' => ?_
    obtain ⟨rfl, ⟨⟩⟩ | ⟨-, hc'⟩ := context_set hc'
    case inr => exact .inr hc'
    case inl =>
      obtain hs | hs := hf ⟨c.instprof, true⟩
      case inl => exact .inl (by simp [hs])
      case inr => exact .inr (by simpa [hs] using hc)

theorem start_inv (hi : t.Inv) (hc : t.context h = some c) : (t.start c pmidlist).Inv h :=
  hi h c hc

theorem finish_inv (hi : t.Inv) (hc : t.context h = some c) (hf : Frame h (t.start c pmidlist) s) :
    (t.finish h s).Inv := by
  intro h' c' hc' h₀ p hp
  obtain ⟨rfl, ⟨⟩⟩ | ⟨hne, hc'⟩ := context_set hc'
  case inl => exact hf.inv h₀ p hp
  case inr => exact hi h' c' hc' h₀ p (hf.passed h' _ p hne hp)

def Kept (dso : Nat → Bool) (t : Table) : Op → Prop
  | .fetch h pmidlist replies => ∀ c, t.context h = some c →
    Run.Guarded (fun s j => some (turn dso replies h pmidlist s j)) (·.Ok dso h pmidlist)
      (t.start c pmidlist) (List.range pmidlist.length)
  | _ => True

theorem step_inv (t : Table) (op : Op) (hi : t.Inv) : (step dso t op).Inv := by
  cases op
  case newContext => exact newContext_inv hi
  case dupContext => exact dupContext_inv hi
  case destroyContext => exact destroyContext_inv hi
  case addProfile => exact setProfile_inv (fun _ => setProfile_sent) hi
  case delProfile => exact setProfile_inv (fun _ => setProfile_sent) hi
  case fetch h pmidlist replies =>
    simp only [step, Table.fetchLocal]
    split
    case h_1 => exact hi
    case h_2 c hc =>
      split
      case isTrue => exact hi
      case isFalse => exact finish_inv hi hc (turns_frame (start_inv hi hc))

theorem newContext_calls : t.newContext.calls = t.calls := by
  unfold Table.newContext
  split <;> rfl

theorem dupContext_calls : (t.dupContext h).calls = t.calls := by
  unfold Table.dupContext
  split
  case h_1 => exact newContext_calls
  case h_2 => rfl

theorem setProfile_calls : (t.setProfile f h).calls = t.calls := by
  unfold Table.setProfile
  split <;> rfl

theorem fetchLocal_allFresh (hi : t.Inv) (hs : AllFresh t.calls) :
    AllFresh (t.fetchLocal dso replies h pmidlist).1.calls ↔
      Kept dso t (.fetch h pmidlist replies) := by
  unfold Table.fetchLocal Kept
  split
  case h_1 hc => exact iff_of_true hs fun c hc' => by simp [hc] at hc'
  case h_2 c hc =>
    simp only [hc, Option.some.injEq, forall_eq']
    split
    case isTrue hl =>
      obtain rfl : pmidlist = [] := eq_nil_of_length_eq_zero (by omega)
      exact iff_of_true hs trivial
    case isFalse =>
      exact Run.foldl_iff_guarded turn_calls turn_allFresh turn_inv (start_inv hi hc) hs

theorem step_allFresh (t : Table) (op : Op) (hi : t.Inv) (hs : AllFresh t.calls) :
    AllFresh (step dso t op).calls ↔ Kept dso t op := by
  cases op
  case newContext => exact iff_of_true (by rwa [step, newContext_calls]) trivial
  case dupContext => exact iff_of_true (by rwa [step, dupContext_calls]) trivial
  case destroyContext => exact iff_of_true hs trivial
  case addProfile => exact iff_of_true (by rwa [step, setProfile_calls]) trivial
  case delProfile => exact iff_of_true (by rwa [step, setProfile_calls]) trivial
  case fetch => exact fetchLocal_allFresh hi hs

theorem turns_calls (hs : AllFresh (turns dso replies h pmidlist s).calls) : AllFresh s.calls :=
  foldlRecOn (motive := fun s' => AllFresh s'.calls → AllFresh s.calls) _ _ (fun hs => hs)
    (fun s' hi j _ hs => hi (turn_calls s' j hs)) hs

theorem step_calls (t : Table) (op : Op) (hs : AllFresh (step dso t op).calls) :
    AllFresh t.calls := by
  cases op
  case newContext => rwa [step, newContext_calls] at hs
  case dupContext => rwa [step, dupContext_calls] at hs
  case destroyContext => exact hs
  case addProfile => rwa [step, setProfile_calls] at hs
  case delProfile => rwa [step, setProfile_calls] at hs
  case fetch h pmidlist replies =>
    simp only [step, Table.fetchLocal] at hs
    split at hs
    case h_1 => exact hs
    case h_2 c hc =>
      split at hs
      case isTrue => exact hs
      case isFalse => exact turns_calls hs

def run (dso : Nat → Bool) (ops : List Op) : Table :=
  ops.foldl (step dso) .new

theorem run_fresh (dso : Nat → Bool) (ops : List Op) :
    (AllFresh (run dso ops).calls ↔
      Run.Guarded (fun t op => some (step dso t op)) (Kept dso) .new ops) ∧
    ∀ (t : Table) (replies : Nat → Reply) (h : Nat) (pmidlist : List Nat),
      (∃ c, t.context h = some c) → pmidlist ≠ [] →
      ∃ vset, (t.fetchLocal dso replies h pmidlist).2 = .ok vset ∧
        pmids vset = pmidlist.map some :=
  ⟨Run.foldl_iff_guarded step_calls step_allFresh step_inv (fun _ _ hc => by cases hc) nofun,
    fun _ _ _ _ ⟨_, hc⟩ hl => fetchLocal_pmids hc hl⟩

def oneEach : Reply where
  profile := 0
  fetch l := (0, l.map fun p => ⟨p, 1⟩)
  valid l _ := by
    rw [List.map_map]
    exact List.map_id l

def metric : Nat :=
  60 * 2 ^ 22

-- The second context excludes an instance, and fetches between two fetches of the first one.
theorem run_stale : ¬AllFresh (run (fun _ => true) [.newContext, .newContext,
    .delProfile 1 (60 * 2 ^ 22) (.ofList [7]), .fetch 0 [metric] fun _ => oneEach,
    .fetch 1 [metric] fun _ => oneEach, .fetch 0 [metric] fun _ => oneEach]).calls := by
  decide

end Table

end LocalFetch
