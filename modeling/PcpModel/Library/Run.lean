import Mathlib.Logic.Basic

-- Runs of a machine. A step is undefined (`none`) when the modelled code has no behavior.
namespace Run

open Option

variable {σ ι : Type*}

def exec (step : σ → ι → Option σ) : σ → List ι → Option σ
  | s, [] => some s
  | s, i :: is => (step s i).bind (exec step · is)

-- Every step of the run meets `ok` in the state from which it is taken.
def Guarded (step : σ → ι → Option σ) (ok : σ → ι → Prop) : σ → List ι → Prop
  | _, [] => True
  | s, i :: is => ok s i ∧ ∀ s', step s i = some s' → Guarded step ok s' is

-- Every state of the run satisfies `P`.
def Always (step : σ → ι → Option σ) (P : σ → Prop) : σ → List ι → Prop
  | s, [] => P s
  | s, i :: is => P s ∧ ∀ s', step s i = some s' → Always step P s' is

variable {step : σ → ι → Option σ} {ok allow : σ → ι → Prop} {P I : σ → Prop}

theorem exec_append :
    exec step s (is ++ js) = (exec step s is).bind (exec step · js) := by
  induction is generalizing s
  case nil => rfl
  case cons i is ih =>
    cases hs : step s i
    case none => simp [exec, hs]
    case some s' => simp [exec, hs, ih]

theorem exec_flatMap {rs : List ρ} :
    exec (fun s r => exec step s (f r)) s rs = exec step s (rs.flatMap f) := by
  induction rs generalizing s
  case nil => rfl
  case cons r rs ih =>
    rw [List.flatMap_cons, exec_append, exec]
    simp [ih]

theorem Guarded.cons (hok : ok s i) (hs : step s i = some s')
    (hg : Guarded step ok s' is) : Guarded step ok s (i :: is) := by
  refine ⟨hok, fun s₁ h₁ => ?_⟩
  cases hs.symm.trans h₁
  exact hg

instance Guarded.decidable [∀ s i, Decidable (ok s i)] :
    (s : σ) → (is : List ι) → Decidable (Guarded step ok s is)
  | _, [] => .isTrue trivial
  | s, i :: is =>
    match h : step s i with
    | none => decidable_of_iff (ok s i) (by simp [Guarded, h])
    | some s' =>
      have := decidable s' is
      decidable_of_iff (ok s i ∧ Guarded step ok s' is) (by simp [Guarded, h])

-- The invariant rule: it also establishes that the run is defined.
theorem exec_invariant
    (hs : ∀ s i, P s → ok s i → ∃ s', step s i = some s' ∧ P s')
    (h₀ : P s) (hg : Guarded step ok s is) : ∃ s', exec step s is = some s' ∧ P s' := by
  induction is generalizing s
  case nil => exact ⟨s, rfl, h₀⟩
  case cons i is hi =>
    have ⟨hok, hg⟩ := hg
    have ⟨s₁, h₁, hp⟩ := hs s i h₀ hok
    have ⟨s₂, h₂, hp₂⟩ := hi hp (hg s₁ h₁)
    exact ⟨s₂, by simp [exec, h₁, h₂], hp₂⟩

theorem exec_preserves (hs : ∀ s i s', P s → step s i = some s' → P s')
    (h₀ : P s) (he : exec step s is = some s') : P s' := by
  induction is generalizing s
  case nil =>
    cases he
    exact h₀
  case cons i is ih =>
    obtain ⟨s₁, h₁, he⟩ := bind_eq_some_iff.mp he
    exact ih (hs s i s₁ h₀ h₁) he

theorem always_invariant (hp : ∀ s, I s → P s)
    (hs : ∀ s i, I s → ok s i → ∃ s', step s i = some s' ∧ I s')
    (h₀ : I s) (hg : Guarded step ok s is) : Always step P s is := by
  induction is generalizing s
  case nil => exact hp s h₀
  case cons i is hi =>
    have ⟨hok, hg⟩ := hg
    have ⟨s₁, h₁, hi₁⟩ := hs s i h₀ hok
    refine ⟨hp s h₀, fun s' h' => ?_⟩
    cases h₁.symm.trans h'
    exact hi hi₁ (hg s₁ h₁)

theorem Always.head (h : Always step P s is) : P s := by
  cases is
  case nil => exact h
  case cons => exact h.left

theorem guarded_true : ∀ {is : List ι} {s : σ}, Guarded step (fun _ _ => True) s is
  | [], _ => trivial
  | _ :: _, _ => ⟨trivial, fun _ _ => guarded_true⟩

theorem guarded_of_forall {p : ι → Prop} : ∀ {is : List ι} {s : σ}, (∀ i ∈ is, p i) →
    Guarded step (fun _ i => p i) s is
  | [], _, _ => trivial
  | _ :: _, _, h => ⟨h _ List.mem_cons_self, fun _ _ =>
      guarded_of_forall fun i hi => h i (List.mem_cons_of_mem _ hi)⟩

-- If `ok` says exactly which steps keep `P`, then it says exactly in which runs `P` always holds.
theorem always_iff_guarded (hp : ∀ s, I s → P s)
    (hs : ∀ s i, I s → allow s i → ∃ s', step s i = some s' ∧ (P s' ↔ ok s i) ∧ (ok s i → I s'))
    (hi : I s) (hg : Guarded step allow s is) :
    Always step P s is ↔ Guarded step ok s is := by
  induction is generalizing s
  case nil => exact iff_of_true (hp s hi) trivial
  case cons i is ih =>
    have ⟨ha, hg⟩ := hg
    have ⟨s₁, h₁, hok, hi₁⟩ := hs s i hi ha
    constructor
    · intro ⟨_, hr⟩
      have hk := hok.mp (hr s₁ h₁).head
      exact .cons hk h₁ <| (ih (hi₁ hk) (hg s₁ h₁)).mp (hr s₁ h₁)
    · intro ⟨hk, hr⟩
      refine ⟨hp s hi, fun s' h' => ?_⟩
      cases h₁.symm.trans h'
      exact (ih (hi₁ hk) (hg s₁ h₁)).mpr (hr s₁ h₁)

-- Two conditions on steps that agree wherever an invariant holds which they keep.
theorem guarded_congr (hok : ∀ s i, I s → (allow s i ↔ ok s i))
    (hs : ∀ s i s', I s → ok s i → step s i = some s' → I s') (hi : I s) :
    Guarded step allow s is ↔ Guarded step ok s is := by
  induction is generalizing s
  case nil => exact Iff.rfl
  case cons i is ih =>
    refine (and_congr (hok s i hi) Iff.rfl).trans <| and_congr_right fun hk => ?_
    exact forall_congr' fun s' => imp_congr_right fun h' => ih (hs s i s' hi hk h')

-- A machine follows another one whose steps are defined in all of its states.
theorem exec_follows {ok : τ → ι → Prop} {R : σ → τ → Prop}
    (hs : ∀ s t i s', R s t → ok t i → step s i = some s' → R s' (f t i)) (h₀ : R s t)
    (hg : Guarded (fun t i => some (f t i)) ok t is)
    (he : exec step s is = some s') : R s' (is.foldl f t) := by
  induction is generalizing s t
  case nil =>
    cases he
    exact h₀
  case cons i is ih =>
    obtain ⟨s₁, h₁, he⟩ := bind_eq_some_iff.mp he
    exact ih (hs s t i s₁ h₀ hg.left h₁) (hg.right _ rfl) he

-- A property that is lost for good when a step does not meet `ok`.
theorem foldl_iff_guarded (hb : ∀ s i, P (f s i) → P s)
    (hs : ∀ s i, I s → P s → (P (f s i) ↔ ok s i)) (hi : ∀ s i, I s → I (f s i)) (h₀ : I s)
    (hp : P s) :
    P (is.foldl f s) ↔ Guarded (fun s i => some (f s i)) ok s is := by
  have hback : ∀ {s : σ} {is : List ι}, P (is.foldl f s) → P s := by
    intro s is
    induction is generalizing s
    case nil => exact fun h => h
    case cons i is ih => exact fun h => hb s i (ih h)
  induction is generalizing s
  case nil => exact iff_of_true hp trivial
  case cons i is ih =>
    rw [List.foldl_cons]
    constructor
    case mp =>
      intro h
      have hp₁ := hback h
      exact .cons ((hs s i h₀ hp).mp hp₁) rfl ((ih (hi s i h₀) hp₁).mp h)
    case mpr =>
      intro ⟨hok, hg⟩
      exact (ih (hi s i h₀) ((hs s i h₀ hp).mpr hok)).mpr (hg _ rfl)

theorem rel_map {R : α → β → Prop} {f : α → γ} {g : β → δ} (h : Rel R o o')
    (hf : ∀ a b, R a b → S (f a) (g b)) :
    Rel S (o.map f) (o'.map g) := by
  cases h
  case some h => exact .some (hf _ _ h)
  case none => exact .none

theorem map_eq_of_rel {R : α → β → Prop} {g : β → γ} (h : Rel R o o')
    (hf : ∀ a b, R a b → f a = g b) :
    o.map f = o'.map g := by
  cases h
  case some h => exact congrArg some (hf _ _ h)
  case none => rfl

-- Two machines whose steps are either both undefined, or lead to related states.
theorem exec_rel {R : σ → τ → Prop}
    (hs : ∀ s t i, R s t → ok s i → Rel R (step s i) (step' t i)) (h₀ : R s t)
    (hg : Guarded step ok s is) :
    Rel R (exec step s is) (exec step' t is) := by
  induction is generalizing s t
  case nil => exact .some h₀
  case cons i is ih =>
    have ⟨hok, hg⟩ := hg
    have h := hs s t i h₀ hok
    cases h₁ : step s i <;> cases h₂ : step' t i <;> rw [h₁, h₂] at h <;> cases h
    case none.none =>
      simp only [exec, h₁, h₂]
      exact .none
    case some.some s₁ t₁ h => simpa [exec, h₁, h₂] using ih h (hg s₁ h₁)

end Run
