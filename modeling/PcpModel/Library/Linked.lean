import Mathlib.Data.List.Nodup

-- Singly linked lists of cells. `next` yields the reference in a cell's link field.
namespace Linked

open List Function Nat

variable {ρ : Type*}

-- The cells that are visited when following `next` from `o` until `e` is reached.
def Seg (next : ρ → Option ρ) (o : Option ρ) (e : Option ρ) : List ρ → Prop
  | [] => o = e
  | r :: rs => o = some r ∧ Seg next (next r) e rs

abbrev IsList (next : ρ → Option ρ) (o : Option ρ) (rs : List ρ) : Prop :=
  Seg next o none rs

variable {next next' : ρ → Option ρ} {o e : Option ρ} {r m : ρ} {rs rs₁ rs₂ : List ρ}

@[simp]
theorem seg_nil : Seg next o e [] ↔ o = e :=
  Iff.rfl

@[simp]
theorem seg_cons : Seg next o e (r :: rs) ↔ o = some r ∧ Seg next (next r) e rs :=
  Iff.rfl

theorem seg_append :
    Seg next o e (rs₁ ++ rs₂) ↔ ∃ m, Seg next o m rs₁ ∧ Seg next m e rs₂ := by
  induction rs₁ generalizing o
  case nil => simp
  case cons r rs hi => simp [hi, and_assoc]

theorem Seg.congr (h : Seg next o e rs) (hn : ∀ r ∈ rs, next' r = next r) : Seg next' o e rs := by
  induction rs generalizing o
  case nil => exact h
  case cons r rs hi =>
    have ⟨ho, hs⟩ := h
    refine ⟨ho, ?_⟩
    rw [hn r (by simp)]
    exact hi hs (fun r' hr' => hn r' (by simp [hr']))

theorem IsList.unique (h₁ : IsList next o rs₁) (h₂ : IsList next o rs₂) : rs₁ = rs₂ := by
  induction rs₁ generalizing o rs₂ <;> cases rs₂
  case nil.nil => rfl
  case cons.cons r₁ rs₁ hi r₂ rs₂ =>
    have ⟨ho₁, hs₁⟩ := h₁
    have ⟨ho₂, hs₂⟩ := h₂
    obtain rfl : r₁ = r₂ := Option.some.inj (ho₁.symm.trans ho₂)
    rw [hi hs₁ hs₂]
  all_goals simp_all

theorem IsList.nodup (h : IsList next o rs) : rs.Nodup := by
  induction rs generalizing o
  case nil => simp
  case cons r rs hi =>
    have ⟨_, hs⟩ := h
    refine nodup_cons.mpr ⟨fun hm => ?_, hi hs⟩
    have ⟨rs₁, rs₂, he⟩ := append_of_mem hm
    have ⟨_, _, h₂⟩ := seg_append.mp (he ▸ hs)
    have hl := congrArg length (IsList.unique hs h₂.right)
    simp [he] at hl
    omega

theorem IsList.head_eq (h : IsList next o rs) : o = rs.head? := by
  cases rs <;> simp_all

theorem IsList.next_eq (h : IsList next o (rs₁ ++ r :: rs₂)) : next r = rs₂.head? := by
  obtain ⟨_, _, _, hs⟩ := seg_append.mp h
  exact IsList.head_eq hs

-- The cells of a list that is not longer than the fuel.
def follow (next : ρ → Option ρ) : Nat → Option ρ → List ρ
  | 0, _ => []
  | _ + 1, none => []
  | n + 1, some r => r :: follow next n (next r)

theorem IsList.follow_eq (h : IsList next o rs) (hn : rs.length ≤ n) : follow next n o = rs := by
  induction rs generalizing o n
  case nil =>
    obtain rfl := seg_nil.mp h
    cases n <;> rfl
  case cons r rs hi =>
    obtain ⟨n, rfl⟩ := exists_eq_add_one.mpr (zero_lt_of_lt hn)
    obtain ⟨rfl, hs⟩ := h
    rw [follow, hi hs (le_of_succ_le_succ hn)]

section Update

variable [DecidableEq ρ]

theorem Seg.update_of_notMem (h : Seg next o e rs) (hr : r ∉ rs) (v : Option ρ) :
    Seg (update next r v) o e rs :=
  h.congr fun _ hr' => update_of_ne (ne_of_mem_of_not_mem hr' hr) v next

-- `prior->next = r->next`, where `r` directly follows `prior`.
theorem IsList.unlink (h : IsList next o (rs₁ ++ m :: r :: rs₂)) :
    IsList (update next m (next r)) o (rs₁ ++ m :: rs₂) := by
  have hd := IsList.nodup h
  have ⟨_, h₁, ho, _, h₂⟩ := seg_append.mp h
  simp only [nodup_append] at hd
  refine seg_append.mpr ⟨_, h₁.update_of_notMem ?_ _, ho, ?_⟩
  · exact fun hm => hd.right.right m hm m (by simp) rfl
  · simpa using h₂.update_of_notMem (by simp_all) _

-- `tail->next = r`, where `tail` is the last cell and `r` is not linked to anything.
theorem IsList.append_cell (h : IsList next o (rs ++ [m])) (hr : r ∉ rs ++ [m])
    (hn : next r = none) :
    IsList (update next m (some r)) o (rs ++ [m, r]) := by
  have hd := IsList.nodup h
  have ⟨_, h₁, ho, _⟩ := seg_append.mp h
  refine seg_append.mpr ⟨_, h₁.update_of_notMem ?_ _, ho, ?_⟩
  · exact fun hm => disjoint_of_nodup_append hd hm (by simp)
  · have : r ≠ m := by simp_all
    simp [update_of_ne this, hn]

-- `if (last == NULL) head = v; else last->next = v`
def attach (next : ρ → Option ρ) (head : Option ρ) (v : Option ρ) :
    Option ρ → (ρ → Option ρ) × Option ρ
  | none => (next, v)
  | some p => (Function.update next p v, head)

theorem attach_of_ne (h : last ≠ some r) : (attach next o e last).1 r = next r := by
  cases last
  case none => rfl
  case some p => exact update_of_ne (fun hr => h (congrArg some hr.symm)) _ _

theorem attach_of_notMem (h : r ∉ rs) : (attach next o e rs.getLast?).1 r = next r :=
  attach_of_ne fun hl => h (mem_of_getLast? hl)

theorem IsList.attach (h₁ : IsList next o rs₁) (h₂ : IsList next e rs₂)
    (hd : Disjoint rs₁ rs₂) : IsList (attach next o e rs₁.getLast?).1
      (attach next o e rs₁.getLast?).2 (rs₁ ++ rs₂) := by
  rcases rs₁.eq_nil_or_concat with rfl | ⟨rs, p, rfl⟩
  case inl => exact h₂
  case inr =>
    rw [concat_eq_append] at *
    have hn := IsList.nodup h₁
    obtain ⟨_, hs, rfl, -⟩ := seg_append.mp h₁
    rw [getLast?_append, getLast?_singleton, Option.some_or, append_assoc]
    refine seg_append.mpr ⟨_, hs.update_of_notMem ?_ _, rfl, ?_⟩
    · exact fun hp => disjoint_of_nodup_append hn hp (by simp)
    · simp only [Linked.attach, update_self]
      exact h₂.update_of_notMem (fun hp => hd (by simp) hp) _

theorem IsList.detach (h : IsList next o (rs₁ ++ r :: rs₂)) :
    IsList (Linked.attach next o (next r) rs₁.getLast?).1
      (Linked.attach next o (next r) rs₁.getLast?).2 (rs₁ ++ rs₂) := by
  rcases rs₁.eq_nil_or_concat with rfl | ⟨rs, p, rfl⟩
  case inl => exact h.right
  case inr =>
    rw [concat_eq_append] at *
    rw [append_assoc] at *
    rw [getLast?_append, getLast?_singleton]
    exact h.unlink

end Update

-- The loop `for (p = o; p != NULL; p = p->next) { if (found(p)) break; prior = p; }`.
def search (next : ρ → Option ρ) (found : ρ → Bool) :
    Nat → Option ρ → Option ρ → Option (Option ρ × Option ρ)
  | 0, _, _ => none
  | _ + 1, prior, none => some (prior, none)
  | n + 1, prior, some r =>
    if found r then some (prior, some r) else search next found n (some r) (next r)

variable {found : ρ → Bool} {n : Nat} {prior : Option ρ}

theorem search_notFound (h : IsList next o rs) (hf : ∀ r ∈ rs, found r = false)
    (hn : rs.length < n) :
    search next found n prior o = some ((prior :: rs.map some).getLast (by simp), none) := by
  induction rs generalizing o n prior <;> cases n <;> simp_all [search]

theorem search_found (h : IsList next o (rs₁ ++ r :: rs₂)) (hf : ∀ r ∈ rs₁, found r = false)
    (hr : found r) (hn : rs₁.length < n) :
    search next found n prior o = some ((prior :: rs₁.map some).getLast (by simp), some r) := by
  induction rs₁ generalizing o n prior <;> cases n <;> simp_all [search]

theorem search_eq_find (h : IsList next o rs) (hn : rs.length < n) :
    (search next found n prior o).map (·.2) = some (rs.find? found) := by
  induction rs generalizing o n prior
  case nil =>
    obtain ⟨n, rfl⟩ := exists_eq_add_one.mpr hn
    obtain rfl := seg_nil.mp h
    rfl
  case cons r rs hi =>
    obtain ⟨n, rfl⟩ := exists_eq_add_one.mpr (zero_lt_of_lt hn)
    obtain ⟨rfl, hs⟩ := h
    rw [search]
    cases hr : found r
    case true => simp [hr]
    case false => simpa [hr] using hi hs (lt_of_succ_lt_succ hn)

-- What a traversal of a list that is no longer than the fuel can come back with.
theorem search_cases (found : ρ → Bool) (h : IsList next o rs) (hn : rs.length < n) :
    (∃ rs₁ r rs₂, rs = rs₁ ++ r :: rs₂ ∧ found r ∧ (∀ r' ∈ rs₁, found r' = false) ∧
      search next found n none o = some (rs₁.getLast?, some r)) ∨
    ((∀ r ∈ rs, found r = false) ∧ ∃ prior, search next found n none o = some (prior, none)) := by
  have hl (rs : List ρ) : ((none : Option ρ) :: rs.map some).getLast (by simp) = rs.getLast? := by
    rcases rs.eq_nil_or_concat' with rfl | ⟨_, _, rfl⟩ <;> simp
  cases hf : rs.find? found
  case none =>
    exact .inr ⟨by simpa using hf, _, search_notFound h (by simpa using hf) hn⟩
  case some r =>
    have ⟨hr, rs₁, rs₂, he, hb⟩ := find?_eq_some_iff_append.mp hf
    have hb : ∀ r' ∈ rs₁, found r' = false := by simpa using hb
    simp only [he, length_append, length_cons] at hn
    refine .inl ⟨rs₁, r, rs₂, he, hr, hb, ?_⟩
    rw [search_found (he ▸ h) hb hr (by omega), hl]

end Linked
