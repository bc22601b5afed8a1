import Mathlib.Algebra.Order.BigOperators.Group.List
import Mathlib.Algebra.Order.Group.Nat
import PcpModel.Extract.Merge

namespace Extract

open Merging List Item

variable {α : Type}

namespace Item

def record? : Item α → Option (Record α)
  | data r => some r
  | _ => none

def mark? : Item α → Option Stamp
  | mark t => some t
  | _ => none

end Item

-- The time of a mark after a record. It is normalised.
def advance (t : Stamp) : Stamp :=
  ⟨t.sec + (t.usec + 1000) / 1000000, (t.usec + 1000) % 1000000⟩

def Archive.within (a : Archive α) (winstart winend : Stamp) : List (Record α) :=
  a.log.filter fun r => winstart ≤ r.stamp ∧ r.stamp ≤ winend

def EndsEarlier (arch : List (Archive α)) (winstart winend : Stamp) (a : Archive α) : Prop :=
  winstart ≤ a.last ∧ a.last ≤ winend ∧ a.last < logend arch

instance (arch : List (Archive α)) (winstart winend : Stamp) (a : Archive α) :
    Decidable (EndsEarlier arch winstart winend a) :=
  inferInstanceAs (Decidable (_ ∧ _ ∧ _))

structure Extracted (arch : List (Archive α)) (winstart winend : Stamp) (volume : List (Item α)) :
    Prop where
  records : (volume.filterMap Item.record?).Perm (arch.flatMap (·.within winstart winend))
  marks : (volume.filterMap Item.mark?).Perm
    ((arch.filter (EndsEarlier arch winstart winend)).map (advance ·.last))
  sorted : volume.Pairwise (·.stamp ≤ ·.stamp)

-- Only the first one of two marks at the end of the input is written.
def Tied (arch : List (Archive α)) (i k : Nat) : Prop :=
  k < i ∧ (∃ a b, arch[i]? = some a ∧ arch[k]? = some b ∧ a.last = b.last ∧
    advance a.last = logend arch) ∧ ∀ j c, arch[j]? = some c → c.last = logend arch → j < k

-- The mark of each archive that ends before the others can be written.
def Markable (arch : List (Archive α)) (winstart winend : Stamp) : Prop :=
  ∀ i a, arch[i]? = some a → EndsEarlier arch winstart winend a →
    a.last.usec ≠ 999000 ∧ advance a.last ≤ winend ∧ advance a.last ≤ logend arch ∧
      ∀ k, ¬Tied arch i k

theorem createmark_eq_advance {t : Stamp} (h : t.usec < 1000000) (hn : t.usec ≠ 999000) :
    createmark t = advance t := by
  unfold createmark advance
  by_cases hu : t.usec + 1000 > 1000000
  · simp only [hu, if_true, Stamp.mk.injEq]
    omega
  · simp only [hu, if_false, Stamp.mk.injEq]
    omega

theorem createmark_injective (ht : t.usec < 1000000) (hu : u.usec < 1000000)
    (h : createmark t = createmark u) : t = u := by
  obtain ⟨ts, tu⟩ := t
  obtain ⟨us, uu⟩ := u
  simp only [createmark] at h ht hu
  simp only [Stamp.mk.injEq]
  split at h <;> split at h <;> simp only [Stamp.mk.injEq] at h <;> omega

theorem createmark_usec (h : t.usec = 999000) : (createmark t).usec = 1000000 := by
  simp [createmark, h]

namespace Archive

variable (a : Archive α)

theorem last_usec : a.last.usec < 1000000 :=
  a.normal _ (getLast_mem a.ne)

theorem le_last (h : r ∈ a.log) : r.stamp ≤ a.last := by
  have he := dropLast_append_getLast a.ne
  have hs := a.sorted
  rw [← he] at h hs
  obtain h | h := mem_append.mp h
  · exact (pairwise_append.mp hs).right.right r h _ (mem_singleton_self _)
  · rw [mem_singleton.mp h]
    exact le_rfl

def selected (winstart : Stamp) : List (Record α) :=
  a.log.filter (winstart ≤ ·.stamp)

theorem dropWhile_eq_selected (winstart : Stamp) :
    a.log.dropWhile (fun r => tvcmp r.stamp winstart < 0) = a.selected winstart := by
  suffices ∀ l : List (Record α), l.Pairwise (·.stamp ≤ ·.stamp) →
      l.dropWhile (fun r => tvcmp r.stamp winstart < 0) = l.filter (winstart ≤ ·.stamp) from
    this a.log a.sorted
  intro l hl
  simp only [tvcmp_neg]
  induction l
  case nil => rfl
  case cons r l ih =>
    obtain ⟨hr, hl⟩ := pairwise_cons.mp hl
    by_cases h : r.stamp < winstart
    · simp [h, ih hl]
    · have h := not_lt.mp h
      have : ∀ r' ∈ l, winstart ≤ r'.stamp := fun r' hr' => h.trans (hr r' hr')
      simpa [h] using (filter_eq_self.mpr (by simpa using this)).symm

def items (winstart : Stamp) : List (Item α) :=
  if winstart ≤ a.last then
    (a.selected winstart).map .data ++ [.mark (createmark a.last)]
  else
    []

theorem marked_selected (winstart : Stamp) :
    marked true ⟨0, 0⟩ (a.selected winstart) = a.items winstart := by
  unfold items
  split
  case isTrue h =>
    have hl : (a.selected winstart).getLast? = some (a.log.getLast a.ne) := by
      have h : winstart ≤ (a.log.getLast a.ne).stamp := h
      have hs : a.selected winstart = a.log.dropLast.filter (winstart ≤ ·.stamp) ++
          [a.log.getLast a.ne] := by
        conv_lhs => rw [selected, ← dropLast_append_getLast a.ne]
        simp [h]
      rw [hs, getLast?_concat]
    simp [marked, hl, last]
  case isFalse h =>
    have hs : a.selected winstart = [] := by
      refine filter_eq_nil_iff.mpr fun r hr hw => h ?_
      exact (of_decide_eq_true hw).trans (a.le_last hr)
    simp [marked, hs]

theorem items_sorted (winstart : Stamp) :
    (a.items winstart).Pairwise (·.stamp ≤ ·.stamp) := by
  unfold items
  split
  case isTrue h =>
    refine pairwise_append.mpr ⟨?_, pairwise_singleton .., ?_⟩
    · exact pairwise_map.mpr (a.sorted.filter _)
    · intro x hx y hy
      obtain ⟨r, hr, rfl⟩ := mem_map.mp hx
      obtain rfl := mem_singleton.mp hy
      have hle : r.stamp ≤ a.last := a.le_last (mem_of_mem_filter hr)
      have hlt := lt_createmark a.last
      simp only [stamp]
      exact hle.trans hlt.le
  case isFalse => exact .nil

theorem mem_items (hx : x ∈ a.items winstart) :
    winstart ≤ a.last ∧
      ((∃ r ∈ a.log, x = .data r ∧ winstart ≤ r.stamp) ∨ x = .mark (createmark a.last)) := by
  unfold items at hx
  split at hx
  case isFalse => simp at hx
  case isTrue h =>
    refine ⟨h, ?_⟩
    obtain hx | hx := mem_append.mp hx
    · obtain ⟨r, hr, rfl⟩ := mem_map.mp hx
      obtain ⟨hr, hw⟩ := mem_filter.mp hr
      exact .inl ⟨r, hr, rfl, of_decide_eq_true hw⟩
    · exact .inr (mem_singleton.mp hx)

theorem records_items (winstart : Stamp) :
    (a.items winstart).filterMap record? = a.selected winstart := by
  unfold items
  split
  case isTrue h => simp [Function.comp_def, record?]
  case isFalse h =>
    refine (filter_eq_nil_iff.mpr fun r hr hw => h ?_).symm
    exact (of_decide_eq_true hw).trans (a.le_last hr)

theorem marks_items (winstart : Stamp) :
    (a.items winstart).filterMap mark? =
      if winstart ≤ a.last then [createmark a.last] else [] := by
  unfold items
  split <;> simp [mark?]

end Archive

theorem zero_le (t : Stamp) : ⟨0, 0⟩ ≤ t := by
  simp only [Stamp.le_iff]
  omega

theorem foldl_max_eq (l : List Stamp) (t : Stamp) :
    (∀ u ∈ t :: l, u ≤ l.foldl max t) ∧ l.foldl max t ∈ t :: l := by
  induction l generalizing t
  case nil => simp
  case cons u l ih =>
    obtain ⟨hle, hm⟩ := ih (max t u)
    simp only [forall_mem_cons, max_le_iff] at hle
    simp only [foldl_cons, forall_mem_cons]
    refine ⟨⟨hle.left.left, hle.left.right, hle.right⟩, ?_⟩
    obtain hm | hm := mem_cons.mp hm
    · rw [hm]
      obtain h | h := max_choice t u <;> simp [h]
    · exact mem_cons_of_mem _ (mem_cons_of_mem _ hm)

theorem flatMap_ite {p : τ → Prop} [DecidablePred p] {f : τ → β} {l : List τ} :
    (l.flatMap fun x => if p x then [f x] else []) = (l.filter p).map f := by
  induction l
  case nil => rfl
  case cons x l ih => by_cases hx : p x <;> simp [hx, ih]

section Logend

variable {arch : List (Archive α)} {a : Archive α}

theorem last_le_logend (h : a ∈ arch) : a.last ≤ logend arch :=
  (foldl_max_eq _ _).left _ (mem_cons_of_mem _ (mem_map_of_mem h))

theorem exists_logend (h : t < logend arch) :
    ∃ (j : Nat) (c : Archive α), arch[j]? = some c ∧ c.last = logend arch := by
  obtain hm | hm := mem_cons.mp (foldl_max_eq (arch.map Archive.last) ⟨0, 0⟩).right
  · have h : t < ⟨0, 0⟩ := hm ▸ h
    exact absurd h (not_lt.mpr (zero_le t))
  · obtain ⟨c, hc, he⟩ := mem_map.mp hm
    obtain ⟨j, hj⟩ := mem_iff_getElem?.mp hc
    exact ⟨j, c, hj, he⟩

theorem exists_of_mem_range (hi : i ∈ range arch.length) : ∃ a, arch[i]? = some a :=
  ⟨_, getElem?_eq_getElem (mem_range.mp hi)⟩

theorem range_map (d : β) (f : Archive α → β) :
    (range arch.length).map (fun i => arch[i]?.elim d f) = arch.map f := by
  refine ext_getElem (by simp) fun i hi _ => ?_
  have hi : i < arch.length := by simpa using hi
  simp [hi]

theorem range_flatMap (f : Archive α → List β) :
    (range arch.length).flatMap (fun i => arch[i]?.elim [] f) = arch.flatMap f := by
  rw [flatMap_def, range_map, ← flatMap_def]

end Logend

section Start

variable (arch : List (Archive α)) (winstart winend : Stamp)

def inputs (i : Nat) : List (Item α) :=
  arch[i]?.elim [] (Archive.items · winstart)

theorem start_seqs : (start arch winstart winend).seqs = inputs arch winstart := by
  funext i
  simp only [State.seqs, start, inputs, getElem?_map]
  cases arch[i]?
  case none => rfl
  case some a =>
    exact (congrArg _ (a.dropWhile_eq_selected winstart)).trans (a.marked_selected winstart)

theorem inputs_sorted : Sorted stamp (inputs arch winstart) := by
  intro i
  unfold inputs
  cases arch[i]?
  case none => exact .nil
  case some a => exact a.items_sorted winstart

variable {arch winstart winend}

theorem inputs_ne_nil (h : inputs arch winstart i ≠ []) : i ∈ range arch.length := by
  refine mem_range.mpr (Nat.lt_of_not_le fun hi => h ?_)
  simp [inputs, getElem?_eq_none hi]

-- Only the last archive can have a record at the time that stands for no time.
def NoZero (arch : List (Archive α)) (winstart : Stamp) : Prop :=
  ∀ a ∈ arch.dropLast, ∀ r ∈ a.log, winstart ≤ r.stamp → r.stamp ≠ ⟨0, 0⟩

theorem start_inv (hz : NoZero arch winstart) :
    State.Inv ⟨false, logend arch⟩ winstart winend (inputs arch winstart)
      (start arch winstart winend) [] where
  window := ⟨rfl, rfl⟩
  ok := by
    intro b hb
    obtain ⟨a, ha, rfl⟩ := mem_map.mp hb
    exact ⟨a.sorted, nofun, nofun, nofun, nofun⟩
  path := start_seqs arch winstart winend ▸ .refl
  zero := by
    intro j hj x hx
    have hj : j + 1 < arch.length := by simpa [start] using hj
    have ha : arch[j]? = some arch[j] := getElem?_eq_getElem _
    rw [inputs, ha] at hx
    obtain ⟨-, ⟨r, hr, rfl, hw⟩ | rfl⟩ := arch[j].mem_items hx
    · refine hz _ (mem_of_getElem? (i := j) ?_) r hr hw
      rw [getElem?_dropLast, if_pos (by omega), ha]
    · intro h
      have := lt_createmark arch[j].last
      rw [stamp] at h
      rw [h] at this
      exact absurd this (not_lt.mpr (zero_le _))
  limit := nofun
  rlready := rfl
  labelled := rfl
  volume := rfl
  first := fun _ => ⟨rfl, fun b hb => by
    obtain ⟨a, ha, rfl⟩ := mem_map.mp hb
    rfl⟩
  unread := fun _ _ _ => .inl rfl
  ended := fun _ => .inl rfl

theorem length_inputs : ((range arch.length).flatMap (inputs arch winstart)).length ≤
    (arch.map (·.log.length + 1)).sum := by
  have he : (range arch.length).flatMap (inputs arch winstart) =
      arch.flatMap (·.items winstart) := range_flatMap _
  rw [he, length_flatMap]
  refine sum_le_sum fun a _ => ?_
  unfold Archive.items
  split
  · simp only [length_append, length_map]
    exact Nat.add_le_add_right (length_filter_le ..) 1
  · simp

theorem extract_eq (winend : Stamp) (hz : NoZero arch winstart) :
    ∃ f l g, extract false winstart winend arch = some (State.output f l) ∧ (f → l = []) ∧
      State.Final ⟨false, logend arch⟩ winend (inputs arch winstart) l g := by
  refine (start_inv hz).loop rfl (inputs_sorted arch winstart) (fun l g p => ?_) ?_
    (N := (arch.map (·.log.length + 1)).sum)
  · exact (p.length_le nodup_range fun i => inputs_ne_nil).trans length_inputs
  · simp [iterations]
    omega

end Start

theorem before_last {l : List (Nat × Item α)}
    (ho : (l ++ [p, q]).Pairwise (Before stamp)) (hx : x ∈ l ++ [p, q]) (hn : x ≠ q) :
    Before stamp x q := by
  rw [append_cons] at ho hx
  refine (pairwise_append.mp ho).right.right x ?_ q (mem_singleton_self q)
  exact (mem_append.mp hx).resolve_right fun hx => hn (mem_singleton.mp hx)

namespace State.Final

variable {arch : List (Archive α)} {winstart winend : Stamp} {l : List (Nat × Item α)}
  {g : Nat → List (Item α)} {i : Nat} {a : Archive α}

variable (h : State.Final ⟨false, logend arch⟩ winend (inputs arch winstart) l g)
include h

theorem taken_append (hi : arch[i]? = some a) : taken l i ++ g i = a.items winstart := by
  rw [h.path.taken_append_rest, inputs, hi]
  rfl

theorem mem_items (hp : (i, x) ∈ l) : ∃ a, arch[i]? = some a ∧ x ∈ a.items winstart := by
  have hx := h.path.mem_of_mem hp
  rw [inputs] at hx
  cases hi : arch[i]?
  case none => simp [hi] at hx
  case some a =>
    rw [hi] at hx
    exact ⟨a, rfl, hx⟩

theorem lt_of_rest (hi : arch[i]? = some a) (hr : .data r ∈ g i) :
    winend < r.stamp := by
  have hx : .data r ∈ a.items winstart := h.taken_append hi ▸ mem_append_right _ hr
  obtain ⟨-, ⟨_, hm, he, -⟩ | he⟩ := a.mem_items hx
  · cases he
    have hle : r.stamp ≤ logend arch :=
      (a.le_last hm).trans (last_le_logend (mem_of_getElem? hi))
    obtain hb | ⟨hb, -⟩ := h.rest
    · exact (hb i _ hr).resolve_left (not_lt.mpr hle)
    · obtain ⟨t, ht⟩ := hb i _ hr
      cases ht
  · cases he

theorem records_taken (hi : arch[i]? = some a) :
    (taken l i).filterMap record? = a.within winstart winend := by
  have hs : (taken l i).filterMap record? ++ (g i).filterMap record? =
      a.selected winstart := by
    rw [← filterMap_append, h.taken_append hi, a.records_items]
  have hw : a.within winstart winend = (a.selected winstart).filter (·.stamp ≤ winend) := by
    simp [Archive.within, Archive.selected, Bool.and_comm]
  have hl : ∀ r ∈ (taken l i).filterMap record?, r.stamp ≤ winend := by
    intro r hr
    obtain ⟨x, hx, hr⟩ := mem_filterMap.mp hr
    cases x <;> cases hr
    exact (h.limit _ (mem_taken.mp hx)).right
  have hg : ∀ r ∈ (g i).filterMap record?, ¬r.stamp ≤ winend := by
    intro r hr
    obtain ⟨x, hx, hr⟩ := mem_filterMap.mp hr
    cases x <;> cases hr
    exact not_le.mpr (h.lt_of_rest hi hx)
  rw [hw, ← hs, filter_append, filter_eq_self.mpr (by simpa using hl),
    filter_eq_nil_iff.mpr (by simpa using hg), append_nil]

theorem mark_mem (hi : arch[i]? = some a) (hp : (i, .mark t) ∈ l) :
    t = createmark a.last ∧ EndsEarlier arch winstart winend a := by
  obtain ⟨b, hb, hx⟩ := h.mem_items hp
  cases hi.symm.trans hb
  obtain ⟨hw, ⟨_, -, he, -⟩ | he⟩ := a.mem_items hx
  · cases he
  · have ht : t = createmark a.last := mark.inj he
    obtain ⟨hl, he⟩ := h.limit _ hp
    have hlt : a.last < t := ht ▸ lt_createmark a.last
    exact ⟨ht, hw, (hlt.trans_le he).le, hlt.trans_le hl⟩

theorem marks_taken (hi : arch[i]? = some a) (hp : (i, .mark (createmark a.last)) ∈ l) :
    (taken l i).filterMap mark? = [createmark a.last] := by
  have hs : (taken l i).filterMap mark? ++ (g i).filterMap mark? =
      [createmark a.last] := by
    rw [← filterMap_append, h.taken_append hi, a.marks_items,
      if_pos (h.mark_mem hi hp).right.left]
  obtain ⟨hs, -⟩ | ⟨hs, -⟩ := append_eq_singleton_iff.mp hs
  · have hm : createmark a.last ∈ (taken l i).filterMap mark? :=
      mem_filterMap.mpr ⟨_, mem_taken.mpr hp, rfl⟩
    simp [hs] at hm
  · exact hs

theorem marks_not_taken (hi : arch[i]? = some a) (hp : (i, .mark (createmark a.last)) ∉ l) :
    (taken l i).filterMap mark? = [] := by
  refine eq_nil_iff_forall_not_mem.mpr fun t ht => hp ?_
  obtain ⟨x, hx, ht⟩ := mem_filterMap.mp ht
  cases x <;> cases ht
  have hx := mem_taken.mp hx
  exact (h.mark_mem hi hx).left ▸ hx

theorem perm_taken : (l.map Prod.snd).Perm ((range arch.length).flatMap (taken l)) := by
  refine (flatMap_taken_perm nodup_range fun p hp => ?_).symm
  exact inputs_ne_nil (ne_nil_of_mem (h.path.mem_of_mem hp))

theorem tied (hi : arch[i]? = some a) (hu : a.last.usec ≠ 999000)
    (hl : advance a.last ≤ logend arch)
    (hp : (i, .mark (createmark a.last)) ∉ l) (hg : .mark (createmark a.last) ∈ g i)
    (hk : (k, .mark t) ∈ l)
    (hb : ∀ (j : Nat) (c : Archive α), arch[j]? = some c → c.last = logend arch →
      logend arch < t ∨ logend arch = t ∧ j ≤ k)
    (he : ∃ (j : Nat) (c : Archive α), arch[j]? = some c ∧ c.last = logend arch) :
    Tied arch i k := by
  have hc := createmark_eq_advance a.last_usec hu
  obtain ⟨b, hkb, -⟩ := h.mem_items hk
  have ht := (h.mark_mem hkb hk).left
  have hkm := h.path.before_rest (inputs_sorted arch winstart) _ hk i _ hg
  simp only [Before, hc] at hkm
  obtain ⟨hlt, hte, hle⟩ : logend arch = t ∧ t = advance a.last ∧ k ≤ i := by
    obtain ⟨j, c, hj, hcl⟩ := he
    obtain hlt | ⟨hlt, hle⟩ := hkm
    · obtain hlt' | ⟨rfl, -⟩ := hb j c hj hcl
      · exact absurd (hlt'.trans hlt) (not_lt.mpr hl)
      · exact absurd hlt (not_lt.mpr hl)
    · obtain hlt' | ⟨rfl, -⟩ := hb j c hj hcl
      · exact absurd (hlt'.trans_eq hlt) (not_lt.mpr hl)
      · exact ⟨rfl, hlt, hle⟩
  have hki : k ≠ i := by
    rintro rfl
    exact hp (hc ▸ hte ▸ hk)
  refine ⟨lt_of_le_of_ne hle hki, ⟨a, b, hi, hkb, ?_, (hlt.trans hte).symm⟩, fun j c hj hcl => ?_⟩
  · exact createmark_injective a.last_usec b.last_usec (hc.trans (hte.symm.trans ht))
  · have hjk : j ≠ k := by
      rintro rfl
      cases hj.symm.trans hkb
      have := lt_createmark b.last
      rw [← ht, hcl, hlt] at this
      exact lt_irrefl _ this
    obtain hlt' | ⟨-, hle⟩ := hb j c hj hcl
    · exact absurd hlt' (hlt ▸ lt_irrefl _)
    · exact lt_of_le_of_ne hle hjk

-- A mark is only lost behind the end, or after the first mark that follows the last record.
theorem mark_written (hi : arch[i]? = some a) (hd : EndsEarlier arch winstart winend a)
    (hu : a.last.usec ≠ 999000) (hw : advance a.last ≤ winend) (hl : advance a.last ≤ logend arch)
    (ht : ∀ k, ¬Tied arch i k) : (i, .mark (createmark a.last)) ∈ l := by
  by_contra hp
  have hc := createmark_eq_advance a.last_usec hu
  have hg : .mark (createmark a.last) ∈ g i := by
    have hx : .mark (createmark a.last) ∈ taken l i ++ g i := by
      rw [h.taken_append hi, Archive.items, if_pos hd.left]
      exact mem_append_right _ (mem_singleton_self _)
    exact (mem_append.mp hx).resolve_left fun hx => hp (mem_taken.mp hx)
  obtain hb | ⟨hm, hl'⟩ := h.rest
  · obtain hb | hb := hb i _ hg
    · exact absurd hb (not_lt.mpr (hc ▸ hl))
    · exact absurd hb (not_lt.mpr (hc ▸ hw))
  · have hlast {j : Nat} {c : Archive α} (hj : arch[j]? = some c) (hc : c.last = logend arch) :
        (j, .data (c.log.getLast c.ne)) ∈ l := by
      have hx : .data (c.log.getLast c.ne) ∈ taken l j ++ g j := by
        have hle : winstart ≤ c.last := hc ▸ hd.left.trans hd.right.right.le
        rw [h.taken_append hj, Archive.items, if_pos hle]
        refine mem_append_left _ (mem_map_of_mem (mem_filter.mpr ⟨?_, ?_⟩))
        · exact getLast_mem c.ne
        · exact decide_eq_true hle
      refine mem_taken.mp ((mem_append.mp hx).resolve_right fun hx => ?_)
      obtain ⟨t, ht⟩ := hm j _ hx
      cases ht
    obtain ⟨j, c, hj, hcl⟩ := exists_logend hd.right.right
    obtain rfl | ⟨l', i', r, k, t, rfl⟩ := hl'
    · exact not_mem_nil (hlast hj hcl)
    · have hk : (k, .mark t) ∈ l' ++ [(i', .data r), (k, .mark t)] := by simp
      refine ht k (h.tied hi hu hl hp hg hk (fun j c hj hc => ?_) ⟨j, c, hj, hcl⟩)
      have ho := h.path.ordered (inputs_sorted arch winstart)
      have hb := before_last ho (hlast hj hc) nofun
      rw [← hc]
      exact hb

theorem not_before_data (hj : (j, .data r) ∈ l)
    (ht : ∀ (j : Nat) (c : Archive α), arch[j]? = some c → c.last = logend arch → j < k)
    (hk : k ≤ m) :
    ¬Before stamp (m, .mark (logend arch)) (j, .data r) := by
  obtain ⟨c, hc, hx⟩ := h.mem_items hj
  have hle : c.last ≤ logend arch := last_le_logend (mem_of_getElem? hc)
  have hr : r.stamp ≤ c.last := by
    obtain ⟨-, ⟨_, hm, he, -⟩ | he⟩ := c.mem_items hx
    · cases he
      exact c.le_last hm
    · cases he
  rintro (hlt | ⟨he, hm⟩)
  · exact absurd (hr.trans hle) (not_le.mpr hlt)
  · have he : logend arch = r.stamp := he
    have := ht j c hc (le_antisymm hle (he ▸ hr))
    omega

theorem not_tied (hw : logend arch ≤ winend) (hi : (i, .mark (logend arch)) ∈ l)
    (hk : (k, .mark (logend arch)) ∈ l) (hki : k < i) :
    ¬∀ (j : Nat) (c : Archive α), arch[j]? = some c → c.last = logend arch → j < k := by
  intro ht
  have hg : ∀ j, ∀ y ∈ g j, ∃ t, y = .mark t := by
    intro j y hy
    have hx := h.path.rest_subset j hy
    rw [inputs] at hx
    cases hj : arch[j]?
    case none => simp [hj] at hx
    case some c =>
      rw [hj] at hx
      obtain ⟨-, ⟨r, hr, rfl, -⟩ | he⟩ := c.mem_items hx
      · have hle := (c.le_last hr).trans (last_le_logend (mem_of_getElem? hj))
        exact absurd (hle.trans hw) (not_le.mpr (h.lt_of_rest hj hy))
      · exact ⟨_, he⟩
  have ho := h.path.ordered (inputs_sorted arch winstart)
  obtain rfl | ⟨l', j, r, rfl⟩ | ⟨l', j, r, j', t, rfl⟩ := h.tail hg
  · exact not_mem_nil hi
  · have hb := (pairwise_append.mp ho).right.right (k, .mark (logend arch)) (by simpa using hk)
      (j, .data r) (by simp)
    exact h.not_before_data (by simp) ht le_rfl hb
  · -- One of the two marks comes before the last record.
    obtain ⟨m, hm, hkm⟩ : ∃ m, (m, .mark (logend arch)) ∈ l' ∧ k ≤ m := by
      by_cases hk' : (k, .mark (logend arch)) ∈ l'
      · exact ⟨k, hk', le_rfl⟩
      · refine ⟨i, ?_, hki.le⟩
        simp only [mem_append, mem_cons, Prod.mk.injEq, reduceCtorEq, and_false, false_or,
          not_mem_nil, or_false, hk'] at hi hk
        exact hi.resolve_right fun hi => by omega
    have hb := (pairwise_append.mp ho).right.right (m, .mark (logend arch)) hm
      (j, .data r) (by simp)
    exact h.not_before_data (by simp) ht hkm hb

end State.Final

section Extracted

variable {arch : List (Archive α)} {winstart winend : Stamp} {l : List (Nat × Item α)}
  {g : Nat → List (Item α)}

def due (arch : List (Archive α)) (winstart winend : Stamp) (i : Nat) : List Stamp :=
  arch[i]?.elim [] fun a => if EndsEarlier arch winstart winend a then [advance a.last] else []

theorem due_flatMap : (range arch.length).flatMap (due arch winstart winend) =
    (arch.filter (EndsEarlier arch winstart winend)).map (advance ·.last) := by
  have he : (range arch.length).flatMap (due arch winstart winend) = arch.flatMap fun a =>
      if EndsEarlier arch winstart winend a then [advance a.last] else [] := range_flatMap _
  rw [he, flatMap_ite]

theorem marks_output (f : Bool) :
    (State.output f l).filterMap mark? = (l.map Prod.snd).filterMap mark? := by
  cases f <;> simp [State.output, mark?, filterMap_cons]

theorem records_output (f : Bool) :
    (State.output f l).filterMap record? = (l.map Prod.snd).filterMap record? := by
  cases f <;> simp [State.output, record?, filterMap_cons]

theorem output_sorted (ho : l.Pairwise (Before stamp)) (f : Bool) :
    (State.output f l).Pairwise (·.stamp ≤ ·.stamp) := by
  have hs : (l.map Prod.snd).Pairwise (·.stamp ≤ ·.stamp) :=
    pairwise_map.mpr (ho.imp Before.key_le)
  cases f
  case true => exact hs
  case false => exact pairwise_cons.mpr ⟨fun x _ => zero_le _, hs⟩

variable (h : State.Final ⟨false, logend arch⟩ winend (inputs arch winstart) l g)
include h

theorem marks_perm (f : Bool) : ((State.output f l).filterMap mark?).Perm
    ((range arch.length).flatMap fun i => (taken l i).filterMap mark?) := by
  rw [marks_output, ← filterMap_flatMap]
  exact h.perm_taken.filterMap _

theorem extracted_of_markable (f : Bool) (hm : Markable arch winstart winend) :
    Extracted arch winstart winend (State.output f l) where
  records := by
    have he : ((range arch.length).flatMap fun i => (taken l i).filterMap record?) =
        arch.flatMap (·.within winstart winend) := by
      rw [← range_flatMap]
      refine flatMap_congr fun i hi => ?_
      obtain ⟨a, hi⟩ := exists_of_mem_range hi
      rw [h.records_taken hi, hi]
      rfl
    rw [records_output, ← he, ← filterMap_flatMap]
    exact h.perm_taken.filterMap _
  marks := by
    rw [← due_flatMap]
    refine (marks_perm h f).trans (.of_eq (flatMap_congr fun i hi => ?_))
    obtain ⟨a, hi⟩ := exists_of_mem_range hi
    rw [due, hi]
    by_cases hd : EndsEarlier arch winstart winend a
    · obtain ⟨hu, hw, hl, ht⟩ := hm i _ hi hd
      rw [h.marks_taken hi (h.mark_written hi hd hu hw hl ht),
        createmark_eq_advance a.last_usec hu]
      exact (if_pos hd).symm
    · rw [h.marks_not_taken hi fun hp => hd (h.mark_mem hi hp).right]
      exact (if_neg hd).symm
  sorted := output_sorted (h.path.ordered (inputs_sorted arch winstart)) f

theorem mark_mem_of_extracted (hv : Extracted arch winstart winend (State.output f l))
    (hi : arch[i]? = some a) (hd : EndsEarlier arch winstart winend a) :
    (i, .mark (createmark a.last)) ∈ l := by
  by_contra hp
  have hlt : ((List.range arch.length).map fun i => ((taken l i).filterMap mark?).length).sum <
      ((List.range arch.length).map fun i => (due arch winstart winend i).length).sum := by
    refine List.sum_lt_sum _ _ (fun j hj => ?_) ⟨i, ?_, ?_⟩
    · obtain ⟨b, hj⟩ := exists_of_mem_range hj
      by_cases hp : (j, .mark (createmark b.last)) ∈ l
      · have hd := (h.mark_mem hj hp).right
        simp [h.marks_taken hj hp, due, hj, hd]
      · simp [h.marks_not_taken hj hp]
    · exact List.mem_range.mpr (List.getElem?_eq_some_iff.mp hi).choose
    · simp [h.marks_not_taken hi hp, due, hi, hd]
  have he := ((marks_perm h f).symm.trans hv.marks).length_eq
  rw [← due_flatMap, List.length_flatMap, List.length_flatMap] at he
  exact absurd he hlt.ne

theorem markable_of_extracted (hv : Extracted arch winstart winend (State.output f l)) :
    Markable arch winstart winend := by
  intro i a hi hd
  have hp := mark_mem_of_extracted h hv hi hd
  have hu : a.last.usec ≠ 999000 := by
    intro hu
    have hm : createmark a.last ∈ (State.output f l).filterMap mark? := by
      rw [marks_output]
      exact mem_filterMap.mpr ⟨_, mem_map_of_mem hp, rfl⟩
    obtain ⟨b, -, hb⟩ := mem_map.mp (hv.marks.mem_iff.mp hm)
    have hlt : (advance b.last).usec < 1000000 := Nat.mod_lt _ (by decide)
    rw [hb, createmark_usec hu] at hlt
    exact lt_irrefl _ hlt
  have hc := createmark_eq_advance a.last_usec hu
  obtain ⟨hl, hw⟩ := h.limit _ hp
  simp only [hc] at hl hw
  refine ⟨hu, hw, hl, fun k hk => ?_⟩
  obtain ⟨hki, ⟨a', b, hi', hkb, hab, he⟩, ht⟩ := hk
  cases hi.symm.trans hi'
  have hbd : EndsEarlier arch winstart winend b := by
    rw [EndsEarlier, ← hab]
    exact hd
  have hpk := mark_mem_of_extracted h hv hkb hbd
  rw [← hab] at hpk
  rw [hc, he] at hp hpk
  exact h.not_tied (he ▸ hw) hp hpk hki ht

end Extracted

theorem extract_extracted {arch : List (Archive α)} {winstart winend : Stamp}
    (hz : NoZero arch winstart) :
    (∃ volume, extract false winstart winend arch = some volume ∧
      Extracted arch winstart winend volume) ↔ Markable arch winstart winend := by
  obtain ⟨f, l, g, he, -, hF⟩ := extract_eq winend hz
  constructor
  · rintro ⟨volume, he', hv⟩
    cases he.symm.trans he'
    exact markable_of_extracted hF hv
  · intro hm
    exact ⟨_, he, extracted_of_markable hF f hm⟩

def Archive.single (r : Record α) (h : r.stamp.usec < 1000000) : Archive α where
  log := [r]
  ne := List.cons_ne_nil r []
  sorted := List.pairwise_singleton ..
  normal := List.forall_mem_singleton.mpr h

def two (usec : Nat) (h : usec < 1000000) : List (Archive Nat) :=
  [.single ⟨⟨1, usec⟩, 0⟩ h, .single ⟨⟨5, 0⟩, 1⟩ (Nat.succ_pos 999999)]

theorem extract_extracted_two : ∃ volume,
    extract false ⟨1, 0⟩ ⟨9, 0⟩ (two 500000 (of_decide_eq_true rfl)) = some volume ∧
    Extracted (two 500000 (of_decide_eq_true rfl)) ⟨1, 0⟩ ⟨9, 0⟩ volume ∧
    Markable (two 500000 (of_decide_eq_true rfl)) ⟨1, 0⟩ ⟨9, 0⟩ := by
  have hv : Extracted (two 500000 (of_decide_eq_true rfl)) ⟨1, 0⟩ ⟨9, 0⟩ [.label,
      .data ⟨⟨1, 500000⟩, 0⟩, .mark ⟨1, 501000⟩, .data ⟨⟨5, 0⟩, 1⟩] :=
    ⟨by decide +kernel, by decide +kernel, by decide +kernel⟩
  refine ⟨_, ?_, hv, (extract_extracted ?_).mp ⟨_, ?_, hv⟩⟩
  · decide +kernel
  · simp [NoZero, two, Archive.single]
  · decide +kernel

-- The time of the mark is not normalised.
theorem extract_unnormalised : ∃ volume,
    extract false ⟨1, 0⟩ ⟨9, 0⟩ (two 999000 (of_decide_eq_true rfl)) = some volume ∧
    .mark ⟨1, 1000000⟩ ∈ volume ∧
    ¬Extracted (two 999000 (of_decide_eq_true rfl)) ⟨1, 0⟩ ⟨9, 0⟩ volume := by
  refine ⟨[.label, .data ⟨⟨1, 999000⟩, 0⟩, .mark ⟨1, 1000000⟩, .data ⟨⟨5, 0⟩, 1⟩], ?_, ?_, ?_⟩
  · decide +kernel
  · decide
  · intro h
    exact absurd h.marks (by decide +kernel)

end Extract
