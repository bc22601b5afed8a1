import PcpModel.Extract.Marks

-- What is written with daily windows, as long as the window does not have to be moved.
namespace Extract

open List

variable {α : Type}

def Stamp.days (t : Stamp) (k : Nat) : Stamp :=
  { t with sec := t.sec + k * 86400 }

def InWindow (winstart winend : Stamp) (k : Nat) (t : Stamp) : Prop :=
  winstart.days k ≤ t ∧ t ≤ winend.days k

instance (winstart winend : Stamp) (k : Nat) (t : Stamp) :
    Decidable (InWindow winstart winend k t) :=
  inferInstanceAs (Decidable (_ ∧ _))

-- There are no windows that start later than the time.
def InSomeWindow (winstart winend t : Stamp) : Prop :=
  ∃ k ≤ t.sec / 86400, InWindow winstart winend k t

instance (winstart winend t : Stamp) : Decidable (InSomeWindow winstart winend t) :=
  inferInstanceAs (Decidable (∃ k ≤ _, _))

structure Windowed (a : Archive α) (winstart winend : Stamp) (volume : List (Item α)) : Prop where
  label : volume = [] ∨ ∃ items, volume = .label :: items ∧ .label ∉ items
  records : (volume.filterMap Item.record?).Perm
    (a.log.filter fun r => InSomeWindow winstart winend r.stamp)
  separated : ∀ l r m r' l', volume = l ++ .data r :: m ++ .data r' :: l' →
    (∃ k, InWindow winstart winend k r.stamp ∧ InWindow winstart winend k r'.stamp) ∨
      ∃ t, .mark t ∈ m
  normal : ∀ t, .mark t ∈ volume → t.usec < 1000000
  sorted : volume.Pairwise (·.stamp ≤ ·.stamp)

-- The window contains all that follows its start, or the next one starts behind the end.
def Unmoved (winstart winend logend : Stamp) : Prop :=
  logend ≤ winend ∨ logend < State.nextDay winstart

theorem days_zero (t : Stamp) : t.days 0 = t := by
  simp [Stamp.days]

theorem le_days (t : Stamp) (k : Nat) : t ≤ t.days k := by
  simp only [Stamp.le_iff, Stamp.days]
  omega

theorem nextDay_le_days (t : Stamp) : State.nextDay t ≤ t.days (k + 1) := by
  simp only [Stamp.le_iff, Stamp.days, State.nextDay]
  omega

theorem inWindow_iff {winend : Stamp} (h : Unmoved winstart winend last)
    (ht : t ≤ last) :
    InSomeWindow winstart winend t ↔ winstart ≤ t ∧ t ≤ winend := by
  constructor
  · rintro ⟨k, -, hs, he⟩
    refine ⟨(le_days _ _).trans hs, ?_⟩
    cases k
    case zero => rwa [days_zero] at he
    case succ k =>
      obtain h | h := h
      · exact ht.trans h
      · exact absurd (ht.trans_lt h) (not_lt.mpr ((nextDay_le_days _).trans hs))
  · rintro ⟨hs, he⟩
    exact ⟨0, Nat.zero_le _, by rwa [days_zero], by rwa [days_zero]⟩

namespace State

variable {s : State α} {last : Stamp} (warg : Bool)

theorem checkwinend_warg (h : Unmoved s.winstart s.winend last) (hn : now ≤ last) :
    s.checkwinend ⟨warg, last⟩ now = s.checkwinend ⟨false, last⟩ now := by
  unfold checkwinend
  simp only [tvcmp_le, tvcmp_pos]
  by_cases hw : now ≤ s.winend
  · simp [if_pos hw]
  · have hd : last < nextDay s.winstart := h.resolve_left fun he => hw (hn.trans he)
    simp [hd]

theorem step_warg (h : Unmoved s.winstart s.winend last) :
    s.step ⟨warg, last⟩ = s.step ⟨false, last⟩ := by
  unfold step
  by_cases hc : (choose 0 s.nextlog.inarch ⟨none, ⟨0, 0⟩⟩).curlog ≤ last
  · have hw : s.nextlog.checkwinend ⟨warg, last⟩ (choose 0 s.nextlog.inarch ⟨none, ⟨0, 0⟩⟩).curlog =
        s.nextlog.checkwinend ⟨false, last⟩ (choose 0 s.nextlog.inarch ⟨none, ⟨0, 0⟩⟩).curlog :=
      checkwinend_warg warg h hc
    simp [hw]
  · simp [tvcmp_pos, not_le.mp hc]

theorem Inv.loop_warg {winstart winend : Stamp} (h : Inv ⟨false, last⟩ winstart winend S s l)
    (hS : Merging.Sorted Item.stamp S)
    (hu : Unmoved winstart winend last) : s.loop ⟨warg, last⟩ m = s.loop ⟨false, last⟩ m := by
  induction m generalizing s l
  case zero => rfl
  case succ m ih =>
    have hs : s.step ⟨warg, last⟩ = s.step ⟨false, last⟩ :=
      step_warg warg (by rwa [h.window.left, h.window.right])
    obtain ⟨s', he, -⟩ | ⟨s', i, x, he, h'⟩ := h.step rfl hS
    · simp [State.loop, hs, he]
    · simp only [State.loop, hs, he]
      exact ih h'

variable {a : List (Record α)} {opts : Options}

def records (s : State α) : List (Record α) :=
  s.volume.filterMap Item.record?

structure Alone (a : List (Record α)) (s : State α) (x : Inarch α) : Prop where
  inarch : s.inarch = [x]
  rlready : s.rlready = []
  sublist : (s.records ++ (x.nresult.toList ++ x.log)).Sublist a

theorem records_putResult (s : State α) (x : Item α) :
    (s.putResult x).records = s.records ++ x.record?.toList := by
  cases hl : s.labelled <;> cases x <;>
    simp [records, putResult, hl, filterMap_cons, Item.record?]

theorem records_writeResult (s : State α) (r : Record α) :
    (s.writeResult r).records = s.records ++ [r] := by
  rw [writeResult, records_putResult]
  cases hf : s.first <;>
    simp [records, Item.record?]

theorem Alone.nextlog (h : Alone a s x) :
    Alone a s.nextlog (x.next s.first s.current s.winstart) := by
  refine ⟨by simp [State.nextlog, h.inarch], h.rlready, Sublist.trans ?_ h.sublist⟩
  refine (Sublist.refl _).append ?_
  have hn : Inarch.Next x s.first s.current s.winstart (x.next s.first s.current s.winstart) :=
    Inarch.next_next
  generalize x.next s.first s.current s.winstart = y at hn
  cases hn
  case kept => exact Sublist.refl _
  case ended => exact Sublist.refl _
  case read r log hu hd =>
    exact (Inarch.toRead_cons hd).left.sublist.trans (sublist_append_right ..)
  case skipped => exact (Sublist.refl _).append (nil_sublist _)
  case closed => exact (Sublist.refl _).append (nil_sublist _)

theorem Alone.drop (x : Inarch α) (winstart : Stamp) :
    ((x.drop winstart).nresult.toList ++ (x.drop winstart).log).Sublist
      (x.nresult.toList ++ x.log) := by
  have hd : (x.drop winstart).log = x.log ∧
      ((x.drop winstart).nresult = x.nresult ∨ (x.drop winstart).nresult = none) := by
    unfold Inarch.drop
    split
    case h_1 r hr =>
      by_cases hw : tvcmp r.stamp winstart < 0
      · simp [hw]
      · simp only [if_neg hw]
        split
        · split <;> simp
        · simp
    case h_2 =>
      dsimp only
      split
      · split <;> simp
      · simp
  obtain ⟨hl, hn | hn⟩ := hd
  · rw [hl, hn]
  · rw [hl, hn]
    exact sublist_append_right ..

theorem choose_single (x : Inarch α) :
    choose 0 [x] ⟨none, ⟨0, 0⟩⟩ = x.stamp?.elim ⟨none, ⟨0, 0⟩⟩ (⟨some 0, ·⟩) := by
  cases hx : x.stamp? <;> simp [choose, hx, checklogtime]

theorem Alone.checkwinend (h : Alone a s x) (hs : s.checkwinend opts now = .moved s') :
    ∃ y, Alone a s' y := by
  unfold State.checkwinend at hs
  split at hs
  case isTrue => cases hs
  case isFalse =>
    split at hs
    case isTrue => cases hs
    case isFalse =>
      simp only at hs
      split at hs
      case isTrue => cases hs
      case isFalse =>
        cases hs
        refine ⟨x.drop (nextDay s.winstart), by simp [putResult, h.inarch], h.rlready, ?_⟩
        rw [records_putResult]
        refine Sublist.trans ?_ h.sublist
        simp only [Item.record?, Option.toList_none, append_nil]
        exact (Sublist.refl s.records).append (Alone.drop x _)

theorem Alone.write (h : Alone a s x) (hc : ∀ r, x.nresult = some r → r.stamp = c)
    (hs : s.write c 0 x = .next s') : ∃ y, Alone a s' y := by
  unfold State.write at hs
  split at hs
  case isTrue =>
    split at hs
    case h_1 => cases hs
    case h_2 t ht =>
      cases hs
      refine ⟨{ x with pb := none }, by simp [putResult, h.inarch], h.rlready, ?_⟩
      rw [records_putResult]
      simpa [Item.record?, records] using h.sublist
  case isFalse =>
    split at hs
    case h_1 => cases hs
    case h_2 r hr =>
      cases hs
      have hle : ¬tvcmp r.stamp c > 0 := by simp [tvcmp_pos, hc r hr]
      simp only [h.rlready, insertresult, writerlist, if_neg hle]
      refine ⟨{ x with nresult := none }, ?_, rfl, ?_⟩
      · cases s.first <;> simp [writeResult, putResult, h.inarch]
      · have hl := h.sublist
        rw [hr] at hl
        change ((writeResult _ r).records ++ x.log).Sublist a
        rw [records_writeResult]
        simpa [records] using hl

theorem Alone.step (h : Alone a s x) (hs : s.step opts = .next s') : ∃ y, Alone a s' y := by
  have h' := h.nextlog
  generalize x.next s.first s.current s.winstart = y at h'
  unfold State.step at hs
  simp only [h'.inarch, choose_single] at hs
  split at hs
  case isTrue => cases hs
  case isFalse =>
    split at hs
    case isTrue => cases hs
    case isFalse =>
      split at hs
      case h_1 => cases hs
      case h_2 s₁ hw =>
        cases hs
        exact h'.checkwinend hw
      case h_3 hw =>
        cases hy : y.stamp?
        case none => simp [hy] at hs
        case some t =>
          simp only [hy] at hs
          have ha : Alone a { s.nextlog with inarch := [y], current := t } y :=
            ⟨rfl, h'.rlready, h'.sublist⟩
          refine ha.write (fun r hr => ?_) hs
          simpa [Inarch.stamp?, hr] using hy

theorem write_ne_stop : s.write c i x ≠ .stop s' := by
  unfold State.write
  split
  · split <;> nofun
  · split <;> nofun

theorem step_stop (hs : s.step opts = .stop s') : s' = s.nextlog := by
  simp only [State.step] at hs
  split at hs
  case isTrue =>
    cases hs
    rfl
  case isFalse =>
    split at hs
    case isTrue =>
      cases hs
      rfl
    case isFalse =>
      split at hs
      case h_1 =>
        cases hs
        rfl
      case h_2 => cases hs
      case h_3 =>
        split at hs
        case h_1 => cases hs
        case h_2 =>
          split at hs
          case h_1 => cases hs
          case h_2 => exact absurd hs write_ne_stop

theorem Alone.loop {volume : List (Item α)} (h : Alone a s x) (hs : s.loop opts n = some volume) :
    (volume.filterMap Item.record?).Sublist a := by
  induction n generalizing s x
  case zero => cases hs
  case succ n ih =>
    unfold State.loop at hs
    split at hs
    case h_1 s' hn =>
      obtain ⟨y, hy⟩ := h.step hn
      exact ih hy hs
    case h_2 s' hn =>
      cases hs
      rw [step_stop hn, State.finish]
      split
      · exact nil_sublist _
      · exact (sublist_append_left ..).trans h.sublist
    case h_3 => cases hs

end State

theorem extract_sublist {volume : List (Item α)}
    (h : extract warg winstart winend [a] = some volume) :
    (volume.filterMap Item.record?).Sublist a.log := by
  have h₀ : State.Alone a.log (start [a] winstart winend) ⟨a.log, none, none, false, false⟩ :=
    ⟨rfl, rfl, Sublist.refl _⟩
  exact h₀.loop h

section Single

variable {a : Archive α} {winstart winend : Stamp}

theorem logend_single : logend [a] = a.last := by
  simp [logend, max_eq_right (zero_le _)]

theorem extract_warg (h : Unmoved winstart winend a.last) (warg : Bool) :
    extract warg winstart winend [a] = extract false winstart winend [a] := by
  have hz : NoZero [a] winstart := nofun
  rw [← logend_single] at h
  exact (start_inv hz).loop_warg _ (inputs_sorted [a] winstart) h

theorem markable_single : Markable [a] winstart winend := by
  intro i b hi hd
  have hb : b = a := by simpa using mem_of_getElem? hi
  exact absurd hd.right.right (by simp [hb, logend_single])

theorem marks_single (h : Extracted [a] winstart winend volume) :
    .mark t ∉ volume := by
  intro hm
  have ht : t ∈ volume.filterMap Item.mark? := mem_filterMap.mpr ⟨_, hm, rfl⟩
  obtain ⟨b, hb, -⟩ := mem_map.mp (h.marks.mem_iff.mp ht)
  obtain ⟨hb, hd⟩ := mem_filter.mp hb
  obtain rfl := mem_singleton.mp hb
  have := (of_decide_eq_true hd).right.right
  simp [logend_single] at this

theorem label_not_mem (h : State.Final ⟨false, logend [a]⟩ winend (inputs [a] winstart) l g) :
    .label ∉ l.map Prod.snd := by
  intro hl
  obtain ⟨⟨i, x⟩, hx, rfl⟩ := mem_map.mp hl
  obtain ⟨b, -, hb⟩ := h.mem_items hx
  obtain ⟨-, ⟨_, -, he, -⟩ | he⟩ := b.mem_items hb <;> cases he

theorem records_single (h : Unmoved winstart winend a.last) :
    (a.log.filter fun r => InSomeWindow winstart winend r.stamp) = a.within winstart winend := by
  refine filter_congr fun r hr => ?_
  simp [inWindow_iff h (a.le_last hr)]

theorem extract_windowed (h : Unmoved winstart winend a.last) :
    ∃ volume, extract true winstart winend [a] = some volume ∧
      Windowed a winstart winend volume := by
  have hz : NoZero [a] winstart := nofun
  obtain ⟨f, l, g, he, hf, hF⟩ := extract_eq winend hz
  have hv := extracted_of_markable hF f markable_single
  have hr : ((State.output f l).filterMap Item.record?).Perm (a.within winstart winend) := by
    simpa using hv.records
  refine ⟨_, (extract_warg h true).trans he, ?_, ?_, ?_, ?_, hv.sorted⟩
  · cases f
    case true => exact .inl (by simp [State.output, hf])
    case false => exact .inr ⟨_, rfl, label_not_mem hF⟩
  · rwa [records_single h]
  · intro l₁ r m r' l₂ hl
    have hw (x : Record α) (hx : .data x ∈ State.output f l) :
        InWindow winstart winend 0 x.stamp := by
      have hx : x ∈ (State.output f l).filterMap Item.record? := mem_filterMap.mpr ⟨_, hx, rfl⟩
      have hx := (mem_filter.mp (hr.mem_iff.mp hx)).right
      simpa [InWindow, days_zero] using hx
    exact .inl ⟨0, hw r (by simp [hl]), hw r' (by simp [hl])⟩
  · intro t ht
    exact absurd ht (marks_single hv)

end Single

def twoDays : Archive Nat where
  log := [⟨⟨34200, 0⟩, 0⟩, ⟨⟨120600, 0⟩, 1⟩]
  ne := List.cons_ne_nil _ _
  sorted := List.pairwise_pair.mpr (of_decide_eq_true rfl)
  normal := List.forall_mem_cons.mpr
    ⟨Nat.succ_pos 999999, List.forall_mem_singleton.mpr (Nat.succ_pos 999999)⟩

theorem extract_windowed_one : Unmoved ⟨34200, 0⟩ ⟨120600, 0⟩ twoDays.last ∧
    ∃ volume, extract true ⟨34200, 0⟩ ⟨120600, 0⟩ [twoDays] = some volume ∧
      Windowed twoDays ⟨34200, 0⟩ ⟨120600, 0⟩ volume :=
  ⟨.inl (by decide), extract_windowed (.inl (by decide))⟩

-- From nine to ten o'clock. The bytes of the mark between the windows are in the order of the host.
theorem extract_swapped : ∃ volume,
    extract true ⟨32400, 0⟩ ⟨36000, 0⟩ [twoDays] = some volume ∧
    .mark (Stamp.ntoh ⟨34200, 1000⟩) ∈ volume ∧
    ¬Windowed twoDays ⟨32400, 0⟩ ⟨36000, 0⟩ volume := by
  refine ⟨[.label, .data ⟨⟨34200, 0⟩, 0⟩, .mark (Stamp.ntoh ⟨34200, 1000⟩), .data ⟨⟨120600, 0⟩, 1⟩],
    ?_, ?_, ?_⟩
  · decide +kernel
  · decide +kernel
  · intro h
    exact absurd h.sorted (by decide +kernel)

end Extract
