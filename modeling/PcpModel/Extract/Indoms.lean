import PcpModel.Extract.Metadata
import PcpModel.Extract.Windows

-- Which instance domain record is in effect when a record has been written.
namespace Extract

open Grouping Latest List Run Option Pcp

variable {β : Type}

def IndomRec.pending (n : IndomRec β) : Option (Pdu β) :=
  if n.written then none else n.pdu

def indoms (indom : Nat) (l : List (Meta β)) : List (Pdu β) :=
  l.filterMap fun
    | .desc _ => none
    | .indom i p => if i = indom then some p else none

def inEffect (t : Stamp) (indom : Nat) (l : List (Meta β)) : Option (Pdu β) :=
  latest Pdu.stamp t (indoms indom l)

@[simp]
theorem indoms_concat_desc {l : List (Meta β)} : indoms i (l ++ [.desc d]) = indoms i l := by
  simp [indoms]

theorem indoms_concat {l : List (Meta β)} :
    indoms i (l ++ [.indom j p]) = if j = i then indoms i l ++ [p] else indoms i l := by
  by_cases h : j = i <;> simp [indoms, h]

namespace Lists

def unwritten (indom : Nat) (s : Lists β) : List (Pdu β) :=
  (block IndomRec.indom indom s.rindom).filterMap IndomRec.pending

def desc? (s : Lists β) (pmid : Nat) : Option Desc :=
  (s.rdesc.map DescRec.desc).find? (·.pmid = pmid)

section Search

variable {this : Stamp} {indom : Nat} {l : List (IndomRec β)}

theorem othrIndom_latest :
    (othrIndom this indom i othr l).map Prod.snd =
      ((l.takeWhile (·.indom = indom)).filterMap IndomRec.pending).foldl (better Pdu.stamp this)
        (othr.map Prod.snd) := by
  induction l generalizing i othr
  case nil => rfl
  case cons n l ih =>
    unfold othrIndom
    by_cases hn : n.indom = indom
    · simp only [hn, if_true, ih, takeWhile_cons, decide_true, filterMap_cons]
      cases hw : n.written
      case true => simp [IndomRec.pending, hw]
      case false =>
        cases hp : n.pdu
        case none => simp [IndomRec.pending, hp]
        case some p =>
          simp only [IndomRec.pending, hw, hp, Bool.false_eq_true, if_false]
          cases othr
          case none => by_cases h : p.stamp ≤ this <;> simp [better, h]
          case some q =>
            by_cases h : p.stamp ≤ this <;> by_cases h' : q.2.stamp ≤ p.stamp <;>
              simp [better, h, h']
    · simp [hn]

theorem othrIndom_mem
    (h : othrIndom this indom i othr l = some (j, p)) :
    othr = some (j, p) ∨
      ∃ k n, j = i + k ∧ l[k]? = some n ∧ n.indom = indom ∧ n.pending = some p := by
  induction l generalizing i othr
  case nil => exact .inl h
  case cons n l ih =>
    unfold othrIndom at h
    by_cases hn : n.indom = indom
    · rw [if_pos hn] at h
      obtain h | ⟨k, m, rfl, hk, hm⟩ := ih h
      · cases hw : n.written
        case true => exact .inl (by simpa [hw] using h)
        case false =>
          cases hp : n.pdu
          case none => exact .inl (by simpa [hw, hp] using h)
          case some q =>
            have hq : n.pending = some q := by simp [IndomRec.pending, hw, hp]
            have hi : some (i, q) = some (j, p) → ∃ k m, j = i + k ∧ (n :: l)[k]? = some m ∧
                m.indom = indom ∧ m.pending = some p := by
              rintro ⟨⟩
              exact ⟨0, n, rfl, rfl, hn, hq⟩
            simp only [hw, hp] at h
            split at h
            case isFalse => exact .inl h
            case isTrue =>
              split at h
              case h_1 => exact .inr (hi h)
              case h_2 =>
                split at h
                case isTrue => exact .inr (hi h)
                case isFalse => exact .inl h
      · exact .inr ⟨k + 1, m, by omega, by simpa using hk, hm⟩
    · rw [if_neg hn] at h
      exact .inl h

end Search

variable {s : Lists β} {this : Stamp} {indom : Nat}

theorem mem_unwritten (hg : Grouped (s.rindom.map IndomRec.indom)) :
    p ∈ s.unwritten indom ↔ ∃ n ∈ s.rindom, n.indom = indom ∧ n.pending = some p := by
  simp [unwritten, block_eq_filter hg, and_assoc]

theorem writeIndom_cases (s : Lists β) (this : Stamp) (indom : Nat) :
    (latest Pdu.stamp this (s.unwritten indom) = none ∧ s.writeIndom this indom = s) ∨
      ∃ i n p, latest Pdu.stamp this (s.unwritten indom) = some p ∧ s.rindom[i]? = some n ∧
        n.indom = indom ∧ n.pending = some p ∧ s.writeIndom this indom = { s with
          rindom := s.rindom.modify i fun n => { n with pdu := none, written := true }
          out := s.out ++ [.indom indom { p with stamp := this }] } := by
  have hd : s.rindom.drop (s.rindom.findIdx (·.indom = indom)) =
      s.rindom.dropWhile (·.indom ≠ indom) := by
    simp [dropWhile_eq_drop_findIdx_not]
  have hl : (othrIndom this indom (s.rindom.findIdx (·.indom = indom)) none
      (s.rindom.drop (s.rindom.findIdx (·.indom = indom)))).map Prod.snd =
        latest Pdu.stamp this (s.unwritten indom) := by
    rw [othrIndom_latest, hd]
    rfl
  cases ho : othrIndom this indom (s.rindom.findIdx (·.indom = indom)) none
    (s.rindom.drop (s.rindom.findIdx (·.indom = indom)))
  case none =>
    rw [ho] at hl
    exact .inl ⟨hl.symm, by simp [writeIndom, ho]⟩
  case some q =>
    obtain ⟨i, p⟩ := q
    rw [ho] at hl
    obtain h | ⟨k, n, rfl, hk, hn, hp⟩ := othrIndom_mem ho
    · cases h
    · rw [getElem?_drop] at hk
      exact .inr ⟨_, n, p, hl.symm, hk, hn, hp, by simp [writeIndom, ho]⟩

-- What holds after the metrics of an instance domain have been written at the times `ts`.
structure Inv (metas : List (Meta β)) (indom : Nat) (s : Lists β) (ts : List Stamp) : Prop where
  grouped : Grouped (s.rindom.map IndomRec.indom)
  sorted : ts.Pairwise (· ≥ ·)
  pending : ∀ p ∈ indoms indom metas, p ∈ s.unwritten indom ∨ ∃ t ∈ ts, p.stamp ≤ t
  stamps : ∀ p ∈ indoms indom s.out, p.stamp ∈ ts
  current : ∀ t ∈ ts,
    (inEffect t indom s.out).map Pdu.insts = (inEffect t indom metas).map Pdu.insts

-- What is to be written for an instance domain lists the instances that are in effect.
def Current (metas : List (Meta β)) (t : Stamp) (indom : Nat) (s : Lists β) : Prop :=
  ∀ p ∈ latest Pdu.stamp t (s.unwritten indom),
    some p.insts = (inEffect t indom metas).map Pdu.insts

instance [DecidableEq β] (metas : List (Meta β)) (t : Stamp) (indom : Nat) (s : Lists β) :
    Decidable (Current metas t indom s) :=
  inferInstanceAs (Decidable (∀ p ∈ latest Pdu.stamp t (s.unwritten indom),
    some p.insts = (inEffect t indom metas).map Pdu.insts))

variable {metas : List (Meta β)} {ts : List Stamp}

theorem modify_indom {l : List (IndomRec β)} :
    (l.modify i fun n => { n with pdu := none, written := true }).map IndomRec.indom =
      l.map IndomRec.indom := by
  apply ext_getElem?
  intro j
  simp only [getElem?_map, getElem?_modify]
  cases l[j]? <;> grind

theorem modify_desc {l : List DescRec} :
    (l.modify i fun n => { n with pdu := false, written := true }).map DescRec.desc =
      l.map DescRec.desc := by
  apply ext_getElem?
  intro j
  simp only [getElem?_map, getElem?_modify]
  cases l[j]? <;> grind

theorem mem_modify {l : List (IndomRec β)} (hn : n ∈ l) (hi : l[i]? = some m) :
    n ∈ l.modify i (fun n => { n with pdu := none, written := true }) ∨ n = m := by
  obtain ⟨j, hj⟩ := mem_iff_getElem?.mp hn
  by_cases hij : i = j
  · subst hij
    cases hi.symm.trans hj
    exact .inr rfl
  · refine .inl (mem_of_getElem? (i := j) ?_)
    simp [hij, hj]

namespace Inv

variable (h : Inv metas indom s ts)
include h

theorem inEffect_eq (ht : ∀ t' ∈ ts, t' ≤ t) (hn : latest Pdu.stamp t (s.unwritten indom) = none) :
    (inEffect t indom s.out).map Pdu.insts = (inEffect t indom metas).map Pdu.insts := by
  have hp : ∀ p ∈ indoms indom metas, p.stamp ≤ t → ∃ t' ∈ ts, p.stamp ≤ t' := by
    intro p hp hle
    refine (h.pending p hp).resolve_left fun hu => ?_
    exact absurd hle (not_le.mpr (lt_of_latest_none hn p hu))
  cases ts
  case nil =>
    have ho : indoms indom s.out = [] :=
      eq_nil_iff_forall_not_mem.mpr fun p hp => not_mem_nil (h.stamps p hp)
    have hm : inEffect t indom metas = none := by
      cases he : inEffect t indom metas
      case none => rfl
      case some p =>
        obtain ⟨hm, hle⟩ := latest_mem he
        obtain ⟨t', ht', -⟩ := hp p hm hle
        cases ht'
    rw [hm, inEffect, ho]
    rfl
  case cons m ts =>
    have hmt := ht m mem_cons_self
    have hmax : ∀ t' ∈ m :: ts, t' ≤ m :=
      forall_mem_cons.mpr ⟨le_rfl, (pairwise_cons.mp h.sorted).left⟩
    have ho : inEffect t indom s.out = inEffect m indom s.out := by
      refine latest_congr fun p hp => ?_
      have := hmax _ (h.stamps p hp)
      exact iff_of_true (this.trans hmt) this
    have hm : inEffect t indom metas = inEffect m indom metas := by
      refine latest_congr fun p hm => ⟨fun hle => ?_, fun hle => hle.trans hmt⟩
      obtain ⟨t', ht', hle⟩ := hp p hm hle
      exact hle.trans (hmax t' ht')
    rw [ho, hm]
    exact h.current m mem_cons_self

theorem visit_none (ht : ∀ t' ∈ ts, t' ≤ t) (hn : latest Pdu.stamp t (s.unwritten indom) = none) :
    Inv metas indom s (t :: ts) where
  grouped := h.grouped
  sorted := pairwise_cons.mpr ⟨ht, h.sorted⟩
  pending := fun p hp => (h.pending p hp).imp_right fun ⟨t', ht', hle⟩ =>
    ⟨t', mem_cons_of_mem _ ht', hle⟩
  stamps := fun p hp => mem_cons_of_mem _ (h.stamps p hp)
  current := forall_mem_cons.mpr ⟨h.inEffect_eq ht hn, h.current⟩

theorem visit_some (ht : ∀ t' ∈ ts, t' ≤ t) (hi : s.rindom[i]? = some n) (hn : n.indom = indom)
    (hp : n.pending = some p) (hc : some p.insts = (inEffect t indom metas).map Pdu.insts)
    (hle : p.stamp ≤ t) :
    Inv metas indom { s with
      rindom := s.rindom.modify i fun n => { n with pdu := none, written := true }
      out := s.out ++ [.indom indom { p with stamp := t }] } (t :: ts) := by
  have hg : Grouped ((s.rindom.modify i fun n => { n with pdu := none, written := true }).map
      IndomRec.indom) := by
    rw [modify_indom]
    exact h.grouped
  have hl : inEffect t indom (s.out ++ [.indom indom { p with stamp := t }]) =
      some { p with stamp := t } := by
    rw [inEffect, indoms_concat, if_pos rfl]
    exact latest_concat_of_le le_rfl fun q hq => ht _ (h.stamps q hq)
  refine ⟨hg, pairwise_cons.mpr ⟨ht, h.sorted⟩, fun q hq => ?_, fun q hq => ?_,
    fun t' ht' => ?_⟩
  · obtain hu | ⟨t', ht', hle'⟩ := h.pending q hq
    · obtain ⟨m, hm, hmi, hmp⟩ := (mem_unwritten h.grouped).mp hu
      obtain hm | rfl := mem_modify hm hi
      · exact .inl ((mem_unwritten hg).mpr ⟨m, hm, hmi, hmp⟩)
      · cases hp.symm.trans hmp
        exact .inr ⟨t, mem_cons_self, hle⟩
    · exact .inr ⟨t', mem_cons_of_mem _ ht', hle'⟩
  · rw [indoms_concat, if_pos rfl] at hq
    obtain hq | rfl := mem_append.mp hq |>.imp_right mem_singleton.mp
    · exact mem_cons_of_mem _ (h.stamps q hq)
    · exact mem_cons_self
  · have hmax : ∀ t' ∈ t :: ts, t' ≤ t := forall_mem_cons.mpr ⟨le_rfl, ht⟩
    obtain hlt | rfl := (hmax t' ht').lt_or_eq
    · rw [inEffect, indoms_concat, if_pos rfl, latest_concat_of_lt hlt]
      exact h.current t' ((mem_cons.mp ht').resolve_left hlt.ne)
    · rw [hl]
      exact hc

theorem visit_other (hi : s.rindom[i]? = some n) (hn : n.indom ≠ indom) :
    Inv metas indom { s with
      rindom := s.rindom.modify i fun n => { n with pdu := none, written := true }
      out := s.out ++ [.indom n.indom p] } ts := by
  have hg : Grouped ((s.rindom.modify i fun n => { n with pdu := none, written := true }).map
      IndomRec.indom) := by
    rw [modify_indom]
    exact h.grouped
  have ho : indoms indom (s.out ++ [.indom n.indom p]) = indoms indom s.out := by
    rw [indoms_concat, if_neg hn]
  refine ⟨hg, h.sorted, fun q hq => ?_, ho ▸ h.stamps, ?_⟩
  · refine (h.pending q hq).imp_left fun hu => ?_
    obtain ⟨m, hm, hmi, hmp⟩ := (mem_unwritten h.grouped).mp hu
    obtain hm | rfl := mem_modify hm hi
    · exact (mem_unwritten hg).mpr ⟨m, hm, hmi, hmp⟩
    · exact absurd hmi hn
  · simp only [inEffect, ho]
    exact h.current

theorem writeIndom (ht : ∀ t' ∈ ts, t' ≤ t) (hc : Current metas t indom s) :
    Inv metas indom (s.writeIndom t indom) (t :: ts) := by
  obtain ⟨hn, he⟩ | ⟨i, n, p, hl, hi, hn, hp, he⟩ := writeIndom_cases s t indom
  · rw [he]
    exact h.visit_none ht hn
  · rw [he]
    exact h.visit_some ht hi hn hp (hc p hl) (latest_mem hl).right

theorem writeIndom_other (hne : indom' ≠ indom) : Inv metas indom (s.writeIndom t indom') ts := by
  obtain ⟨-, he⟩ | ⟨i, n, p, -, hi, rfl, -, he⟩ :=
    writeIndom_cases s t indom'
  · rwa [he]
  · rw [he]
    exact h.visit_other hi hne

theorem desc :
    Inv metas indom { s with rdesc := r, out := s.out ++ [.desc d] } ts where
  grouped := h.grouped
  sorted := h.sorted
  pending := h.pending
  stamps := by simpa using h.stamps
  current := by simpa [inEffect] using h.current

end Inv

theorem writeMetric_cases (h : s.writeMetric v = some s') :
    ∃ d s₁, s.desc? v.2 = some d ∧ s₁.desc? = s.desc? ∧
      (s₁ = s ∨ ∃ rdesc, s₁ = { s with rdesc, out := s.out ++ [.desc d] }) ∧
      s' = if d.indom = pmIndomNull then s₁ else s₁.writeIndom v.1 d.indom := by
  simp only [writeMetric] at h
  split at h
  case h_1 => cases h
  case h_2 n hn =>
    have hd : s.desc? v.2 = some n.desc := by
      rw [desc?, find?_map, Function.comp_def, find?_eq_getElem?_findIdx, hn]
      rfl
    split at h
    case isTrue hw =>
      exact ⟨n.desc, s, hd, rfl, .inl rfl, (some.inj h).symm⟩
    case isFalse hw =>
      split at h
      case isFalse => cases h
      case isTrue hp =>
        refine ⟨n.desc, _, hd, ?_, .inr ⟨_, rfl⟩, (some.inj h).symm⟩
        funext k
        simp [desc?, modify_desc]

theorem writeIndom_desc? : (s.writeIndom t indom).desc? = s.desc? := by
  obtain ⟨-, he⟩ | ⟨i, n, p, -, -, -, -, he⟩ := writeIndom_cases s t indom
  · rw [he]
  · rw [he]
    rfl

theorem writeMetric_desc? (h : s.writeMetric v = some s') : s'.desc? = s.desc? := by
  obtain ⟨d, s₁, -, hd, -, rfl⟩ := writeMetric_cases h
  split
  · exact hd
  · exact writeIndom_desc?.trans hd

def MetricCurrent (metas : List (Meta β)) (s : Lists β) (v : Stamp × Nat) : Prop :=
  ∀ d ∈ s.desc? v.2, d.indom ≠ pmIndomNull → Current metas v.1 d.indom s

instance [DecidableEq β] (metas : List (Meta β)) (s : Lists β) (v : Stamp × Nat) :
    Decidable (MetricCurrent metas s v) :=
  inferInstanceAs (Decidable (∀ d ∈ s.desc? v.2, d.indom ≠ pmIndomNull →
    Current metas v.1 d.indom s))

theorem Inv.writeMetric (h : Inv metas indom s ts) (hn : indom ≠ pmIndomNull)
    (ht : ∀ t' ∈ ts, t' ≤ v.1) (hc : MetricCurrent metas s v) (hs : s.writeMetric v = some s') :
    ∃ ts', Inv metas indom s' ts' ∧ (∀ t ∈ ts', t ∈ ts ∨ t = v.1) ∧ ts ⊆ ts' ∧
      ∀ d, s.desc? v.2 = some d → d.indom = indom → v.1 ∈ ts' := by
  obtain ⟨d, s₁, hd, -, hs₁, rfl⟩ := writeMetric_cases hs
  have h₁ : Inv metas indom s₁ ts := by
    obtain rfl | ⟨r, rfl⟩ := hs₁
    · exact h
    · exact h.desc
  have hu : s₁.rindom = s.rindom := by
    obtain rfl | ⟨r, rfl⟩ := hs₁ <;> rfl
  by_cases hi : d.indom = indom
  · subst hi
    have hc : Current metas v.1 d.indom s₁ := by
      have := hc d hd hn
      rwa [Current, unwritten, ← hu] at this
    rw [if_neg hn]
    exact ⟨_, h₁.writeIndom ht hc, fun t ht => (mem_cons.mp ht).symm, subset_cons_self ..,
      fun _ _ _ => mem_cons_self⟩
  · refine ⟨ts, ?_, fun t ht => .inl ht, Subset.refl _, fun d' hd' hi' => ?_⟩
    · split
      · exact h₁
      · exact h₁.writeIndom_other hi
    · cases hd.symm.trans hd'
      exact absurd hi' hi

theorem Inv.exec (h : Inv metas indom s ts) (hn : indom ≠ pmIndomNull)
    (ht : ∀ v ∈ vs, ∀ t' ∈ ts, t' ≤ v.1) (ho : vs.Pairwise (·.1 ≤ ·.1))
    (hg : Guarded Lists.writeMetric (MetricCurrent metas) s vs)
    (he : exec Lists.writeMetric s vs = some s') :
    ∃ ts', Inv metas indom s' ts' ∧ ts ⊆ ts' ∧
      ∀ v ∈ vs, ∀ d, s.desc? v.2 = some d → d.indom = indom → v.1 ∈ ts' := by
  induction vs generalizing s ts
  case nil =>
    cases he
    exact ⟨ts, h, Subset.refl _, nofun⟩
  case cons v vs ih =>
    obtain ⟨s₁, hs, he⟩ := bind_eq_some_iff.mp he
    obtain ⟨hv, ho⟩ := pairwise_cons.mp ho
    obtain ⟨ht, htv⟩ := forall_mem_cons.mp ht
    obtain ⟨ts₁, h₁, hts, hsub, hd₁⟩ := h.writeMetric hn ht hg.left hs
    have ht₁ : ∀ w ∈ vs, ∀ t' ∈ ts₁, t' ≤ w.1 := by
      intro w hw t' ht'
      obtain ht' | rfl := hts t' ht'
      · exact htv w hw t' ht'
      · exact hv w hw
    obtain ⟨ts', h', hsub', hd'⟩ := ih h₁ ht₁ ho (hg.right s₁ hs) he
    refine ⟨ts', h', Subset.trans hsub hsub', forall_mem_cons.mpr ⟨fun d hd hi => ?_, ?_⟩⟩
    · exact hsub' (hd₁ d hd hi)
    · rwa [writeMetric_desc? hs] at hd'

section Load

def Has (l : List (IndomRec β)) (indom : Nat) (p : Pdu β) : Prop :=
  ∃ n ∈ l, n.indom = indom ∧ n.pending = some p

variable {l : List (IndomRec β)}

theorem findnadd_indom (indom : Nat) (l : List (IndomRec β)) :
    (findnaddIndomreclist indom l).map IndomRec.indom = l.map IndomRec.indom ∨
      (findnaddIndomreclist indom l).map IndomRec.indom = add indom (l.map IndomRec.indom) := by
  induction l
  case nil => exact .inr rfl
  case cons n l ih =>
    by_cases hn : n.indom = indom
    · exact .inl (by simp [findnaddIndomreclist, hn])
    · simpa [findnaddIndomreclist, add, hn] using ih

theorem append_indom (indom : Nat) (p : Pdu β) (l : List (IndomRec β)) :
    (appendIndomreclist indom p l).map IndomRec.indom = l.map IndomRec.indom ∨
      (appendIndomreclist indom p l).map IndomRec.indom = add indom (l.map IndomRec.indom) := by
  induction l
  case nil => exact .inr rfl
  case cons n l ih =>
    by_cases hn : n.indom = indom
    · cases hp : n.pdu
      case none => exact .inl (by simp [appendIndomreclist, hn, hp])
      case some q => exact .inr (by simp [appendIndomreclist, add, hn, hp])
    · simpa [appendIndomreclist, add, hn] using ih

theorem mem_findnadd (h : n ∈ l) : n ∈ findnaddIndomreclist indom l := by
  induction l <;> grind [findnaddIndomreclist]

theorem written_findnadd (h : ∀ n ∈ l, n.written = false) :
    ∀ n ∈ findnaddIndomreclist indom l, n.written = false := by
  induction l <;> grind [findnaddIndomreclist]

theorem written_append (h : ∀ n ∈ l, n.written = false) :
    ∀ n ∈ appendIndomreclist indom p l, n.written = false := by
  induction l <;> grind [appendIndomreclist]

theorem has_append (h : ∀ n ∈ l, n.written = false) :
    Has (appendIndomreclist indom p l) indom p := by
  induction l
  case nil => exact ⟨_, mem_singleton_self _, rfl, rfl⟩
  case cons n l ih =>
    obtain ⟨hw, hl⟩ := forall_mem_cons.mp h
    unfold appendIndomreclist
    by_cases hn : n.indom = indom
    · cases hp : n.pdu
      case none =>
        exact ⟨{ n with pdu := some p }, by simp [hn], hn, by simp [IndomRec.pending, hw]⟩
      case some q => exact ⟨⟨indom, some p, false⟩, by simp [hn], rfl, rfl⟩
    · obtain ⟨m, hm, hi⟩ := ih hl
      exact ⟨m, by simp [hn, hm], hi⟩

theorem mem_append (h : n ∈ l) (hp : n.pdu ≠ none) : n ∈ appendIndomreclist indom p l := by
  induction l <;> grind [appendIndomreclist]

theorem Has.append (h : Has l indom' q) : Has (appendIndomreclist indom p l) indom' q := by
  obtain ⟨n, hn, hi, hq⟩ := h
  refine ⟨n, mem_append hn fun hp => ?_, hi, hq⟩
  simp [IndomRec.pending, hp] at hq

structure Loaded (s : Lists β) : Prop where
  grouped : Grouped (s.rindom.map IndomRec.indom)
  written : ∀ n ∈ s.rindom, n.written = false
  out : s.out = []

structure Extends (s s' : Lists β) : Prop where
  has : ∀ indom p, Has s.rindom indom p → Has s'.rindom indom p
  desc? : ∀ pmid d, s.desc? pmid = some d → s'.desc? pmid = some d

theorem updateDescreclist_find? {l : List DescRec} (h : updateDescreclist d l = some (b, l')) :
    (l'.map DescRec.desc).find? (·.pmid = d.pmid) = some d ∧
      ∀ k x, (l.map DescRec.desc).find? (·.pmid = k) = some x →
        (l'.map DescRec.desc).find? (·.pmid = k) = some x := by
  induction l generalizing l'
  case nil =>
    cases h
    exact ⟨by simp, nofun⟩
  case cons n l ih =>
    unfold updateDescreclist at h
    split at h
    case isTrue hn =>
      split at h
      case isFalse => cases h
      case isTrue he =>
        cases h
        have hd : n.desc = d := by
          obtain ⟨⟨_, _, _, _, _⟩, _, _⟩ := n
          simp_all
        exact ⟨by simp [hd], fun _ _ => id⟩
    case isFalse hn =>
      obtain ⟨⟨b', l''⟩, hu, he⟩ := map_eq_some_iff.mp h
      cases he
      obtain ⟨hd, hk⟩ := ih hu
      refine ⟨by simpa [hn] using hd, fun k x hx => ?_⟩
      by_cases hnk : n.desc.pmid = k
      · simpa [hnk] using hx
      · simp only [map_cons, find?_cons, hnk, decide_false] at hx ⊢
        exact hk k x hx

theorem Extends.refl : Extends s s :=
  ⟨fun _ _ => id, fun _ _ => id⟩

theorem Extends.trans (h : Extends s₁ s₂) (h' : Extends s₂ s₃) : Extends (β := β) s₁ s₃ :=
  ⟨fun i p hp => h'.has i p (h.has i p hp), fun k d hd => h'.desc? k d (h.desc? k d hd)⟩

theorem nextmeta_desc (h : Loaded s) (hs : s.nextmeta (.desc d) = some s') :
    Loaded s' ∧ Extends s s' ∧ s'.desc? d.pmid = some d := by
  have hk (k x) (hx : s.desc? k = some x) :
      ((if s.rdesc.isEmpty then [mkReclist] else s.rdesc).map DescRec.desc).find? (·.pmid = k) =
        some x := by
    cases hr : s.rdesc
    case nil => simp [Lists.desc?, hr] at hx
    case cons => rwa [Lists.desc?, hr] at hx
  simp only [nextmeta] at hs
  split at hs
  case h_1 => cases hs
  case h_2 rdesc hu =>
    cases hs
    obtain ⟨hd, hu⟩ := updateDescreclist_find? hu
    exact ⟨⟨h.grouped, h.written, h.out⟩, ⟨fun _ _ => id, fun k x hx => hu k x (hk k x hx)⟩, hd⟩
  case h_3 rdesc hu =>
    cases hs
    obtain ⟨hd, hu⟩ := updateDescreclist_find? hu
    refine ⟨⟨?_, written_findnadd h.written, h.out⟩, ⟨?_, fun k x hx => hu k x (hk k x hx)⟩, hd⟩
    · obtain he | he := findnadd_indom d.indom s.rindom
      · exact he ▸ h.grouped
      · exact he ▸ h.grouped.add
    · intro i p ⟨n, hn, hp⟩
      exact ⟨n, mem_findnadd hn, hp⟩

theorem nextmeta_indom (h : Loaded s) (hs : s.nextmeta (.indom i p) = some s') :
    Loaded s' ∧ Extends s s' ∧ Has s'.rindom i p := by
  cases hs
  refine ⟨⟨?_, written_append h.written, h.out⟩, ⟨fun _ _ => Has.append, fun _ _ => id⟩,
    has_append h.written⟩
  obtain he | he := append_indom i p s.rindom
  · exact he ▸ h.grouped
  · exact he ▸ h.grouped.add

theorem exec_nextmeta (h : Loaded s) (he : exec nextmeta s metas = some s') :
    Loaded s' ∧ Extends s s' ∧ (∀ d, .desc d ∈ metas → s'.desc? d.pmid = some d) ∧
      ∀ i p, .indom i p ∈ metas → Has s'.rindom i p := by
  induction metas generalizing s
  case nil =>
    cases he
    exact ⟨h, .refl, nofun, nofun⟩
  case cons m metas ih =>
    obtain ⟨s₁, hs, hr⟩ := bind_eq_some_iff.mp he
    cases m
    case desc d =>
      obtain ⟨h₁, hx, hd⟩ := nextmeta_desc h hs
      obtain ⟨h', hx', hds, his⟩ := ih h₁ hr
      refine ⟨h', hx.trans hx', fun d' hd' => ?_, fun i p hp => ?_⟩
      · obtain he | hd' := mem_cons.mp hd'
        · cases he
          exact hx'.desc? _ _ hd
        · exact hds d' hd'
      · exact his i p ((mem_cons.mp hp).resolve_left nofun)
    case indom j q =>
      obtain ⟨h₁, hx, hq⟩ := nextmeta_indom h hs
      obtain ⟨h', hx', hds, his⟩ := ih h₁ hr
      refine ⟨h', hx.trans hx', fun d hd => ?_, fun i p hp => ?_⟩
      · exact hds d ((mem_cons.mp hd).resolve_left nofun)
      · obtain he | hp := mem_cons.mp hp
        · cases he
          exact hx'.has _ _ hq
        · exact his i p hp

theorem loaded_nil : Loaded (⟨[], [], []⟩ : Lists β) :=
  ⟨trivial, nofun, rfl⟩

theorem load_inv (h : load metas = some s) (indom : Nat) : Inv metas indom s [] := by
  obtain ⟨hl, -, -, hi⟩ := exec_nextmeta loaded_nil h
  refine ⟨hl.grouped, .nil, fun p hp => .inl ((mem_unwritten hl.grouped).mpr ?_), ?_, nofun⟩
  · obtain ⟨m, hm, hp⟩ := mem_filterMap.mp hp
    cases m
    case desc => cases hp
    case indom j q =>
      by_cases hj : j = indom
      · simp only [hj, if_true] at hp
        exact hj ▸ hp ▸ hi j q hm
      · simp [hj] at hp
  · rw [hl.out]
    nofun

theorem load_desc? (h : load metas = some s) (hd : .desc d ∈ metas) : s.desc? d.pmid = some d :=
  (exec_nextmeta loaded_nil h).right.right.left d hd

end Load

theorem metrics_sorted {results : List (Record (List Nat))}
    (h : results.Pairwise (·.stamp ≤ ·.stamp)) :
    (results.flatMap metrics).Pairwise (·.1 ≤ ·.1) := by
  refine pairwise_flatMap.mpr ⟨fun r _ => ?_, h.imp fun {r r'} hr x hx y hy => ?_⟩
  · exact pairwise_map.mpr (pairwise_of_forall fun _ _ => le_rfl)
  · obtain ⟨_, -, rfl⟩ := mem_map.mp hx
    obtain ⟨_, -, rfl⟩ := mem_map.mp hy
    exact hr

theorem exec_inEffect (hl : load metas = some s)
    (ho : results.Pairwise (·.stamp ≤ ·.stamp))
    (hg : Guarded writeMetric (MetricCurrent metas) s (results.flatMap metrics))
    (he : exec writeMetareclist s results = some s') :
    ∀ r ∈ results, ∀ d, .desc d ∈ metas → d.pmid ∈ r.vset → d.indom ≠ pmIndomNull →
      (inEffect r.stamp d.indom s'.out).map Pdu.insts =
        (inEffect r.stamp d.indom metas).map Pdu.insts := by
  intro r hr d hd hm hn
  have he : exec writeMetric s (results.flatMap metrics) = some s' :=
    exec_flatMap.symm.trans he
  obtain ⟨ts, h, -, ht⟩ :=
    (load_inv hl d.indom).exec hn (fun _ _ => nofun) (metrics_sorted ho) hg he
  refine h.current _ (ht (r.stamp, d.pmid) ?_ d (load_desc? hl hd) rfl)
  exact mem_flatMap.mpr ⟨r, hr, mem_map_of_mem hm⟩

theorem extract_inEffect {a : Archive (List Nat)} {volume : List (Item (List Nat))}
    (hv : extract warg winstart winend [a] = some volume) (hl : load metas = some s)
    (hg : Run.Guarded writeMetric (MetricCurrent metas) s
      ((volume.filterMap Item.record?).flatMap metrics))
    (he : Run.exec writeMetareclist s (volume.filterMap Item.record?) = some s') :
    ∀ r, .data r ∈ volume → ∀ d, .desc d ∈ metas → d.pmid ∈ r.vset → d.indom ≠ pmIndomNull →
      (inEffect r.stamp d.indom s'.out).map Pdu.insts =
        (inEffect r.stamp d.indom metas).map Pdu.insts := by
  intro r hr
  refine exec_inEffect hl (a.sorted.sublist (extract_sublist hv)) hg he r ?_
  exact mem_filterMap.mpr ⟨_, hr, rfl⟩

def changed : List (Meta (List Nat)) :=
  [.desc ⟨1, 0, 7, 3, ⟨0, 0, 0, 0, 0, 0⟩⟩, .indom 7 ⟨⟨1, 0⟩, [0]⟩, .indom 7 ⟨⟨2, 0⟩, [0, 1]⟩]

def twice : Archive (List Nat) where
  log := [⟨⟨3, 0⟩, [1]⟩, ⟨⟨4, 0⟩, [1]⟩]
  ne := List.cons_ne_nil _ _
  sorted := List.pairwise_pair.mpr (of_decide_eq_true rfl)
  normal := List.forall_mem_cons.mpr
    ⟨Nat.succ_pos 999999, List.forall_mem_singleton.mpr (Nat.succ_pos 999999)⟩

theorem extract_inEffect_first : ∃ s s',
    extract false ⟨0, 0⟩ ⟨3, 0⟩ [twice] = some [.label, .data ⟨⟨3, 0⟩, [1]⟩] ∧
    load changed = some s ∧ Run.exec writeMetareclist s [⟨⟨3, 0⟩, [1]⟩] = some s' ∧
    (inEffect ⟨3, 0⟩ 7 s'.out).map Pdu.insts = (inEffect ⟨3, 0⟩ 7 changed).map Pdu.insts := by
  have hv : extract false ⟨0, 0⟩ ⟨3, 0⟩ [twice] = some [.label, .data ⟨⟨3, 0⟩, [1]⟩] := by
    decide +kernel
  have hg : ∀ s, load changed = some s → Guarded writeMetric (MetricCurrent changed) s
      [(⟨3, 0⟩, 1)] := by
    decide +kernel
  refine ⟨_, _, hv, rfl, rfl, ?_⟩
  exact extract_inEffect hv rfl (hg _ rfl) rfl ⟨⟨3, 0⟩, [1]⟩ (by decide)
    ⟨1, 0, 7, 3, ⟨0, 0, 0, 0, 0, 0⟩⟩ (by decide) (by decide) (by decide)

-- The older record is written by the second record.
theorem extract_stale : ∃ s s',
    extract false ⟨0, 0⟩ ⟨4, 0⟩ [twice] =
      some [.label, .data ⟨⟨3, 0⟩, [1]⟩, .data ⟨⟨4, 0⟩, [1]⟩] ∧
    load changed = some s ∧
    Run.exec writeMetareclist s [⟨⟨3, 0⟩, [1]⟩, ⟨⟨4, 0⟩, [1]⟩] = some s' ∧
    (inEffect ⟨4, 0⟩ 7 s'.out).map Pdu.insts = some [0] ∧
    (inEffect ⟨4, 0⟩ 7 changed).map Pdu.insts = some [0, 1] := by
  refine ⟨_, _, by decide +kernel, rfl, rfl, ?_, ?_⟩
  · decide +kernel
  · decide +kernel

end Lists

end Extract
