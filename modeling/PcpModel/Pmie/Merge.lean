import PcpModel.Pmie.Expr

-- The operators on two samples, and the selection of instances (merge.sk, meta, match_inst.c).
namespace Pmie

open Truth List

namespace Expr

section Merge

variable (op : Int → ι → ι → ο) (x : Expr ο) (arg1 : Expr ι)

-- An operator has the time between the samples and the values of the newest and of the older one.
def merge : List ο :=
  .zipWith (op (arg1.stamp - arg1.stamps.getD 1 0)) arg1.now arg1.before

def merge_n : Expr ο :=
  if arg1.valid ≥ 2 ∧ x.tspan > 0 then
    x.rotate.put ((merge op arg1).take x.tspan) arg1.stamp
  else
    x.rotate.invalid

def merge_1 : Expr ο :=
  if arg1.valid ≥ 2 then
    x.rotate.put ((merge op arg1).take 1) arg1.stamp
  else
    x.rotate.invalid

end Merge

section Operators

variable (x arg1 : Expr Truth)

def cndRise_n : Expr Truth :=
  merge_n (fun _ u v => .ofBool (u.toNat > v.toNat)) x arg1

def cndRise_1 : Expr Truth :=
  merge_1 (fun _ u v => .ofBool (u.toNat > v.toNat)) x arg1

def cndFall_n : Expr Truth :=
  merge_n (fun _ u v => .ofBool (u.toNat < v.toNat)) x arg1

def cndFall_1 : Expr Truth :=
  merge_1 (fun _ u v => .ofBool (u.toNat < v.toNat)) x arg1

-- The evaluators for an argument that always has one value, and for any other one (`findEval`).
def cndRise (one : Bool) : Expr Truth :=
  if one then x.cndRise_1 arg1 else x.cndRise_n arg1

def cndFall (one : Bool) : Expr Truth :=
  if one then x.cndFall_1 arg1 else x.cndFall_n arg1

end Operators

section Match

-- The regular expression, and whether its matches are looked for.
variable (regexec : String → Bool) (desire : Bool)

-- The next metric that has a value with this index. The current metric is the first one.
def nextMetric : List Metric → Nat → Option (List Metric × Nat)
  | [], _ => none
  | m :: ms, i => if i ≥ m.mIdom then nextMetric ms 0 else some (m :: ms, i)

def matchName (t : Truth) (inames : Option (List String)) (i : Nat) : Option Truth :=
  match inames with
  | none => some FALSE
  | some names => names[i]?.map fun name => .ofBool (t.toNat ≠ 0 ∧ regexec name = desire)

def matchLoop : List Truth → List Metric → Nat → Option (List Truth)
  | [], _, _ => some []
  | t :: ip, ms, i => do
    let (ms, i) ← nextMetric ms i
    let v ← matchName regexec desire t (ms.head?.bind Metric.inames) i
    let vs ← matchLoop ip ms (i + 1)
    some (v :: vs)

-- `handle` is whether the regular expression is valid.
def matchValues (x arg1 : Expr Truth) (handle : Bool) : Option (List Truth) :=
  if ¬handle ∨ arg1.valid = 0 then
    some (arg1.now.map fun _ => DUNNO)
  else if x.eIdom ≤ 0 then
    some (arg1.now.map fun _ => FALSE)
  else
    matchLoop regexec desire arg1.now arg1.metrics 0

def cndMatch_inst (x arg1 : Expr Truth) (handle : Bool) : Option (Expr Truth) :=
  if arg1.tspan > 0 then
    (matchValues regexec desire x arg1 handle).map (x.rotate.put · arg1.stamp)
  else
    some { x.rotate.invalid with stamps := x.rotate.stamps.set 0 arg1.stamp }

end Match

namespace Names

def host (m : Metric) : List (Option String) :=
  (List.range m.mIdom.toNat).map fun i => m.inames.bind (·[i]?)

def own (metrics : List Metric) : List (Option String) :=
  metrics.flatMap host

-- Each instance of a metric has a name, if they have names at all.
def Complete (m : Metric) : Prop :=
  ∀ names ∈ m.inames, m.mIdom ≤ names.length

def Within : List Metric → Nat → Prop
  | [], _ => True
  | m :: _, i => i ≤ m.mIdom.toNat

@[simp]
theorem host_length : (host m).length = m.mIdom.toNat := by
  simp [host]

theorem within_zero : Within ms 0 := by
  cases ms
  case nil => trivial
  case cons => exact Nat.zero_le _

theorem nextMetric_eq : ∀ {ms : List Metric} {i : Nat}, Within ms i → i < (own ms).length →
    ∃ m ms' j, nextMetric ms i = some (m :: ms', j) ∧ j < m.mIdom.toNat ∧
      (own (m :: ms')).drop j = (own ms).drop i ∧ m :: ms' ⊆ ms
  | [], _, _, h => absurd h (Nat.not_lt_zero _)
  | m :: ms, i, hw, h => by
    by_cases hi : i ≥ m.mIdom
    · have he : i = (host m).length := by
        have : i ≤ m.mIdom.toNat := hw
        rw [host_length]
        omega
      have hd : (own (m :: ms)).drop i = own ms := by
        rw [own, flatMap_cons, he, drop_left]
        rfl
      have hp : 0 < (own ms).length := by
        rw [← hd, length_drop]
        omega
      obtain ⟨m', ms', j, hn, hj, hr, hs⟩ := nextMetric_eq within_zero hp
      refine ⟨m', ms', j, ?_, hj, hr.trans hd.symm, Subset.trans hs (subset_cons_self ..)⟩
      rw [nextMetric, if_pos hi, hn]
    · exact ⟨m, ms, i, if_neg hi, by omega, rfl, Subset.refl _⟩

section Loop

variable {regexec : String → Bool} {desire : Bool}

def select (regexec : String → Bool) (desire : Bool) (t : Truth) : Option String → Truth
  | none => FALSE
  | some name => .ofBool (t.toNat ≠ 0 ∧ regexec name = desire)

theorem matchName_eq (hc : Complete m) (hi : i < m.mIdom.toNat) :
    matchName regexec desire t m.inames i =
      some (select regexec desire t (m.inames.bind (·[i]?))) := by
  cases h : m.inames with
  | none => rfl
  | some names =>
    have hl : i < names.length := by
      have := hc names h
      omega
    simp [matchName, select, hl]

theorem host_drop (hi : i < m.mIdom.toNat) :
    (host m).drop i = m.inames.bind (·[i]?) :: (host m).drop (i + 1) := by
  have hl : i < (host m).length := host_length.symm ▸ hi
  rw [drop_eq_getElem_cons hl]
  simp [host]

theorem own_drop (hi : i < m.mIdom.toNat) :
    (own (m :: ms)).drop i = m.inames.bind (·[i]?) :: (own (m :: ms)).drop (i + 1) := by
  have hl : i + 1 ≤ (host m).length := host_length.symm ▸ hi
  rw [own, flatMap_cons, drop_append_of_le_length (Nat.le_of_succ_le hl), host_drop hi,
    drop_append_of_le_length hl, cons_append]

theorem matchLoop_eq : ∀ {ip : List Truth} {ms : List Metric} {i : Nat}, (∀ m ∈ ms, Complete m) →
    Within ms i → ip.length ≤ ((own ms).drop i).length →
      matchLoop regexec desire ip ms i =
        some (.zipWith (select regexec desire) ip ((own ms).drop i))
  | [], _, _, _, _, _ => rfl
  | t :: ip, ms, i, hc, hw, h => by
    have hi : i < (own ms).length := by
      rw [length_cons, length_drop] at h
      omega
    obtain ⟨m, ms', j, hn, hj, hd, hs⟩ := nextMetric_eq hw hi
    have hm := hc m (hs mem_cons_self)
    rw [← hd, own_drop hj] at h ⊢
    have hr := @matchLoop_eq ip (m :: ms') (j + 1) (fun m' hm' => hc m' (hs hm')) hj
      (Nat.le_of_succ_le_succ h)
    simp [matchLoop, hn, matchName_eq hm hj, hr]

end Loop

end Names

section Definite

structure Two (one : Bool) (x arg1 : Expr Truth) : Prop where
  valid : 2 ≤ arg1.valid
  nsmpls : 2 ≤ arg1.nsmpls
  tspan : arg1.tspan = x.tspan
  single : one = true → x.tspan = 1

structure Named (x arg1 : Expr Truth) : Prop where
  tspan : arg1.tspan = x.tspan
  complete : ∀ m ∈ arg1.metrics, Names.Complete m
  length : 0 < x.eIdom → arg1.tspan ≤ (Names.own arg1.metrics).length

variable {x arg1 : Expr Truth}

theorem before_length (h : 2 ≤ arg1.nsmpls) : arg1.before.length = arg1.tspan := by
  have hl : 1 < arg1.ring.ptrs.length := h
  have hb : arg1.before = arg1.ring.slice arg1.ring.ptrs[1] := by
    simp [before, Samples.all, hl]
  rw [hb]
  exact Samples.slice_length (getElem_mem _)

variable {op : Int → Truth → Truth → Truth}

theorem Two.values (h : Two one x arg1) (hi : i < x.tspan) :
    ∃ d u v, arg1.now[i]? = some u ∧ arg1.before[i]? = some v ∧
      (if one then merge_1 op x arg1 else merge_n op x arg1).now[i]? = some (op d u v) := by
  have hn : i < arg1.now.length := by simpa [h.tspan] using hi
  have hb : i < arg1.before.length := by simpa [before_length h.nsmpls, h.tspan] using hi
  have hm : (merge op arg1).length = x.tspan := by
    simp [merge, before_length h.nsmpls, h.tspan]
  have hw : (x.rotate.put (merge op arg1) arg1.stamp).now = merge op arg1 :=
    put_now (hm.trans rotate_tspan.symm)
  refine ⟨arg1.stamp - arg1.stamps.getD 1 0, _, _, getElem?_eq_getElem hn,
    getElem?_eq_getElem hb, ?_⟩
  have he : (if one then merge_1 op x arg1 else merge_n op x arg1) =
      x.rotate.put (merge op arg1) arg1.stamp := by
    cases one
    case false =>
      rw [if_neg nofun, merge_n, if_pos ⟨h.valid, Nat.zero_lt_of_lt hi⟩,
        take_of_length_le (Nat.le_of_eq hm)]
    case true =>
      have h₁ := h.single rfl
      rw [if_pos rfl, merge_1, if_pos h.valid, take_of_length_le (by omega)]
  rw [he, hw, merge, getElem?_zipWith, getElem?_eq_getElem hn,
    getElem?_eq_getElem hb]

-- Rising and falling values are only found where both samples are known.
def Rising (x arg1 : Expr Truth) (one : Bool) : Prop :=
  ∀ i < x.tspan, (x.cndRise arg1 one).now[i]? = some TRUE →
    arg1.before[i]? = some FALSE ∧ arg1.now[i]? = some TRUE

def Falling (x arg1 : Expr Truth) (one : Bool) : Prop :=
  ∀ i < x.tspan, (x.cndFall arg1 one).now[i]? = some TRUE →
    arg1.before[i]? = some TRUE ∧ arg1.now[i]? = some FALSE

theorem rising_iff (h : Two one x arg1) : Rising x arg1 one ↔
    ∀ i < x.tspan, arg1.now[i]? = some DUNNO → arg1.before[i]? = some DUNNO := by
  refine forall₂_congr fun i hi => ?_
  obtain ⟨d, u, v, hu, hv, he⟩ := h.values hi
  rw [hu, hv, cndRise, cndRise_1, cndRise_n, he]
  cases u <;> cases v <;> decide

theorem falling_iff (h : Two one x arg1) : Falling x arg1 one ↔
    ∀ i < x.tspan, arg1.before[i]? = some DUNNO → arg1.now[i]? = some DUNNO := by
  refine forall₂_congr fun i hi => ?_
  obtain ⟨d, u, v, hu, hv, he⟩ := h.values hi
  rw [hu, hv, cndFall, cndFall_1, cndFall_n, he]
  cases u <;> cases v <;> decide

variable {regexec : String → Bool} {desire handle : Bool}

def Wanted (regexec : String → Bool) (desire : Bool) (arg1 : Expr Truth) (i : Nat) : Prop :=
  ∃ name, (Names.own arg1.metrics)[i]? = some (some name) ∧ regexec name = desire

-- Instances are only selected if their operand is true.
def Matching (regexec : String → Bool) (desire : Bool) (x arg1 : Expr Truth) (handle : Bool) :
    Prop :=
  ∃ x', cndMatch_inst regexec desire x arg1 handle = some x' ∧
    ∀ i < x.tspan, x'.now[i]? = some TRUE →
      arg1.now[i]? = some TRUE ∧ Wanted regexec desire arg1 i

theorem Named.matching_iff (h : Named x arg1) (hp : 0 < arg1.tspan)
    (he : matchValues regexec desire x arg1 handle = some vs) (hl : vs.length = arg1.tspan) :
    Matching regexec desire x arg1 handle ↔ ∀ i < x.tspan, vs[i]? = some TRUE →
      arg1.now[i]? = some TRUE ∧ Wanted regexec desire arg1 i := by
  have hw : cndMatch_inst regexec desire x arg1 handle = some (x.rotate.put vs arg1.stamp) := by
    rw [cndMatch_inst, if_pos hp, he, Option.map_some]
  have hn : (x.rotate.put vs arg1.stamp).now = vs :=
    put_now (hl.trans (h.tspan.trans rotate_tspan.symm))
  simp [Matching, hw, hn]

theorem Named.matching_const (t : Truth) (h : Named x arg1) (hp : 0 < arg1.tspan) (ht : t ≠ TRUE)
    (he : matchValues regexec desire x arg1 handle = some (arg1.now.map fun _ => t)) :
    Matching regexec desire x arg1 handle := by
  refine (h.matching_iff hp he (by simp)).mpr fun i _ hi => ?_
  obtain ⟨u, -, hu⟩ := mem_map.mp (mem_of_getElem? hi)
  exact absurd hu ht

theorem select_true (hi : i < arg1.tspan) (hn : i < (Names.own arg1.metrics).length) :
    (zipWith (Names.select regexec desire) arg1.now (Names.own arg1.metrics))[i]? =
      some TRUE ↔ arg1.now[i]? ≠ some FALSE ∧ Wanted regexec desire arg1 i := by
  have hv : i < arg1.now.length := now_length.symm ▸ hi
  rw [getElem?_zipWith, getElem?_eq_getElem hv, Wanted, getElem?_eq_getElem hn]
  cases (Names.own arg1.metrics)[i] with
  | none => simp [Names.select]
  | some name => cases arg1.now[i] <;> simp [Names.select, Truth.toNat]

theorem matching_iff (h : Named x arg1) : Matching regexec desire x arg1 handle ↔
    (handle = true → arg1.valid ≠ 0 → 0 < x.eIdom →
      ∀ i < x.tspan, arg1.now[i]? = some DUNNO → ¬Wanted regexec desire arg1 i) := by
  by_cases hp : 0 < arg1.tspan
  case neg =>
    have ht : x.tspan = 0 := h.tspan.symm.trans (Nat.eq_zero_of_not_pos hp)
    simp [Matching, cndMatch_inst, hp, ht]
  case pos =>
    by_cases hv : ¬handle = true ∨ arg1.valid = 0
    · refine iff_of_true (h.matching_const DUNNO hp nofun (if_pos hv)) fun hh hn => ?_
      exact absurd hv (by simp [hh, hn])
    by_cases he : x.eIdom ≤ 0
    · refine iff_of_true (h.matching_const FALSE hp nofun ((if_neg hv).trans (if_pos he))) ?_
      exact fun _ _ h₀ => absurd h₀ (Int.not_lt.mpr he)
    have h₀ : 0 < x.eIdom := Int.not_le.mp he
    have hl : arg1.now.length ≤ ((Names.own arg1.metrics).drop 0).length :=
      now_length.symm ▸ h.length h₀
    have hm := @Names.matchLoop_eq regexec desire _ _ 0 h.complete Names.within_zero hl
    have hz : (zipWith (Names.select regexec desire) arg1.now
        ((Names.own arg1.metrics).drop 0)).length = arg1.tspan := by
      rw [length_zipWith, now_length]
      exact Nat.min_eq_left (h.length h₀)
    rw [h.matching_iff hp ((if_neg hv).trans ((if_neg he).trans hm)) hz]
    obtain ⟨hh, hn⟩ := not_or.mp hv
    simp only [not_not.mp hh, hn, h₀, ne_eq, not_false_eq_true, forall_const, drop_zero]
    refine forall₂_congr fun i hi => ?_
    have hi' : i < arg1.tspan := h.tspan.symm ▸ hi
    have hv' : i < arg1.now.length := now_length.symm ▸ hi'
    rw [select_true hi' (Nat.lt_of_lt_of_le hi' (h.length h₀)), getElem?_eq_getElem hv']
    cases arg1.now[i] <;> simp

theorem definite_iff (h : Two one x arg1) (hy : Named y arg) :
    (Rising x arg1 one ∧ Falling x arg1 one ∧ Matching regexec desire y arg handle) ↔
      (∀ i < x.tspan, arg1.now[i]? = some DUNNO ↔ arg1.before[i]? = some DUNNO) ∧
      (handle = true → arg.valid ≠ 0 → 0 < y.eIdom →
        ∀ i < y.tspan, arg.now[i]? = some DUNNO → ¬Wanted regexec desire arg i) := by
  rw [rising_iff h, falling_iff h, matching_iff hy, ← and_assoc]
  refine and_congr_left' ⟨fun hb i hi => ⟨hb.left i hi, hb.right i hi⟩, fun hb => ?_⟩
  exact ⟨fun i hi => (hb i hi).mp, fun i hi => (hb i hi).mpr⟩

def double (older newest : List Truth) : Expr Truth where
  hdom := 1
  eIdom := newest.length
  tdom := 2
  metrics := []
  valid := 2
  ring := ((Samples.fresh newest.length 1 DUNNO).store older).rotate.store newest
  gen := 0
  stamps := [1, 0]

theorem definite_iff_two :
    Rising (single 1 2 [] [FALSE, FALSE]) (double [FALSE, DUNNO] [TRUE, DUNNO]) false ∧
    Falling (single 1 2 [] [FALSE, FALSE]) (double [FALSE, DUNNO] [TRUE, DUNNO]) false ∧
    Matching (· = "sda") true (single 1 2 [] [FALSE, FALSE])
      (single 1 2 [⟨2, some ["sda", "sdb"]⟩] [TRUE, DUNNO]) true := by
  have ht : Two false (single 1 2 [] [FALSE, FALSE]) (double [FALSE, DUNNO] [TRUE, DUNNO]) :=
    ⟨Nat.le_refl 2, Nat.le_refl 2, rfl, nofun⟩
  have hn : Named (single 1 2 [] [FALSE, FALSE])
      (single 1 2 [⟨2, some ["sda", "sdb"]⟩] [TRUE, DUNNO]) := by
    refine ⟨rfl, forall_mem_singleton.mpr fun names h => ?_, fun _ => Nat.le_refl 2⟩
    cases h
    exact Int.le_refl 2
  refine (definite_iff ht hn).mpr ⟨by decide, fun _ _ _ i hi hd => ?_⟩
  rintro ⟨name, ho, hm⟩
  match i, hi with
  | 0, _ => cases hd
  | 1, _ =>
    cases ho
    cases hm

theorem definite_not :
    ((single 1 1 [] [FALSE]).cndRise (double [FALSE] [DUNNO]) true).now = [TRUE] ∧
    ((single 1 1 [] [FALSE]).cndFall (double [DUNNO] [FALSE]) true).now = [TRUE] ∧
    (cndMatch_inst (· = "sda") true (single 1 1 [] [FALSE])
      (single 1 1 [⟨1, some ["sda"]⟩] [DUNNO]) true).map now = some [TRUE] := by
  decide

end Definite

end Expr

end Pmie
