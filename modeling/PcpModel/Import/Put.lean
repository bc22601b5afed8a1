import Mathlib.Data.List.Induction
import PcpModel.Import.Basic
import PcpModel.Library.Run

-- The values that have been put are the ones in the result.
namespace Import

open List Pcp

inductive Datum
  | word (lval : Int)
  | bytes (vtype : PmType) (l : List UInt8)
  deriving DecidableEq

def Value.datum : Value → Datum
  | .insitu lval => .word lval
  | .dptr vtype _ vbuf => .bytes vtype vbuf

def Value.read : Valfmt → Value → Option Datum
  | .insitu, .insitu lval => some (.word lval)
  | .dptr, .dptr vtype vlen vbuf => some (.bytes vtype (vbuf.take (vlen - 4)))
  | _, _ => none

structure Triple where
  pmid : Nat
  inst : Int
  datum : Datum

def pmids (log : List Triple) : List Nat :=
  log.foldl (fun l t => if t.pmid ∈ l then l else l ++ [t.pmid]) []

def values (log : List Triple) (pmid : Nat) : List (Int × Datum) :=
  (log.filter (·.pmid = pmid)).map fun t => (t.inst, t.datum)

structure View where
  pmid : Nat
  numval : Int
  vlist : List (Int × Option Datum)

def ValueSet.view (vsp : ValueSet) : View where
  pmid := vsp.pmid
  numval := vsp.numval
  vlist := vsp.vlist.map fun v => (v.1, v.2.read vsp.valfmt)

def expected (log : List Triple) (pmid : Nat) : View where
  pmid := pmid
  numval := (values log pmid).length
  vlist := (values log pmid).map fun v => (v.1, some v.2)

inductive Op
  | addMetric (name : Str) (pmid : Nat) (type : PmType) (indom : Nat) (sem : Int)
  | addInstance (indom : Nat) (name : Str) (inst : Int)
  | getHandle (name : Str) (inst : Option Str)
  | putValue (name : Str) (inst : Option Str) (value : Str)
  | putValueHandle (handle : Int) (value : Str)
  | write

structure Session where
  ctx : Context
  log : List Triple

namespace Session

variable (fl : Floats) (s : Session)

def target (ctx : Context) : Op → Option (Handle × Str)
  | .putValue name inst value => (ctx.makeHandle name inst).toOption.map (·, value)
  | .putValueHandle handle value =>
    if handle ≤ 0 then none else ctx.handle[handle.toNat - 1]?.map (·, value)
  | _ => none

def triple (op : Op) : Option Triple := do
  let (hp, value) ← target s.ctx op
  let mp ← s.ctx.metric[hp.midx]?
  let v ← (convert fl value mp.type).toOption
  return ⟨mp.pmid, hp.inst, v.datum⟩

def run (ctx : Context) : Op → Option (Int × Context)
  | .addMetric name pmid type indom sem => some (ctx.addMetric name pmid type indom sem)
  | .addInstance indom name inst => some (ctx.addInstance indom name inst)
  | .getHandle name inst => some (ctx.getHandle name inst)
  | .putValue name inst value => ctx.putValue fl name inst value
  | .putValueHandle handle value => ctx.putValueHandle fl handle value
  | .write => some ctx.write

def record (sts : Int) : Op → List Triple
  | .write => []
  | op => if sts = 0 then s.log ++ (s.triple fl op).toList else s.log

def step (op : Op) : Option Session :=
  (run fl s.ctx op).map fun r => { ctx := r.2, log := s.record fl r.1 op }

-- The result has all values that have been put, each of them once, and nothing else.
def Exact : Prop :=
  s.ctx.result.map (·.map ValueSet.view) =
    (if s.log = [] then none else some ((pmids s.log).map (expected s.log))) ∧
  (s.log.map fun t => (t.pmid, t.inst)).Nodup

end Session

section Log

variable {log : List Triple} {t : Triple}

theorem pmids_append : pmids (log ++ [t]) =
    if t.pmid ∈ pmids log then pmids log else pmids log ++ [t.pmid] := by
  rw [pmids, foldl_append]
  rfl

theorem mem_pmids : pmid ∈ pmids log ↔ ∃ t ∈ log, t.pmid = pmid := by
  induction log using reverseRecOn
  case nil => simp [pmids]
  case append_singleton log t hi =>
    rw [pmids_append]
    split <;> grind

theorem nodup_pmids (log : List Triple) : (pmids log).Nodup := by
  induction log using reverseRecOn
  case nil => simp [pmids]
  case append_singleton log t hi =>
    rw [pmids_append]
    split
    case isTrue => exact hi
    case isFalse h =>
      have hne : ∀ p ∈ pmids log, ¬p = t.pmid := fun p hp he => h (he ▸ hp)
      simpa [nodup_append, hi] using hne

theorem values_append : values (log ++ [t]) pmid =
    if t.pmid = pmid then values log pmid ++ [(t.inst, t.datum)] else values log pmid := by
  simp only [values, filter_append]
  split <;> simp_all

theorem values_eq_nil (h : pmid ∉ pmids log) : values log pmid = [] := by
  have h' : ∀ t ∈ log, ¬t.pmid = pmid := fun t ht he => h (mem_pmids.mpr ⟨t, ht, he⟩)
  simpa [values] using h'

theorem values_ne_nil (h : pmid ∈ pmids log) : values log pmid ≠ [] := by
  obtain ⟨t, ht, rfl⟩ := mem_pmids.mp h
  have hm : (t.inst, t.datum) ∈ values log t.pmid := by
    simp only [values, mem_map, mem_filter, decide_eq_true_eq]
    exact ⟨t, ⟨ht, rfl⟩, rfl⟩
  exact ne_nil_of_mem hm

theorem expected_of_ne (h : t.pmid ≠ pmid) : expected (log ++ [t]) pmid = expected log pmid := by
  simp [expected, values_append, h]

end Log

section Stuff

variable {fl : Floats} {mp : Metric} {vset l₁ l₂ : List ValueSet} {vsp : ValueSet} {inst : Int}
  {value : Str}

theorem stuffInto_new (h : ∀ vsp ∈ vset, vsp.pmid ≠ mp.pmid) :
    stuffInto fl mp inst value vset = some
      (((ValueSet.fresh mp.pmid).put fl mp inst value).1,
        vset ++ [((ValueSet.fresh mp.pmid).put fl mp inst value).2]) := by
  induction vset
  case nil => rfl
  case cons vsp vset hi =>
    obtain ⟨hv, h⟩ := forall_mem_cons.mp h
    simp [stuffInto, hv, hi h]

theorem stuffInto_old (h : ∀ vsp ∈ l₁, vsp.pmid ≠ mp.pmid) (hv : vsp.pmid = mp.pmid) :
    stuffInto fl mp inst value (l₁ ++ vsp :: l₂) =
      (vsp.add fl mp inst value).map fun r => (r.1, l₁ ++ r.2 :: l₂) := by
  induction l₁
  case nil => simp [stuffInto, hv]
  case cons vsp' l₁ hi =>
    obtain ⟨hv', h⟩ := forall_mem_cons.mp h
    simp [stuffInto, hv', hi h]
    rfl

def Value.Fits : Value → Prop
  | .insitu _ => True
  | .dptr _ _ vbuf => vbuf.length + 4 < 0x1000000

theorem block_read :
    (block type l).read fmt = some (block type l).datum ↔ fmt = .dptr ∧ (block type l).Fits := by
  cases fmt
  case insitu => simp [block, Value.read]
  case dptr =>
    simp only [block, Value.read, Value.datum, Value.Fits, Option.some.injEq, Datum.bytes.injEq,
      true_and]
    constructor
    · intro hl
      have := congrArg length hl
      rw [length_take] at this
      omega
    · intro hl
      exact take_of_length_le (by omega)

theorem insitu_read :
    (Value.insitu n).read fmt = some (Value.insitu n).datum ↔
      fmt = .insitu ∧ (Value.insitu n).Fits := by
  cases fmt <;> simp [Value.read, Value.datum, Value.Fits]

-- A value is read as it was made, if it is read in the format of its type and its length has 24
-- bits.
theorem convert_read (fmt : Valfmt) (h : convert fl value type = .ok v) :
    v.read fmt = some v.datum ↔ fmt = type.valfmt ∧ v.Fits := by
  have hc : ∀ {α} (o : Option α) (f : α → Value), conv (o.map f) = .ok v → ∃ a, v = f a := by
    intro α o f ho
    cases o
    case none => cases ho
    case some a =>
      cases ho
      exact ⟨a, rfl⟩
  cases type
  case i32 | u32 =>
    obtain ⟨n, rfl⟩ := hc _ _ h
    exact insitu_read
  case i64 | u64 | float | double =>
    obtain ⟨n, rfl⟩ := hc _ _ h
    exact block_read
  case string =>
    cases h
    exact block_read
  case other => cases h

end Stuff

def Holds (vset : List ValueSet) (log : List Triple) : Prop :=
  vset.map ValueSet.view = (pmids log).map (expected log)

def keys (log : List Triple) : List (Nat × Int) :=
  log.map fun t => (t.pmid, t.inst)

namespace Holds

variable {vset : List ValueSet} {log : List Triple} {vsp : ValueSet}

theorem view_eq (h : Holds vset log) (hv : vsp ∈ vset) : vsp.view = expected log vsp.pmid := by
  have hm : vsp.view ∈ (pmids log).map (expected log) := h ▸ mem_map_of_mem hv
  obtain ⟨p, _, he⟩ := mem_map.mp hm
  have hp : p = vsp.pmid := congrArg View.pmid he
  rw [← he, hp]

theorem pmids_eq (h : Holds vset log) : vset.map (·.pmid) = pmids log := by
  have := congrArg (map View.pmid) h
  simpa [Function.comp_def, ValueSet.view, expected] using this

theorem insts_eq (h : Holds vset log) (hv : vsp ∈ vset) :
    vsp.vlist.map (·.1) = (values log vsp.pmid).map (·.1) := by
  have := congrArg (fun w => w.vlist.map (·.1)) (h.view_eq hv)
  simpa [Function.comp_def, ValueSet.view, expected] using this

theorem numval_eq (h : Holds vset log) (hv : vsp ∈ vset) : vsp.numval = vsp.vlist.length := by
  have hn : vsp.numval = (values log vsp.pmid).length := congrArg View.numval (h.view_eq hv)
  have hl := congrArg length (h.insts_eq hv)
  simp only [length_map] at hl
  rw [hn, hl]

theorem nonneg (h : Holds vset log) (hv : vsp ∈ vset) : 0 ≤ vsp.numval := by
  rw [h.numval_eq hv]
  omega

theorem iff_view : Holds vset log ↔
    vset.map (·.pmid) = pmids log ∧ ∀ vsp ∈ vset, vsp.view = expected log vsp.pmid := by
  refine ⟨fun h => ⟨h.pmids_eq, fun _ hv => h.view_eq hv⟩, fun ⟨hp, hv⟩ => ?_⟩
  rw [Holds, ← hp, map_map]
  exact map_congr_left hv

end Holds

theorem mem_keys : (pmid, inst) ∈ keys log ↔ inst ∈ (values log pmid).map (·.1) := by
  simp [keys, values, and_assoc]

section Stuff

variable {fl : Floats} {mp : Metric} {vset l₁ l₂ : List ValueSet} {vsp : ValueSet} {inst : Int}
  {value : Str} {log : List Triple} {v : Value}

def Dup (vset : List ValueSet) (mp : Metric) (inst : Int) : Prop :=
  ∃ vsp ∈ vset, vsp.pmid = mp.pmid ∧ (mp.indom = pmIndomNull ∨ inst ∈ vsp.vlist.map (·.1))

theorem Holds.split (h : Holds vset log) (hv : vsp ∈ vset) (hp : vsp.pmid = mp.pmid) :
    ∃ l₁ l₂, vset = l₁ ++ vsp :: l₂ ∧ (∀ w ∈ l₁, w.pmid ≠ mp.pmid) ∧
      ∀ w ∈ l₂, w.pmid ≠ mp.pmid := by
  obtain ⟨l₁, l₂, rfl⟩ := append_of_mem hv
  have hn := nodup_pmids log
  rw [← h.pmids_eq] at hn
  simp only [map_append, map_cons, nodup_append, nodup_cons, mem_map,
    mem_cons] at hn
  refine ⟨l₁, l₂, rfl, fun w hw he => ?_, fun w hw he => ?_⟩
  · exact hn.right.right w.pmid ⟨w, hw, rfl⟩ vsp.pmid (.inl rfl) (he.trans hp.symm)
  · exact hn.right.left.left ⟨w, hw, he.trans hp.symm⟩

theorem Holds.replace (h : Holds (l₁ ++ vsp :: l₂) log) (hp : vsp.pmid = mp.pmid)
    (h₁ : ∀ w ∈ l₁, w.pmid ≠ mp.pmid) (h₂ : ∀ w ∈ l₂, w.pmid ≠ mp.pmid)
    (hp' : vsp'.pmid = mp.pmid) :
    Holds (l₁ ++ vsp' :: l₂) (log ++ [⟨mp.pmid, inst, d⟩]) ↔
      vsp'.view = expected (log ++ [⟨mp.pmid, inst, d⟩]) mp.pmid := by
  obtain ⟨hps, hvs⟩ := iff_view.mp h
  have hmem : mp.pmid ∈ pmids log := by simp [← hps, hp]
  have hother : ∀ w ∈ l₁ ++ vsp :: l₂, w.pmid ≠ mp.pmid →
      w.view = expected (log ++ [⟨mp.pmid, inst, d⟩]) w.pmid := fun w hw hne =>
    (hvs w hw).trans (expected_of_ne hne.symm).symm
  rw [iff_view, pmids_append, ← hps]
  constructor
  · intro hr
    have := hr.right vsp' (by simp)
    rwa [hp'] at this
  · intro hr
    refine ⟨by simp [hp, hp'], fun w hw => ?_⟩
    rcases mem_append.mp hw with hw | hw
    · exact hother w (by simp [hw]) (h₁ w hw)
    · rcases mem_cons.mp hw with rfl | hw
      · rwa [hp']
      · exact hother w (by simp [hw]) (h₂ w hw)

theorem Holds.snoc (h : Holds vset log) (hne : ∀ w ∈ vset, w.pmid ≠ mp.pmid)
    (hp : vsp.pmid = mp.pmid) :
    Holds (vset ++ [vsp]) (log ++ [⟨mp.pmid, inst, d⟩]) ↔
      vsp.view = expected (log ++ [⟨mp.pmid, inst, d⟩]) mp.pmid := by
  obtain ⟨hps, hvs⟩ := iff_view.mp h
  have hmem : mp.pmid ∉ pmids log := by
    rw [← hps]
    intro hm
    obtain ⟨w, hw, he⟩ := mem_map.mp hm
    exact hne w hw he
  rw [iff_view, pmids_append, if_neg hmem, ← hps]
  constructor
  · intro hr
    have := hr.right vsp (by simp)
    rwa [hp] at this
  · intro hr
    refine ⟨by simp [hp], fun w hw => ?_⟩
    rcases mem_append.mp hw with hw | hw
    · exact (hvs w hw).trans (expected_of_ne (hne w hw).symm).symm
    · cases mem_singleton.mp hw
      rwa [hp]

theorem view_fresh_put (hc : convert fl value mp.type = .ok v) (hl : values log mp.pmid = []) :
    ((ValueSet.fresh mp.pmid).put fl mp inst value).2.view =
      expected (log ++ [⟨mp.pmid, inst, v.datum⟩]) mp.pmid ↔ v.Fits := by
  have hr := convert_read mp.type.valfmt hc
  simp [ValueSet.put, ValueSet.fresh, hc, ValueSet.view, expected, values_append, hl, hr]

theorem view_grown_put (hc : convert fl value mp.type = .ok v)
    (hv : vsp.view = expected log mp.pmid) (h₁ : vsp.numval ≠ 0) :
    ({ vsp with numval := vsp.numval + 1 }.put fl mp inst value).2.view =
      expected (log ++ [⟨mp.pmid, inst, v.datum⟩]) mp.pmid ↔
        vsp.valfmt = mp.type.valfmt ∧ v.Fits := by
  have hn : vsp.numval = (values log mp.pmid).length := congrArg View.numval hv
  have hl : vsp.vlist.map (fun w => (w.1, w.2.read vsp.valfmt)) =
      (values log mp.pmid).map fun w => (w.1, some w.2) := congrArg View.vlist hv
  have hp : vsp.pmid = mp.pmid := congrArg View.pmid hv
  have h₂ : ¬vsp.numval + 1 = 1 := by omega
  simp only [ValueSet.put, hc, h₂, if_false]
  simp only [ValueSet.view, expected, values_append, if_true, map_append, hl, hn, hp, View.mk.injEq]
  simp [convert_read vsp.valfmt hc]

theorem convert_error (h : convert fl value type = .error sts) : sts < 0 := by
  have hc : ∀ o : Option Value, conv o = .error sts → sts < 0 := by
    intro o ho
    cases o <;> cases ho
    decide
  cases type
  case string => cases h
  case other =>
    cases h
    decide
  all_goals exact hc _ h

theorem put_error (vsp : ValueSet) (inst : Int) (hc : convert fl value mp.type = .error sts) :
    (vsp.put fl mp inst value).1 = sts ∧ (vsp.put fl mp inst value).2.numval = sts := by
  simp [ValueSet.put, hc]

theorem put_zero (vsp : ValueSet) (inst : Int) (hc : convert fl value mp.type = .ok v) :
    (vsp.put fl mp inst value).1 = 0 ∧ (vsp.put fl mp inst value).2.pmid = vsp.pmid := by
  simp [ValueSet.put, hc]

theorem Holds.stuffInto_dup (h : Holds vset log) (hd : Dup vset mp inst) :
    stuffInto fl mp inst value vset = some (dupValue, vset) := by
  obtain ⟨vsp, hv, hp, hd⟩ := hd
  obtain ⟨l₁, l₂, rfl, h₁, _⟩ := h.split hv hp
  have hn := h.numval_eq hv
  have hadd : vsp.add fl mp inst value = some (dupValue, vsp) := by
    simp only [ValueSet.add, hn, Int.toNat_natCast, take_length, hd, if_true]
  simp [stuffInto_old h₁ hp, hadd]

theorem Holds.stuffInto_eq (fl : Floats) (value : Str) (h : Holds vset log)
    (hd : ¬Dup vset mp inst) :
    ∃ sts vset', stuffInto fl mp inst value vset = some (sts, vset') ∧
      match convert fl value mp.type with
      | .error e => sts = e ∧ ∃ vsp ∈ vset', vsp.numval = e
      | .ok v => sts = 0 ∧ (Holds vset' (log ++ [⟨mp.pmid, inst, v.datum⟩]) ↔
          v.Fits ∧ ∀ vsp ∈ vset, vsp.pmid = mp.pmid → vsp.valfmt = mp.type.valfmt) := by
  by_cases hm : ∃ vsp ∈ vset, vsp.pmid = mp.pmid
  · obtain ⟨vsp, hv, hp⟩ := hm
    obtain ⟨l₁, l₂, rfl, h₁, h₂⟩ := h.split hv hp
    have hn := h.numval_eq hv
    have hadd : vsp.add fl mp inst value =
        some ({ vsp with numval := vsp.numval + 1 }.put fl mp inst value) := by
      have hd' : ¬(mp.indom = pmIndomNull ∨ inst ∈ vsp.vlist.map (·.1)) := fun hd' =>
        hd ⟨vsp, hv, hp, hd'⟩
      rw [ValueSet.add, if_neg (by simpa [hn] using hd'), if_neg (by omega)]
    refine ⟨_, _, by rw [stuffInto_old h₁ hp, hadd]; rfl, ?_⟩
    cases hc : convert fl value mp.type
    case error e =>
      obtain ⟨hs, hnv⟩ := put_error { vsp with numval := vsp.numval + 1 } inst hc
      exact ⟨hs, _, by simp, hnv⟩
    case ok v =>
      have hview := h.view_eq hv
      have h₀ : vsp.numval ≠ 0 := by
        have hmem : vsp.pmid ∈ pmids log := h.pmids_eq ▸ mem_map_of_mem hv
        have hn' : vsp.numval = (values log vsp.pmid).length := congrArg View.numval hview
        have := length_pos_iff.mpr (values_ne_nil hmem)
        omega
      obtain ⟨hs, hp'⟩ := put_zero { vsp with numval := vsp.numval + 1 } inst hc
      refine ⟨hs, ?_⟩
      rw [h.replace hp h₁ h₂ (hp'.trans hp), view_grown_put hc (hp ▸ hview) h₀, and_comm]
      refine and_congr_right fun _ => ⟨fun hf w hw hwp => ?_, fun hf => hf vsp hv hp⟩
      simp only [mem_append, mem_cons] at hw
      rcases hw with hw | rfl | hw
      · exact absurd hwp (h₁ w hw)
      · exact hf
      · exact absurd hwp (h₂ w hw)
  · have hne : ∀ w ∈ vset, w.pmid ≠ mp.pmid := fun w hw he => hm ⟨w, hw, he⟩
    refine ⟨_, _, stuffInto_new hne, ?_⟩
    cases hc : convert fl value mp.type
    case error e =>
      obtain ⟨hs, hnv⟩ := put_error (.fresh mp.pmid) inst hc
      exact ⟨hs, _, by simp, hnv⟩
    case ok v =>
      obtain ⟨hs, hp'⟩ := put_zero (.fresh mp.pmid) inst hc
      have hl : values log mp.pmid = [] := by
        refine values_eq_nil fun hmem => ?_
        rw [← h.pmids_eq] at hmem
        obtain ⟨w, hw, he⟩ := mem_map.mp hmem
        exact hne w hw he
      refine ⟨hs, ?_⟩
      rw [h.snoc hne hp', view_fresh_put hc hl]
      exact ⟨fun hf => ⟨hf, fun w hw he => absurd he (hne w hw)⟩, And.left⟩

theorem Holds.not_mem_keys (h : Holds vset log) (hd : ¬Dup vset mp inst) :
    (mp.pmid, inst) ∉ keys log := by
  intro hk
  have hi := mem_keys.mp hk
  have hmem : mp.pmid ∈ pmids log := by
    by_contra hn
    simp [values_eq_nil hn] at hi
  rw [← h.pmids_eq] at hmem
  obtain ⟨vsp, hv, hp⟩ := mem_map.mp hmem
  refine hd ⟨vsp, hv, hp, .inr ?_⟩
  rwa [h.insts_eq hv, hp]

end Stuff

namespace Session

variable {fl : Floats} {s s' : Session} {op : Op}

def Proper (fl : Floats) (s : Session) (op : Op) : Prop :=
  ∀ hp value mp, target s.ctx op = some (hp, value) → s.ctx.metric[hp.midx]? = some mp →
    ¬Dup (s.ctx.result.getD []) mp hp.inst →
      ∃ v, convert fl value mp.type = .ok v ∧ v.Fits ∧
        ∀ vsp ∈ s.ctx.result.getD [], vsp.pmid = mp.pmid → vsp.valfmt = mp.type.valfmt

def IsPut : Op → Prop
  | .putValue .. => True
  | .putValueHandle .. => True
  | _ => False

structure Inv (s : Session) : Prop where
  exact : s.Exact
  handle : ∀ hp ∈ s.ctx.handle, hp.midx < s.ctx.metric.length

theorem makeHandle_lt {ctx : Context} (h : ctx.makeHandle name inst = .ok hp) :
    hp.midx < ctx.metric.length := by
  simp only [Context.makeHandle] at h
  split at h
  case h_1 => cases h
  case h_2 m hm =>
    have hlt := (findIdx?_eq_some_iff_getElem.mp hm).choose
    have hmidx : hp.midx = m := by
      split at h <;> split at h <;> (try cases h) <;> (try rfl)
      split at h <;> (try cases h)
      split at h <;> cases h
      rfl
    omega

theorem makeHandle_ne {ctx : Context} (h : ctx.makeHandle name inst = .error sts) : sts ≠ 0 := by
  simp only [Context.makeHandle] at h
  split at h
  case h_1 =>
    cases h
    decide
  case h_2 =>
    split at h <;> split at h <;> (try cases h) <;> (try decide)
    split at h <;> (try cases h) <;> (try decide)
    split at h <;> cases h
    decide

variable {cur : Context}

theorem run_of_target_none (fl : Floats) (ho : IsPut op) (ht : target cur op = none) :
    ∃ sts, run fl cur op = some (sts, cur) ∧ sts ≠ 0 := by
  cases op
  case putValue name inst value =>
    simp only [run, Context.putValue]
    cases hm : cur.makeHandle name inst
    case error sts => exact ⟨sts, rfl, makeHandle_ne hm⟩
    case ok hp => simp [target, hm, Except.toOption] at ht
  case putValueHandle handle value =>
    refine ⟨badHandle, ?_, by decide⟩
    have hb : handle ≤ 0 ∨ handle > cur.handle.length := by
      by_contra hn
      obtain ⟨h₀, hl⟩ := not_or.mp hn
      have hlt : handle.toNat - 1 < cur.handle.length := by omega
      simp [target, h₀, getElem?_eq_getElem hlt] at ht
    simp [run, Context.putValueHandle, hb]
  all_goals exact absurd ho id

theorem run_of_target_some (fl : Floats) (hh : ∀ hp ∈ cur.handle, hp.midx < cur.metric.length)
    (ht : target cur op = some (hp, value)) :
    run fl cur op = cur.stuffValue fl hp value ∧ hp.midx < cur.metric.length := by
  cases op
  case putValue name inst value =>
    cases hm : cur.makeHandle name inst
    case error sts => simp [target, hm, Except.toOption] at ht
    case ok hp =>
      simp only [target, hm, Except.toOption, Option.map_some, Option.some.injEq] at ht
      obtain ⟨rfl, rfl⟩ := ht
      exact ⟨by simp only [run, Context.putValue, hm], makeHandle_lt hm⟩
  case putValueHandle handle value =>
    simp only [target] at ht
    split at ht
    case isTrue => cases ht
    case isFalse h₀ =>
      obtain ⟨hp, hg, he⟩ := Option.map_eq_some_iff.mp ht
      cases he
      obtain ⟨hlt, _⟩ := List.getElem?_eq_some_iff.mp hg
      have hb : ¬(handle ≤ 0 ∨ handle > cur.handle.length) := by omega
      refine ⟨?_, hh _ (List.mem_of_getElem? hg)⟩
      simp only [run, Context.putValueHandle, hb, hg]
      rfl
  all_goals cases ht

theorem exact_iff : s.Exact ↔
    Holds (s.ctx.result.getD []) s.log ∧ (s.ctx.result = none ↔ s.log = []) ∧
      (keys s.log).Nodup := by
  rw [← and_assoc]
  refine and_congr_left fun _ => ?_
  by_cases hl : s.log = []
  · cases s.ctx.result
    case none => simp [hl, Holds, pmids]
    case some => simp [hl]
  · cases s.ctx.result
    case none => simp [hl]
    case some => simp [hl, Holds]

theorem put_exact (fl : Floats) (hs : s.Exact) (ht : target s.ctx op = some (hp, value))
    (hm : s.ctx.metric[hp.midx]? = some mp) :
    ∃ sts ctx, s.ctx.stuffValue fl hp value = some (sts, ctx) ∧
      ctx.metric = s.ctx.metric ∧ ctx.handle = s.ctx.handle ∧
      (Exact ⟨ctx, if sts = 0 then s.log ++ (s.triple fl op).toList else s.log⟩ ↔ Proper fl s op) ∧
      (Proper fl s op → sts ≠ 0 → ctx = s.ctx) := by
  obtain ⟨hh, hnone, hnd⟩ := exact_iff.mp hs
  have hproper : Proper fl s op ↔ (¬Dup (s.ctx.result.getD []) mp hp.inst →
      ∃ v, convert fl value mp.type = .ok v ∧ v.Fits ∧
        ∀ vsp ∈ s.ctx.result.getD [], vsp.pmid = mp.pmid → vsp.valfmt = mp.type.valfmt) := by
    constructor
    · exact fun h => h hp value mp ht hm
    · intro h hp' value' mp' ht' hm'
      cases ht.symm.trans ht'
      cases hm.symm.trans hm'
      exact h
  have htriple : ∀ v, convert fl value mp.type = .ok v →
      s.triple fl op = some ⟨mp.pmid, hp.inst, v.datum⟩ := by
    intro v hv
    simp [triple, ht, hm, hv, Except.toOption]
  simp only [Context.stuffValue, hm, Option.bind_eq_bind]
  by_cases hd : Dup (s.ctx.result.getD []) mp hp.inst
  · have hres : some (s.ctx.result.getD []) = s.ctx.result := by
      obtain ⟨vsp, hv, _⟩ := hd
      cases hr : s.ctx.result
      case none => simp [hr] at hv
      case some => rfl
    have hctx : ({ s.ctx with result := some (s.ctx.result.getD []) } : Context) = s.ctx := by
      rw [hres]
    refine ⟨dupValue, s.ctx, ?_, rfl, rfl, ?_, fun _ _ => rfl⟩
    · simp only [hh.stuffInto_dup hd, Option.bind_some, hctx]
      rfl
    · exact iff_of_true hs (hproper.mpr fun hn => absurd hd hn)
  · obtain ⟨sts, vset, hst, hcase⟩ := hh.stuffInto_eq fl value hd
    have hrun : (stuffInto fl mp hp.inst value (s.ctx.result.getD [])).bind (fun r =>
        some (r.1, { s.ctx with result := some r.2 })) =
          some (sts, { s.ctx with result := some vset }) := by rw [hst]; rfl
    refine ⟨sts, { s.ctx with result := some vset }, hrun, rfl, rfl, ?_⟩
    cases hc : convert fl value mp.type
    case error e =>
      simp only [hc] at hcase
      obtain ⟨rfl, vsp, hv, he⟩ := hcase
      have hneg := convert_error hc
      have hnp : ¬Proper fl s op := fun h => by
        obtain ⟨v, hv, _⟩ := hproper.mp h hd
        cases hc.symm.trans hv
      refine ⟨iff_of_false (fun hx => ?_) hnp, fun h => absurd h hnp⟩
      have hx := (exact_iff.mp hx).left.nonneg hv
      omega
    case ok v =>
      simp only [hc] at hcase
      obtain ⟨rfl, hiff⟩ := hcase
      have hkeys : (keys (s.log ++ [⟨mp.pmid, hp.inst, v.datum⟩])).Nodup := by
        have hk := hh.not_mem_keys hd
        have happ : keys (s.log ++ [⟨mp.pmid, hp.inst, v.datum⟩]) =
            keys s.log ++ [(mp.pmid, hp.inst)] := by simp [keys]
        rw [happ, nodup_append]
        exact ⟨hnd, by simp, fun k hk₁ k' hk₂ he => hk (mem_singleton.mp hk₂ ▸ he ▸ hk₁)⟩
      rw [exact_iff, hproper]
      simp only [if_true, htriple v hc, Option.toList_some, Option.getD_some, hiff, hkeys, hd,
        not_false_eq_true, hc, Except.ok.injEq]
      simp

theorem proper_of_target_none (h : target s.ctx op = none) : Proper fl s op := by
  intro hp value mp ht
  cases h.symm.trans ht

theorem run_other (fl : Floats) (hs : s.Inv) (ho : ¬IsPut op) :
    ∃ r, run fl s.ctx op = some r ∧ (op ≠ .write → r.2.result = s.ctx.result) ∧
      (op = .write → r.2.result = none) ∧ ∀ hp ∈ r.2.handle, hp.midx < r.2.metric.length := by
  cases op
  case addMetric name pmid type indom sem =>
    refine ⟨s.ctx.addMetric name pmid type indom sem, rfl, fun _ => ?_, by simp, fun hp hh => ?_⟩
    · simp only [Context.addMetric]
      repeat' split
      all_goals rfl
    · have hk : (s.ctx.addMetric name pmid type indom sem).2.handle = s.ctx.handle := by
        simp only [Context.addMetric]
        repeat' split
        all_goals rfl
      have hl : s.ctx.metric.length ≤
          (s.ctx.addMetric name pmid type indom sem).2.metric.length := by
        simp only [Context.addMetric]
        repeat' split
        all_goals simp
      exact (hs.handle hp (hk ▸ hh)).trans_le hl
  case addInstance indom name inst =>
    refine ⟨s.ctx.addInstance indom name inst, rfl, fun _ => ?_, by simp, ?_⟩
    all_goals
      simp only [Context.addInstance]
      split
    case h_1 | h_2 => rfl
    case h_1 | h_2 => exact hs.handle
  case getHandle name inst =>
    refine ⟨s.ctx.getHandle name inst, rfl, fun _ => ?_, by simp, fun hp hh => ?_⟩
    · simp only [Context.getHandle]
      split <;> rfl
    · simp only [Context.getHandle] at hh ⊢
      split at hh
      case h_1 => exact hs.handle hp hh
      case h_2 hp' hm =>
        rcases mem_append.mp hh with hh | hh
        · exact hs.handle hp hh
        · cases mem_singleton.mp hh
          exact makeHandle_lt hm
  case write =>
    refine ⟨s.ctx.write, rfl, by simp, fun _ => ?_, fun hp hh => ?_⟩
    · simp only [Context.write]
      split <;> simp_all
    · simp only [Context.write] at hh ⊢
      split <;> simp_all [hs.handle hp]
  all_goals exact absurd trivial ho

theorem record_put (ho : IsPut op) :
    s.record fl sts op = if sts = 0 then s.log ++ (s.triple fl op).toList else s.log := by
  cases op
  case write => exact absurd ho id
  all_goals rfl

theorem step_exact (fl : Floats) (s : Session) (op : Op) (hs : s.Inv) :
    ∃ s', s.step fl op = some s' ∧ (s'.Exact ↔ Proper fl s op) ∧ (Proper fl s op → s'.Inv) := by
  by_cases ho : IsPut op
  · cases ht : target s.ctx op
    case none =>
      obtain ⟨sts, hr, h₀⟩ := run_of_target_none fl ho ht
      refine ⟨s, ?_, iff_of_true hs.exact (proper_of_target_none ht), fun _ => hs⟩
      simp [step, hr, record_put ho, h₀]
    case some a =>
      obtain ⟨hr, hlt⟩ := run_of_target_some fl hs.handle ht
      obtain ⟨sts, ctx, hst, hm, hh, hiff, _⟩ :=
        put_exact fl hs.exact ht (getElem?_eq_getElem hlt)
      rw [← record_put ho] at hiff
      refine ⟨⟨ctx, s.record fl sts op⟩, by simp [step, hr, hst], hiff, fun hpr => ?_⟩
      exact ⟨hiff.mpr hpr, by simpa only [hm, hh] using hs.handle⟩
  · have ht : target s.ctx op = none := by
      cases op
      case putValue | putValueHandle => exact absurd trivial ho
      all_goals rfl
    obtain ⟨r, hr, hres, hw, hh⟩ := run_other fl hs ho
    have hx : Exact ⟨r.2, s.record fl r.1 op⟩ := by
      rw [exact_iff]
      by_cases h : op = .write
      · subst h
        simp [hw rfl, record, Holds, pmids, keys]
      · have hlog : s.record fl r.1 op = s.log := by
          have htr : s.triple fl op = none := by simp [triple, ht]
          cases op <;> simp_all [record]
        simp only [hres h, hlog]
        exact exact_iff.mp hs.exact
    refine ⟨_, by rw [step, hr]; rfl, iff_of_true hx (proper_of_target_none ht), fun _ => ⟨hx, hh⟩⟩

theorem run_failed (hs : s.Inv) (ho : IsPut op) (hp : Proper fl s op)
    (hr : run fl s.ctx op = some (sts, cur)) (h₀ : sts ≠ 0) : cur = s.ctx := by
  cases ht : target s.ctx op
  case none =>
    obtain ⟨sts', hr', _⟩ := run_of_target_none fl ho ht
    cases hr.symm.trans hr'
    rfl
  case some a =>
    obtain ⟨hst, hlt⟩ := run_of_target_some fl hs.handle ht
    obtain ⟨sts', ctx, he, _, _, _, hf⟩ :=
      put_exact fl hs.exact ht (getElem?_eq_getElem hlt)
    rw [hst, he] at hr
    cases hr
    exact hf hp h₀

def start : Session where
  ctx := { result := none, metric := [], indom := [], handle := [] }
  log := []

theorem start_inv : start.Inv where
  exact := ⟨rfl, nodup_nil⟩
  handle := fun _ h => nomatch h

end Session

end Import
