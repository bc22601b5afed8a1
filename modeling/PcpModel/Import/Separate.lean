import PcpModel.Import.Archive
import PcpModel.Library.Run

-- The archives of several imports are the ones of imports that share nothing.
namespace Import

open List Pcp

structure Alone where
  contexts : List (Writer × Shared)
  current : Option Nat

-- The result of the caller is logged.
def Writer.own (fl : Floats) (host : Host) (cur : Writer) (sh : Shared) :
    Action → Option (Int × Writer × Shared)
  | .putResult rp => cur.logPut host sh rp
  | a => cur.act fl host sh a

namespace Alone

def init : Alone where
  contexts := []
  current := none

variable (fl : Floats) (host : Host) (files : List Str) (t : Alone)

-- There is nothing to inherit for the first context.
def start (archive : Str) (inherit : Bool) : Option Alone := do
  let w ←
    match t.current with
    | none => some (Writer.fresh archive)
    | some c => t.contexts[c]?.map fun old =>
        if inherit then old.1.inherit archive else Writer.fresh archive
  return { contexts := t.contexts ++ [(w, ⟨⟨0, 0⟩, files⟩)], current := some t.contexts.length }

def useContext (context : Int) : Alone :=
  if context < 1 ∨ context > t.contexts.length then t else
    { t with current := some (context - 1).toNat }

def act (a : Action) : Option Alone :=
  match t.current with
  | none => some t
  | some c => do
    let (w, sh) ← t.contexts[c]?
    let r ← w.own fl host sh a
    return { t with contexts := t.contexts.set c r.2 }

def step : Call → Option Alone
  | .start archive inherit => t.start files archive inherit
  | .useContext context => some (t.useContext context)
  | .act a => t.act fl host a

def archives : List (Option Archive) :=
  t.contexts.map (·.1.logctl)

end Alone

def Archive.last (lcp : Archive) : Option Timeval :=
  lcp.log.getLast?.map (·.timestamp)

def Writer.Ok (cur : Writer) (sh : Shared) : Action → Prop
  | .putResult rp =>
    cur.ctx.result = some rp.vset ∧ rp.timestamp = ⟨0, 0⟩ ∧ rp.sortInstances = rp
  | .finish => ∀ lcp ∈ cur.logctl, lcp.last = some sh.stamp
  | _ => True

instance {cur : Writer} : DecidablePred (cur.Ok sh)
  | .putResult _ => inferInstanceAs (Decidable (_ ∧ _))
  | .finish => inferInstanceAs (Decidable (∀ lcp ∈ cur.logctl, lcp.last = some sh.stamp))
  | .setHostname .. | .setTimezone .. | .addMetric .. | .addInstance .. | .getHandle ..
  | .putValue .. | .putValueHandle .. | .write .. => .isTrue trivial

-- The first context does not inherit from any other, and the archives have different names.
def Imports.Ok (s : Imports) : Call → Prop
  | .start archive inherit =>
    (s.current = none → inherit = false) ∧ ∀ w ∈ s.contexts, w.archive ≠ archive
  | .useContext _ => True
  | .act a => ∀ w ∈ s.current.bind (s.contexts[·]?), w.Ok s.shared a

instance {s : Imports} : DecidablePred s.Ok
  | .start .. => inferInstanceAs (Decidable (_ ∧ _))
  | .useContext .. => .isTrue trivial
  | .act a =>
    inferInstanceAs (Decidable (∀ w ∈ s.current.bind (s.contexts[·]?), w.Ok s.shared a))

namespace Writer

variable {fl : Floats} {host : Host} {cur : Writer} {sh own : Shared}

-- A context and the stamp of its own: it is the one of the last result in the archive.
structure Kept (cur : Writer) (own : Shared) : Prop where
  start : cur.stage = .start → cur.logctl = none
  last : ∀ lcp ∈ cur.logctl, lcp.last = some own.stamp

theorem Kept.fresh (name : Str) : Kept (Writer.fresh name) own where
  start _ := rfl
  last := by simp [Writer.fresh]

theorem Kept.inherit (old : Writer) (name : Str) : Kept (old.inherit name) own :=
  have h : Kept (Writer.fresh name) own := .fresh name
  ⟨h.start, h.last⟩

-- What a call does for an archive, with what is shared and with what is the context's own.
structure Like (name : Str) (sh own : Shared) (r r' : Int × Writer × Shared) : Prop where
  writer : r.2.1 = r'.2.1
  archive : r'.2.1.archive = name
  files : r.2.2.files = sh.files ∧ r'.2.2.files = own.files ∨
    r.2.2.files = name :: sh.files ∧ r'.2.2.files = name :: own.files
  kept : Kept r'.2.1 r'.2.2

theorem Like.mem_iff_of_ne (h : Like name sh own r r') (hn : n ≠ name) :
    n ∈ r.2.2.files ↔ n ∈ sh.files := by
  obtain ⟨hf, -⟩ | ⟨hf, -⟩ := h.files <;> simp [hf, hn]

theorem Like.mem_iff (h : Like name sh own r r') (ho : name ∈ sh.files ↔ name ∈ own.files) :
    name ∈ r.2.2.files ↔ name ∈ r'.2.2.files := by
  obtain ⟨hf, hf'⟩ | ⟨hf, hf'⟩ := h.files <;> simp [hf, hf', ho]

theorem last_logResult (lcp : Archive) (rp : Result) :
    ∀ l ∈ (cur.logResult lcp rp).logctl, l.last = some rp.timestamp := by
  intro l hl
  cases hl
  simp [Archive.last]

-- A result that is put without an error is appended to the log.
theorem logPut_log (hk : cur.stage = .start → cur.logctl = none)
    (h : cur.logPut host sh rp = some (0, r)) : ∃ lcp, r.1.logctl = some lcp ∧
      lcp.log = cur.logctl.elim [] (·.log) ++ [rp.sortInstances] := by
  simp only [logPut] at h
  split at h
  case isTrue hs =>
    split at h
    case isTrue => simp [eexist] at h
    case isFalse =>
      obtain ⟨lcp, hl, he⟩ := Option.map_eq_some_iff.mp h
      obtain ⟨-, hl⟩ := Option.ite_none_right_eq_some.mp hl
      cases hl
      cases he
      exact ⟨_, rfl, by rw [hk hs]; split <;> rfl⟩
  case isFalse =>
    obtain ⟨lcp, hl, he⟩ := Option.map_eq_some_iff.mp h
    cases he
    exact ⟨_, rfl, by rw [hl]; split <;> rfl⟩

theorem Like.logResult (lcp : Archive) (rp : Result) (hs : cur.stage ≠ .start)
    (hf : sh'.files = sh.files ∧ own'.files = own.files ∨
      sh'.files = cur.archive :: sh.files ∧ own'.files = cur.archive :: own.files)
    (ho : own'.stamp = rp.timestamp) :
    Like cur.archive sh own (0, cur.logResult lcp rp, sh') (0, cur.logResult lcp rp, own') where
  writer := rfl
  archive := rfl
  files := hf
  kept := {
    start := fun h => absurd h hs
    last := ho ▸ last_logResult lcp rp
  }

theorem Like.unwritten (hk : Kept cur own) (hn : w.archive = cur.archive)
    (hs : w.stage = cur.stage) (hl : w.logctl = cur.logctl) :
    Like cur.archive sh own (sts, w, sh) (sts, w, own) where
  writer := rfl
  archive := hn
  files := .inl ⟨rfl, rfl⟩
  kept := {
    start := hs ▸ hl ▸ hk.start
    last := hl ▸ hk.last
  }

theorem logPut_like (rp : Result) (hk : Kept cur own)
    (hf : cur.archive ∈ sh.files ↔ cur.archive ∈ own.files) :
    Option.Rel (Like cur.archive sh own) (cur.logPut host sh rp) (cur.logPut host own rp) := by
  by_cases hs : cur.stage = .start
  case neg =>
    cases hl : cur.logctl
    case none =>
      simp only [logPut, hs, hl]
      exact .none
    case some lcp =>
      simp only [logPut, hs, hl]
      exact .some <| .logResult lcp _ hs (.inl ⟨rfl, rfl⟩) rfl
  case pos =>
    by_cases hm : cur.archive ∈ own.files
    case pos =>
      simp only [logPut, hs, hf, hm]
      refine .some ⟨rfl, rfl, .inl ⟨rfl, rfl⟩, hk.start, ?_⟩
      simp [hk.start hs]
    case neg =>
      simp only [logPut, hs, hf, hm]
      cases cur.logCreate host rp.sortInstances.timestamp
      case none => exact .none
      case some lcp =>
        have hs : { cur with stage := .active }.stage ≠ .start := nofun
        exact .some <| .logResult lcp _ hs (.inr ⟨rfl, rfl⟩) rfl

theorem Like.setResult (result : Option (List ValueSet))
    (h : Like name sh own r r') :
    Like name sh own (r.1, r.2.1.setResult result, r.2.2) (r'.1, r'.2.1.setResult result, r'.2.2)
    where
  writer := by rw [h.writer]
  archive := h.archive
  files := h.files
  kept := ⟨h.kept.start, h.kept.last⟩

theorem write_like (hk : Kept cur own) (hf : cur.archive ∈ sh.files ↔ cur.archive ∈ own.files) :
    Option.Rel (Like cur.archive sh own) (cur.write host sh sec usec now)
      (cur.write host own sec usec now) := by
  cases hr : cur.ctx.result
  case none =>
    simp only [write, hr]
    exact .some <| .unwritten hk rfl rfl rfl
  case some l =>
    simp only [write, hr]
    exact Run.rel_map (logPut_like _ hk hf) fun _ _ => .setResult none

theorem logPut_ctx (h : cur.logPut host sh rp = some r) : r.2.1.ctx = cur.ctx := by
  simp only [logPut] at h
  split at h
  case isFalse =>
    obtain ⟨lcp, -, rfl⟩ := Option.map_eq_some_iff.mp h
    rfl
  case isTrue =>
    split at h
    case isTrue => cases h; rfl
    case isFalse =>
      obtain ⟨lcp, -, rfl⟩ := Option.map_eq_some_iff.mp h
      rfl

-- The pending result is the one of the caller.
theorem putResult_eq (ho : cur.Ok sh (.putResult rp)) :
    cur.putResult host sh = cur.logPut host sh rp := by
  obtain ⟨hr, ht, hs⟩ := ho
  have he : (⟨⟨0, 0⟩, rp.vset⟩ : Result) = rp := ht ▸ rfl
  simp only [putResult, hr, Option.bind_eq_bind, Option.bind_some, he, hs]
  cases h : cur.logPut host sh rp
  case none => rfl
  case some r =>
    have hc : r.2.1.ctx.result = some rp.vset := logPut_ctx h ▸ hr
    have hw : r.2.1.setResult (some rp.vset) = r.2.1 := by rw [← hc, setResult]
    simp [hw]

theorem finish_like (hk : Kept cur own) (ho : cur.Ok sh .finish) :
    Like cur.archive sh own (cur.finish sh) (cur.finish own) := by
  have hl : ∀ lcp ∈ cur.logctl, lcp.putIndex sh.stamp = lcp.putIndex own.stamp := by
    intro lcp hl
    have he := (ho lcp hl).symm.trans (hk.last lcp hl)
    rw [Option.some_inj.mp he]
  refine ⟨?_, rfl, .inl ⟨rfl, rfl⟩, nofun, fun l hm => ?_⟩
  case refine_1 => simp [finish, Option.map_congr hl]
  case refine_2 =>
    obtain ⟨lcp, hm', rfl⟩ := Option.map_eq_some_iff.mp hm
    exact hk.last lcp hm'

theorem rel_update {r : Option (Int × Context)} (hk : Kept cur own) :
    Option.Rel (Like cur.archive sh own) (r.map (cur.update sh)) (r.map (cur.update own)) := by
  cases r
  case none => exact .none
  case some r => exact .some <| .unwritten hk rfl rfl rfl

theorem act_like (hk : Kept cur own) (hf : cur.archive ∈ sh.files ↔ cur.archive ∈ own.files)
    (ho : cur.Ok sh a) :
    Option.Rel (Like cur.archive sh own) (cur.act fl host sh a) (cur.own fl host own a) := by
  cases a
  case setHostname => exact .some <| .unwritten hk rfl rfl rfl
  case setTimezone => exact .some <| .unwritten hk rfl rfl rfl
  case addMetric => exact .some <| .unwritten hk rfl rfl rfl
  case addInstance =>
    simp only [act, Writer.own, addInstance]
    split <;> exact .some <| .unwritten hk rfl rfl rfl
  case getHandle => exact .some <| .unwritten hk rfl rfl rfl
  case putValue => exact rel_update hk
  case putValueHandle => exact rel_update hk
  case write => exact write_like hk hf
  case putResult =>
    rw [act, putResult_eq ho]
    exact logPut_like _ hk hf
  case finish => exact .some <| finish_like hk ho

end Writer

namespace Imports

variable {fl : Floats} {host : Host} {files : List Str} {s : Imports} {t : Alone} {c d : Nat}
  {p q : Writer × Shared}

-- The contexts are the same. For its own archive, each of them knows which files there are.
structure Separate (files : List Str) (s : Imports) (t : Alone) : Prop where
  current : s.current = t.current
  contexts : s.contexts = t.contexts.map (·.1)
  names : (s.contexts.map (·.archive)).Nodup
  kept : ∀ p ∈ t.contexts, p.1.Kept p.2
  own : ∀ p ∈ t.contexts, p.1.archive ∈ s.shared.files ↔ p.1.archive ∈ p.2.files
  files : ∀ n ∉ s.contexts.map (·.archive), n ∈ s.shared.files ↔ n ∈ files

theorem Separate.init : Separate files (init files) Alone.init where
  current := rfl
  contexts := rfl
  names := .nil
  kept := fun _ h => absurd h not_mem_nil
  own := fun _ h => absurd h not_mem_nil
  files := fun _ _ => .rfl

namespace Separate

theorem length (h : Separate files s t) : s.contexts.length = t.contexts.length := by
  rw [h.contexts, length_map]

theorem get (h : Separate files s t) (c : Nat) : s.contexts[c]? = t.contexts[c]?.map (·.1) := by
  rw [h.contexts, getElem?_map]

theorem push (h : Separate files s t) (w : Writer) (hk : w.Kept ⟨⟨0, 0⟩, files⟩)
    (hn : ∀ w' ∈ s.contexts, w'.archive ≠ w.archive) :
    Separate files
      { s with contexts := s.contexts ++ [w], current := some s.contexts.length }
      { contexts := t.contexts ++ [(w, ⟨⟨0, 0⟩, files⟩)], current := some t.contexts.length } := by
  have hw : w.archive ∉ s.contexts.map (·.archive) := by simpa using hn
  constructor
  case current => exact congrArg some h.length
  case contexts => simp [h.contexts]
  case names => simpa [nodup_append, h.names] using hn
  case kept =>
    intro p hp
    obtain hp | hp := mem_append.mp hp
    exacts [h.kept p hp, mem_singleton.mp hp ▸ hk]
  case own =>
    intro p hp
    obtain hp | hp := mem_append.mp hp
    exacts [h.own p hp, mem_singleton.mp hp ▸ h.files _ hw]
  case files =>
    intro n hn
    exact h.files n fun hm => hn (by simp [hm])

theorem archive_ne (h : Separate files s t) (hp : t.contexts[c]? = some p)
    (hq : t.contexts[d]? = some q) (hn : c ≠ d) : q.1.archive ≠ p.1.archive := by
  have hg (i : Nat) : (s.contexts.map (·.archive))[i]? = t.contexts[i]?.map (·.1.archive) := by
    rw [List.getElem?_map, h.get, Option.map_map]
    rfl
  intro he
  have hlt : c < (s.contexts.map (·.archive)).length := by
    rw [List.length_map, h.length]
    exact (List.getElem?_eq_some_iff.mp hp).1
  refine hn <| (List.getElem?_inj hlt h.names).mp ?_
  rw [hg, hg, hp, hq, Option.map_some, Option.map_some, he]

theorem set (h : Separate files s t)
    (hp : t.contexts[c]? = some p) (hl : Writer.Like p.1.archive s.shared p.2 r r') :
    Separate files { s with contexts := s.contexts.set c r.2.1, shared := r.2.2 }
      { t with contexts := t.contexts.set c r'.2 } := by
  have hc : s.contexts[c]? = some p.1 := by rw [h.get, hp, Option.map_some]
  have hm : (s.contexts.set c r.2.1).map (·.archive) = s.contexts.map (·.archive) := by
    obtain ⟨hlt, he⟩ := List.getElem?_eq_some_iff.mp hc
    have ha : r.2.1.archive = s.contexts[c].archive := by rw [he, hl.writer, hl.archive]
    rw [List.map_set, ha, ← List.map_set, List.set_getElem_self]
  constructor
  case current => exact h.current
  case contexts => simp [h.contexts, hl.writer]
  case names => exact hm ▸ h.names
  case kept =>
    intro q hq
    obtain hq | rfl := List.mem_or_eq_of_mem_set hq
    exacts [h.kept q hq, hl.kept]
  case own =>
    intro q hq
    obtain ⟨d, hd⟩ := List.mem_iff_getElem?.mp hq
    by_cases hcd : c = d
    case pos =>
      rw [← hcd, List.getElem?_set_self (List.getElem?_eq_some_iff.mp hp).1] at hd
      cases hd
      rw [hl.archive]
      exact hl.mem_iff (h.own p (List.mem_of_getElem? hp))
    case neg =>
      rw [List.getElem?_set_ne hcd] at hd
      rw [hl.mem_iff_of_ne (h.archive_ne hp hd hcd)]
      exact h.own q (List.mem_of_getElem? hd)
  case files =>
    intro n hn
    rw [hm] at hn
    rw [hl.mem_iff_of_ne, h.files n hn]
    rintro rfl
    exact hn <| List.mem_map_of_mem (List.mem_of_getElem? hc)

end Separate

theorem start_separate (h : Separate files s t) (ho : s.Ok (.start name inherit)) :
    Option.Rel (Separate files) (s.step fl host (.start name inherit))
      (t.step fl host files (.start name inherit)) := by
  have hp (w : Writer) (hw : w.Kept ⟨⟨0, 0⟩, files⟩) (hn : w.archive = name) :=
    h.push w hw (hn ▸ ho.right)
  simp only [step, call, start, Alone.step, Alone.start, ← h.current]
  cases hc : s.current
  case none =>
    simp only [ho.left hc]
    exact .some <| hp _ (.fresh name) rfl
  case some c =>
    simp only [h.get]
    cases t.contexts[c]?
    case none => exact .none
    case some old =>
      cases inherit
      case false => exact .some <| hp _ (.fresh name) rfl
      case true => exact .some <| hp _ (.inherit old.1 name) rfl

theorem useContext_separate (h : Separate files s t) (context : Int) :
    Separate files (s.useContext context).2 (t.useContext context) := by
  simp only [useContext, Alone.useContext, h.length]
  split
  case isTrue => exact h
  case isFalse => exact { h with current := rfl }

theorem act_separate (h : Separate files s t) (ho : s.Ok (.act a)) :
    Option.Rel (Separate files) (s.step fl host (.act a)) (t.step fl host files (.act a)) := by
  simp only [step, call, act, Alone.step, Alone.act, ← h.current]
  cases hc : s.current
  case none => exact .some h
  case some c =>
    simp only [h.get]
    cases hp : t.contexts[c]?
    case none => exact .none
    case some p =>
      have hm := mem_of_getElem? hp
      have ho : p.1.Ok s.shared a := by simpa [Ok, hc, h.get, hp] using ho
      have hl : Option.Rel (Writer.Like p.1.archive s.shared p.2) (p.1.act fl host s.shared a)
          (p.1.own fl host p.2 a) := Writer.act_like (h.kept p hm) (h.own p hm) ho
      have hr := Run.rel_map hl fun _ _ => h.set hp
      simpa [Option.map_eq_bind, Option.bind_assoc, ← h.current, hc] using hr

theorem step_separate (i : Call) (h : Separate files s t) (ho : s.Ok i) :
    Option.Rel (Separate files) (s.step fl host i) (t.step fl host files i) := by
  cases i
  case start => exact start_separate h ho
  case useContext context => exact .some <| useContext_separate h context
  case act => exact act_separate h ho

theorem Separate.archives_eq (h : Separate files s t) : s.archives = t.archives := by
  rw [archives, h.contexts, map_map]
  rfl

theorem exec_separate (hg : Run.Guarded (step fl host) Ok (init files) calls) :
    (Run.exec (step fl host) (init files) calls).map archives =
      (Run.exec (Alone.step fl host files) Alone.init calls).map Alone.archives ∧
    ∀ t, Run.exec (Alone.step fl host files) Alone.init calls = some t →
      ∀ p ∈ t.contexts, ∀ rp r, p.1.own fl host p.2 (.putResult rp) = some (0, r) →
        ∃ lcp, r.1.logctl = some lcp ∧
          lcp.log = p.1.logctl.elim [] (·.log) ++ [rp.sortInstances] := by
  have h := Run.exec_rel (fun _ _ => step_separate) Separate.init hg
  refine ⟨Run.map_eq_of_rel h fun _ _ => Separate.archives_eq, fun t ht p hp rp r hr => ?_⟩
  rw [ht] at h
  generalize Run.exec (step fl host) (init files) calls = s at h
  cases h
  case some h => exact Writer.logPut_log (h.kept p hp).start hr

def noFloats : Floats :=
  ⟨fun _ => none, fun _ => none⟩

def noHost : Host :=
  ⟨[], []⟩

def alternate : List Call := [
  .start [97] false,
  .act (.addMetric [109] 1 .string 7 3),
  .act (.addInstance 7 [105] 2),
  .act (.addInstance 7 [106] 1),
  .act (.putValue [109] (some [105]) [120]),
  .act (.putValue [109] (some [106]) [121]),
  .act (.write 10 0 ⟨0, 0⟩),
  .start [98] true,
  .act (.putValue [109] (some [105]) [122]),
  .act (.write 20 0 ⟨0, 0⟩),
  .act .finish,
  .useContext 1,
  .act (.putValue [109] (some [106]) [120]),
  .act (.write 30 0 ⟨0, 0⟩),
  .act .finish]

theorem exec_separate_two :
    ((Run.exec (step noFloats noHost) (init []) alternate).map archives).isSome ∧
    (Run.exec (step noFloats noHost) (init []) alternate).map archives =
      (Run.exec (Alone.step noFloats noHost []) Alone.init alternate).map Alone.archives :=
  ⟨by decide, (exec_separate (by decide)).left⟩

-- The second context has written a result before the first one is ended.
def overlap : List Call := [
  .start [97] false,
  .act (.addMetric [109] 1 .string pmIndomNull 3),
  .act (.putValue [109] none [120]),
  .act (.write 10 0 ⟨0, 0⟩),
  .start [98] true,
  .act (.putValue [109] none [121]),
  .act (.write 20 0 ⟨0, 0⟩),
  .useContext 1,
  .act .finish]

-- The result of the caller has another value than the pending one.
def foreign : List Call := [
  .start [97] false,
  .act (.addMetric [109] 1 .string pmIndomNull 3),
  .act (.putValue [109] none [120]),
  .act (.putResult ⟨⟨10, 0⟩, [⟨1, 1, .dptr, [(pmInNull, block .string [121, 0])]⟩]⟩)]

-- The first context inherits from itself.
def inherited : List Call :=
  [.start [97] true]

theorem exec_inseparate :
    ((Run.exec (step noFloats noHost) (init []) overlap).map archives ≠
      (Run.exec (Alone.step noFloats noHost []) Alone.init overlap).map Alone.archives) ∧
    ((Run.exec (step noFloats noHost) (init []) foreign).map archives ≠
      (Run.exec (Alone.step noFloats noHost []) Alone.init foreign).map Alone.archives) ∧
    ((Run.exec (step noFloats noHost) (init []) inherited).map archives ≠
      (Run.exec (Alone.step noFloats noHost []) Alone.init inherited).map Alone.archives) := by
  decide

end Imports

end Import
