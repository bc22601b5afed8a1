import Mathlib.Data.List.Pairwise
import PcpModel.Cache.Insert
import PcpModel.Library.Run

namespace Cache

-- What the cache is for: a set of instances with distinct identifiers and short names.
abbrev Instances := Set (Nat × List UInt8)

def Instances.add (s : Instances) (p : Nat × List UInt8) : Instances :=
  { q | q ∈ s ∨ q = p ∧ ∀ r ∈ s, r.1 ≠ p.1 ∧ r.2 ≠ p.2 }

def addRecord (s : Instances) (r : Record) : Instances :=
  s.add (r.inst, r.name.short)

def Instances.cull (s : Instances) (inst : Nat) : Instances :=
  { q ∈ s | q.1 ≠ inst }

def Hdr.instances (h : Hdr) : Instances :=
  { p | h.Stores p }

def Flags.apply (flags : Flags) (sts : Int) (short : List UInt8) (s : Instances) : Instances :=
  if sts < 0 then s else go sts.toNat
where
  go (inst : Nat) : Instances :=
    match flags with
    | .add => s.add (inst, short)
    | .cull => s.cull inst
    | .hide | .other => s

theorem Flags.apply_inst (inst : Nat) :
    flags.apply inst short s = Flags.apply.go flags short s inst := by
  rw [apply, if_neg (by omega), Int.toNat_natCast]

variable {h : Hdr} {name : CStr} {e : Entry}

theorem Good.unique {f : Entry → α} (hg : Good h)
    (hf : ∀ {d e : Entry}, d.inst < e.inst ∧ d.name.short ≠ e.name.short → f d ≠ f e)
    (hd : d ∈ h.list) (he : e ∈ h.list) (hdl : d.Live) (hel : e.Live) (hi : f d = f e) : d = e := by
  by_contra hne
  have ha : h.list.Pairwise fun d e => d.Live → e.Live → f d ≠ f e :=
    hg.apart.imp fun ha hd he => hf (ha hd he)
  have : Std.Symm fun d e : Entry => d.Live → e.Live → f d ≠ f e :=
    ⟨fun _ _ ha he hd => (ha hd he).symm⟩
  exact ha.forall hd he hne hdl hel hi

theorem Good.inst_unique (hg : Good h) (hd : d ∈ h.list) (he : e ∈ h.list) (hdl : d.Live)
    (hel : e.Live) (hi : d.inst = e.inst) : d = e :=
  hg.unique (fun ha => Nat.ne_of_lt ha.left) hd he hdl hel hi

theorem keeps_edit {f : Entry → Entry} (hg : Good h) (hm : e ∈ h.list) (hl : e.Live)
    (hf : ∀ d, (f d).ref = d.ref ∧ (f d).inst = d.inst ∧ (f d).name = d.name) :
    Keeps h fun d => if d.ref = e.ref then f d else d := by
  constructor <;> intro d
  case live =>
    intro hd hd'
    split at hd'
    case isTrue he => rwa [List.inj_on_of_nodup_map hg.nodup hd hm he]
    case isFalse => exact hd'
  all_goals split <;> simp [hf]

theorem Good.edit_live (hg : Good h) (hm : e ∈ h.list) (hl : e.Live)
    (hf : ∀ d, (f d).ref = d.ref ∧ (f d).inst = d.inst ∧ (f d).name = d.name)
    (hv : ∀ d, d.Live → (f d).Live) :
    Good (h.edit e.ref f) ∧ (h.edit e.ref f).instances = h.instances := by
  have hk := keeps_edit hg hm hl hf
  refine ⟨hg.map hk, Set.ext fun p => ?_⟩
  refine stores_map hk |>.trans <| exists_congr fun d => and_congr_right fun hd => ?_
  refine and_congr_left fun _ => ⟨hk.live d hd, fun hd => ?_⟩
  split
  case isTrue => exact hv d hd
  case isFalse => exact hd

theorem Good.edit_cull (hg : Good h) (hm : e ∈ h.list) (hl : e.Live)
    (hf : ∀ d, (f d).ref = d.ref ∧ (f d).inst = d.inst ∧ (f d).name = d.name)
    (hv : ∀ d, ¬(f d).Live) :
    Good (h.edit e.ref f) ∧ (h.edit e.ref f).instances = h.instances.cull e.inst := by
  have hk := keeps_edit hg hm hl hf
  refine ⟨hg.map hk, Set.ext fun p => ?_⟩
  refine stores_map hk |>.trans ⟨?_, ?_⟩
  · intro ⟨d, hd, hd', hp⟩
    refine ⟨⟨d, hd, hk.live d hd hd', hp⟩, hp ▸ fun hi => ?_⟩
    rw [hg.inst_unique hd hm (hk.live d hd hd') hl hi, if_pos rfl] at hd'
    exact hv e hd'
  · intro ⟨⟨d, hd, hd', hp⟩, hi⟩
    have hne : d.ref ≠ e.ref := fun he =>
      hi <| hp ▸ congrArg Entry.inst (List.inj_on_of_nodup_map hg.nodup hd hm he)
    exact ⟨d, hd, by rwa [if_neg hne], hp⟩

section Store

-- The condition on an insertion, which only matters if there is one.
def StoreKeeps (h : Hdr) (flags : Flags) (name : CStr) (inst : Option Nat) : Prop :=
  flags = .add → h.findName name = none → (∀ i, inst = some i → conflict h name i = none) →
    InsertKeeps h name inst

variable {flags : Flags} {key : List UInt8} {priv : Nat}

theorem Good.setEntry (hg : Good h) (hm : e ∈ h.list) (hl : e.Live) (flags : Flags)
    (key : List UInt8) (priv : Nat) :
    ∃ h' sts, setEntry h flags key priv e.ref = some (h', sts) ∧ Good h' ∧
      h'.instances = (if flags = .cull then h.instances.cull e.inst else h.instances) ∧
      sts = if flags = .other then -einval else e.inst := by
  have hget : h.get e.ref = some e := get_eq_some hg.nodup |>.mpr ⟨hm, rfl⟩
  simp only [Cache.setEntry, hget]
  cases flags
  case add =>
    have ⟨hg, hs⟩ := hg.edit_live hm hl (f := ({ · with key, state := .active, priv, stamp := 0 }))
      (fun _ => ⟨rfl, rfl, rfl⟩) nofun
    exact ⟨_, _, rfl, hg, hs, rfl⟩
  case hide =>
    have ⟨hg, hs⟩ := hg.edit_live hm hl (f := ({ · with state := .inactive }))
      (fun _ => ⟨rfl, rfl, rfl⟩) nofun
    exact ⟨_, _, rfl, hg, hs, rfl⟩
  case cull =>
    have ⟨hg, hs⟩ := hg.edit_cull hm hl (f := ({ · with state := .empty }))
      (fun _ => ⟨rfl, rfl, rfl⟩) (fun _ hl => hl rfl)
    exact ⟨_, _, rfl, hg, hs, rfl⟩
  case other => exact ⟨_, _, rfl, hg, rfl, rfl⟩

theorem conflict_none (hg : Good h) (hc : conflict h name inst = none) :
    (∀ e ∈ h.list, e.Live → e.inst ≠ inst) ∧ ∀ e ∈ h.list, e.Live → e.name.short ≠ name.short := by
  unfold conflict at hc
  split at hc
  case h_1 => contradiction
  case h_2 hi => exact ⟨hg.findInst_none hi, hg.findName_none (by simpa using hc)⟩

theorem conflict_some (hc : conflict h name inst = some (e, sts)) :
    e ∈ h.list ∧ e.Live ∧ (e.inst = inst ∨ e.name.short = name.short) := by
  unfold conflict at hc
  split at hc
  case h_1 hi =>
    cases hc
    have ⟨hm, hl, hi⟩ := findInst_some hi
    exact ⟨hm, hl, .inl hi⟩
  case h_2 =>
    have ⟨e, hn, he⟩ := Option.map_eq_some_iff.mp hc
    cases he
    have ⟨hm, hl, hs⟩ := findName_some hn
    exact ⟨hm, hl, .inr hs⟩

theorem Good.insertCache (hg : Good h) (inst : Option Nat)
    (hn : inst = none → ∀ e ∈ h.list, e.Live → e.name.short ≠ name.short)
    (hk : (∀ i, inst = some i → conflict h name i = none) → InsertKeeps h name inst) :
    ∃ r, insertCache h name inst = some r ∧ Inserts h name inst r := by
  cases inst
  case none => exact hg.insertNew (hn rfl) nofun (hk nofun)
  case some inst =>
    simp only [Cache.insertCache]
    cases hc : conflict h name inst
    case none =>
      have ⟨hi, hs⟩ := conflict_none hg hc
      refine hg.insertNew hs (fun _ he => Option.some.inj he ▸ hi) <| hk fun _ he => ?_
      cases he
      exact hc
    case some c =>
      have ⟨hm, hl, hs⟩ := conflict_some hc
      exact ⟨_, rfl, .old hg hm hl hs⟩

theorem Instances.add_of_mem {s : Instances} (hq : q ∈ s) (h : q.1 = p.1 ∨ q.2 = p.2) :
    s = s.add p := by
  ext r
  refine ⟨.inl, ?_⟩
  rintro (hr | ⟨_, hs⟩)
  · exact hr
  · have := hs q hq
    tauto

theorem Inserts.instances_none (hi : Inserts h name inst (h', none, sts)) :
    Good h' ∧ h'.instances = h.instances ∧ inst = none ∧ sts < 0 := by
  cases hi
  case full hg hs => exact ⟨hg, Set.ext hs, rfl, by decide⟩

theorem Inserts.instances_some (hi : Inserts h name inst (h', some r, sts)) :
    Good h' ∧ ∃ e ∈ h'.list, e.ref = r ∧ e.Live ∧
      h'.instances = h.instances.add (inst.getD e.inst, name.short) ∧
      h'.instances = h.instances.add (e.inst, name.short) := by
  cases hi
  case new e hl hf hi hg hm hs =>
    have he : inst.getD e.inst = e.inst := by cases inst <;> simp_all
    refine ⟨hg, e, hm, rfl, hl, ?_⟩
    rw [he, and_self]
    ext p
    have hf : ∀ r ∈ h.instances, r.1 ≠ e.inst ∧ r.2 ≠ name.short :=
      fun r ⟨d, hd, hl, hr⟩ => hr ▸ hf d hd hl
    refine hs p |>.trans ?_
    exact ⟨.symm ∘ .imp_left (⟨·, hf⟩), .symm ∘ .imp_right And.left⟩
  case old e i hg hm hl hs =>
    have hq : (e.inst, e.name.short) ∈ h.instances := ⟨e, hm, hl, rfl⟩
    exact ⟨hg, e, hm, rfl, hl, Instances.add_of_mem hq hs,
      Instances.add_of_mem hq (.inl rfl)⟩

theorem Good.store (hg : Good h) (key : List UInt8) (priv : Nat)
    (hk : StoreKeeps h flags name inst) :
    ∃ h' sts, store h flags name key priv inst = some (h', sts) ∧ Good h' ∧
      h'.instances = flags.apply sts name.short h.instances := by
  unfold Cache.store
  cases hf : h.findName name
  case some e =>
    have ⟨hm, hl, hs⟩ := findName_some hf
    simp only
    split
    case isTrue => exact ⟨_, _, rfl, hg, rfl⟩
    case isFalse =>
      have ⟨h', sts, he, hg', hi, hs⟩ := hg.setEntry hm hl flags key priv
      refine ⟨h', sts, he, hg', ?_⟩
      have hq : (e.inst, e.name.short) ∈ h.instances := ⟨e, hm, hl, rfl⟩
      cases flags <;> simp only [reduceIte, reduceCtorEq] at hi hs <;> subst hs
      case other => exact hi
      all_goals rw [Flags.apply_inst, hi, Flags.apply.go]
      case add => exact Instances.add_of_mem hq (.inl rfl)
  case none =>
    have hn := hg.findName_none hf
    simp only
    split
    case isTrue => exact ⟨_, _, rfl, hg, rfl⟩
    case isFalse hadd =>
      cases not_not.mp hadd
      have ⟨⟨h₁, o, sts⟩, he, hi⟩ := hg.insertCache inst (fun _ => hn) (hk rfl hf)
      cases o
      case none =>
        have ⟨hg₁, hs, _, hsts⟩ := hi.instances_none
        exact ⟨h₁, sts, by simp [he], hg₁, by simpa [Flags.apply, hsts] using hs⟩
      case some r =>
        have ⟨hg₁, e, hm, hr, hl, _, hs⟩ := hi.instances_some
        have ⟨h', sts', he', hg', hi', hs'⟩ := hg₁.setEntry hm hl .add key priv
        refine ⟨h', sts', by simp [he, ← hr, he'], hg', ?_⟩
        simp only [reduceIte, reduceCtorEq] at hi' hs'
        rw [hs', Flags.apply_inst, hi', hs, Flags.apply.go]

theorem guess_error (hs : guess h name key tried n = .error sts) : sts < 0 := by
  induction n generalizing tried
  case zero => cases hs; decide
  case succ n hi =>
    simp only [guess] at hs
    split at hs
    case h_1 => contradiction
    case h_2 =>
      split_ifs at hs
      · contradiction
      · cases hs; decide
      · cases hs; decide
      · exact hi hs

def StoreKeyKeeps (h : Hdr) (flags : Flags) (name : CStr) (key : List UInt8) : Prop :=
  ∀ inst, guess h name (mykey name key) 0 maxHashTry = .ok inst →
    StoreKeeps { h with insMode := 1 } flags name (some inst)

theorem Good.pmdaCacheStoreKey (hg : Good h) (priv : Nat) (hk : StoreKeyKeeps h flags name key) :
    ∃ h' sts, pmdaCacheStoreKey h flags name key priv = some (h', sts) ∧ Good h' ∧
      h'.instances = flags.apply sts name.short h.instances := by
  unfold Cache.pmdaCacheStoreKey
  split
  case isTrue hadd => exact hg.store _ _ fun h => absurd h hadd
  case isFalse =>
    cases hf : h.findName name
    case some e =>
      simp only
      split
      case isTrue => exact hg.store _ _ fun _ hn => by simp [hf] at hn
      case isFalse => exact ⟨_, _, rfl, hg, rfl⟩
    case none =>
      simp only
      split
      case h_1 sts hs => exact ⟨_, _, rfl, hg, by rw [Flags.apply, if_pos (guess_error hs)]⟩
      case h_2 inst hs => exact hg.setMode.store _ _ (hk inst hs)

end Store

theorem Good.mark (hg : Good h) (p : Entry → Bool) (state : State)
    (hl : ∀ e, p e → state ≠ .empty → e.Live) :
    Good (h.mark p state).fst ∧
      (h.mark p state).fst.instances =
        { q | ∃ e ∈ h.list, e.Live ∧ (p e → state ≠ .empty) ∧ (e.inst, e.name.short) = q } := by
  have hk : Keeps h fun e => if p e then { e with state } else e := keeps_mark hl
  refine ⟨hg.map hk, Set.ext fun q => stores_map hk |>.trans ?_⟩
  refine exists_congr fun e => and_congr_right fun he => ?_
  rw [← and_assoc]
  refine and_congr_left fun _ => ⟨fun hv => ⟨hk.live e he hv, fun hp => ?_⟩, fun ⟨hv, hs⟩ => ?_⟩
  · rwa [if_pos hp] at hv
  · split
    case isTrue hp => exact hs hp
    case isFalse => exact hv

theorem Good.mark_live (hg : Good h) (hs : state ≠ .empty) (hs' : state' ≠ .empty) :
    Good (h.mark (·.state = state) state').fst ∧
      (h.mark (·.state = state) state').fst.instances = h.instances := by
  have ⟨hg, hi⟩ := hg.mark (·.state = state) state' fun e hp _ => by simp_all [Entry.Live]
  exact ⟨hg, hi.trans <| by simp [hs', Hdr.instances, Hdr.Stores]⟩

-- The instances that are not removed by `pmdaCachePurge`.
def Hdr.recent (h : Hdr) (epoch : Int) : Instances :=
  { q | ∃ e ∈ h.list, e.Live ∧ ¬isOld epoch e ∧ (e.inst, e.name.short) = q }

theorem Good.pmdaCachePurge (hg : Good h) (epoch : Int) :
    Good (pmdaCachePurge h epoch).fst ∧
      (pmdaCachePurge h epoch).fst.instances = h.recent epoch := by
  have ⟨hg, hi⟩ := hg.mark (isOld epoch) .empty fun _ _ h => absurd rfl h
  exact ⟨hg, hi.trans <| by simp [Hdr.recent]⟩

theorem Good.opCull (hg : Good h) : Good (opCull h).fst ∧ (opCull h).fst.instances = ∅ := by
  have ⟨hg, hi⟩ := hg.mark (·.state ≠ .empty) .empty fun _ _ h => absurd rfl h
  refine ⟨hg, hi.trans <| Set.eq_empty_of_forall_notMem fun p ⟨e, _, hl, hs, _⟩ => ?_⟩
  exact hs (decide_eq_true hl) rfl

theorem Good.opReorg (hg : Good h) (hl : h.LastLive) :
    Good (opReorg h).fst ∧ (opReorg h).fst.instances = h.instances :=
  ⟨⟨hg.toOrdered.redoHash hl, hg.toHashed.redoHash hg.toOrdered⟩, Set.ext fun _ => stores_redoHash⟩

def RecordsKeep (h : Hdr) : List Record → Prop
  | [] => True
  | r :: rs =>
    (conflict h r.name r.inst = none → InsertKeeps h r.name (some r.inst)) ∧
      ∀ h' sts, loadRecord h r = some (h', sts) → RecordsKeep h' rs

theorem Good.loadRecord (hg : Good h)
    (hk : conflict h r.name r.inst = none → InsertKeeps h r.name (some r.inst)) :
    ∃ h' s, loadRecord h r = some (h', .ok s) ∧ Good h' ∧
      h'.instances = addRecord h.instances r := by
  have ⟨⟨h₁, o, sts⟩, he, hi⟩ := hg.insertCache (some r.inst) nofun fun hc => hk (hc _ rfl)
  cases o
  case none => exact absurd hi.instances_none.right.right.left nofun
  case some e =>
    have ⟨hg₁, e, hm, hr, hl, hs, _⟩ := hi.instances_some
    have ⟨hg', hs'⟩ := hg₁.edit_live hm hl (f := ({ · with key := r.key, stamp := r.stamp }))
      (fun _ => ⟨rfl, rfl, rfl⟩) (fun _ => id)
    exact ⟨_, e.ref, by simp [Cache.loadRecord, he, ← hr], hg', hs'.trans hs⟩

theorem Good.loadRecords (hg : Good h) (hk : RecordsKeep h rs) :
    ∃ h' s', loadRecords h s rs = some (h', .ok s') ∧ Good h' ∧
      h'.instances = rs.foldl addRecord h.instances := by
  induction rs generalizing h s
  case nil => exact ⟨h, s, rfl, hg, rfl⟩
  case cons r rs hi =>
    have ⟨h₁, s₁, he, hg₁, hs⟩ := hg.loadRecord hk.left
    have ⟨h', s', he', hg', hs'⟩ := hi (s := s₁) hg₁ (hk.right _ _ he)
    exact ⟨h', s', by simp [Cache.loadRecords, he, he'], hg', by rw [hs', hs, List.foldl_cons]⟩

theorem loadHeader_hdr : ∃ m, (loadHeader h buf).1 = { h with insMode := m } := by
  unfold loadHeader
  split
  case h_1 => exact ⟨h.insMode, rfl⟩
  case h_2 => split <;> exact ⟨_, rfl⟩

theorem records_hdr {f : File} : ∃ m, (f.records h).1 = { h with insMode := m } := by
  unfold File.records
  split
  case h_1 => exact ⟨h.insMode, rfl⟩
  case h_2 =>
    split
    case h_1 => exact ⟨h.insMode, rfl⟩
    case h_2 line _ _ =>
      have ⟨m, hm⟩ := @loadHeader_hdr h (readLine f.buf line)
      simp only
      split <;> exact ⟨m, by simp_all⟩

theorem Good.loadCache (hg : Good h) (f : File)
    (hk : RecordsKeep (f.records h).1 (f.records h).2.1) :
    ∃ h' r, loadCache h f = some (h', r) ∧ Good h' ∧ h'.instances =
      (f.records h).2.1.foldl addRecord h.instances := by
  have ⟨m, hm⟩ := @records_hdr h f
  rw [hm] at hk
  have ⟨h', s, he, hg', hs⟩ := hg.setMode.loadRecords (s := none) hk
  exact ⟨h', _, by simp [Cache.loadCache, hm, he]; rfl, hg', hs⟩

inductive Op
  | store (flags : Flags) (name : CStr) (priv : Nat)
  | storeKey (flags : Flags) (name : CStr) (key : List UInt8) (priv : Nat)
  | active
  | inactive
  | cull
  | reuse
  | reorg
  | load (file : File)
  | purge (epoch : Int)

def Hdr.step (h : Hdr) : Op → Option (Hdr × Int)
  | .store flags name priv => pmdaCacheStore h flags name priv
  | .storeKey flags name key priv => pmdaCacheStoreKey h flags name key priv
  | .active => some (opActive h)
  | .inactive => some (opInactive h)
  | .cull => some (opCull h)
  | .reuse => some (opReuse h)
  | .reorg => some (opReorg h)
  | .load file => (loadCache h file).map fun (h, sts, _) => (h, sts)
  | .purge epoch => some (pmdaCachePurge h epoch)

-- The instances that have been stored and not culled since, where `sts` is the result of the call.
def Instances.step (s : Instances) (h : Hdr) (sts : Int) : Op → Instances
  | .store flags name _ => flags.apply sts name.short s
  | .storeKey flags name _ _ => flags.apply sts name.short s
  | .active | .inactive | .reuse | .reorg => s
  | .cull => ∅
  | .load file => (file.records h).2.1.foldl addRecord s
  | .purge epoch => s ∩ h.recent epoch

structure Tracked where
  hdr : Hdr
  live : Instances

namespace Tracked

def new : Tracked :=
  ⟨.new, ∅⟩

def step (t : Tracked) (op : Op) : Option Tracked := do
  let (hdr, sts) ← t.hdr.step op
  return ⟨hdr, t.live.step t.hdr sts op⟩

-- Whenever `redo_hash` is run, `last` does not refer to an empty entry.
def Allows (t : Tracked) : Op → Prop
  | .store flags name _ => StoreKeeps t.hdr flags name none
  | .storeKey flags name key _ => StoreKeyKeeps t.hdr flags name key
  | .reorg => t.hdr.LastLive
  | .load file => RecordsKeep (file.records t.hdr).1 (file.records t.hdr).2.1
  | .active | .inactive | .cull | .reuse | .purge _ => True

structure Sound (t : Tracked) : Prop where
  good : Good t.hdr
  live : t.hdr.instances = t.live

variable {t : Tracked}

theorem step_sound (h : t.Sound) (ha : t.Allows op) : ∃ t', t.step op = some t' ∧ t'.Sound := by
  have ⟨hg, hl⟩ := h
  have hs {h' : Hdr} {sts} (he : t.hdr.step op = some (h', sts)) (hg' : Good h')
      (hl' : h'.instances = t.live.step t.hdr sts op) : ∃ t', t.step op = some t' ∧ t'.Sound :=
    ⟨⟨h', t.live.step t.hdr sts op⟩, by simp [step, he], hg', hl'⟩
  cases op
  case store flags name priv =>
    have ⟨_, _, he, hg', hl'⟩ := hg.store [] priv ha
    exact hs he hg' (hl ▸ hl')
  case storeKey flags name key priv =>
    have ⟨_, _, he, hg', hl'⟩ := hg.pmdaCacheStoreKey priv ha
    exact hs he hg' (hl ▸ hl')
  case active =>
    have ⟨hg', hl'⟩ := @Good.mark_live t.hdr .inactive .active hg nofun nofun
    exact hs rfl hg' (hl'.trans hl)
  case inactive =>
    have ⟨hg', hl'⟩ := @Good.mark_live t.hdr .active .inactive hg nofun nofun
    exact hs rfl hg' (hl'.trans hl)
  case cull => exact hs rfl hg.opCull.left hg.opCull.right
  case reuse => exact hs rfl hg.setMode hl
  case reorg => exact hs rfl (hg.opReorg ha).left ((hg.opReorg ha).right.trans hl)
  case load file =>
    have ⟨_, _, he, hg', hl'⟩ := hg.loadCache file ha
    exact hs (by rw [Hdr.step, he]; rfl) hg' (hl ▸ hl')
  case purge epoch =>
    have ⟨hg', hl'⟩ := hg.pmdaCachePurge epoch
    have hr : t.hdr.recent epoch ⊆ t.live := hl ▸ fun p ⟨e, hm, hl, _, hp⟩ => ⟨e, hm, hl, hp⟩
    exact hs rfl hg' <| hl'.trans <| Set.inter_eq_right.mpr hr |>.symm

theorem new_sound : new.Sound where
  good := ⟨⟨.nil, nofun, .nil, .nil, rfl⟩, ⟨by decide, nofun, nofun, nofun, nofun⟩⟩
  live := Set.eq_empty_of_forall_notMem nofun

theorem exec_good (hg : Run.Guarded step Allows new ops) :
    ∃ t, Run.exec step new ops = some t ∧ t.Sound :=
  Run.exec_invariant (fun _ _ => step_sound) new_sound hg

theorem exec_good_cull_reorg :
    let a : CStr := ⟨[97], by decide⟩
    let b : CStr := ⟨[98], by decide⟩
    let ops := [.store .add a 0, .store .add b 0, .store .cull a 0, .reorg]
    ∃ t, Run.exec step new ops = some t ∧ t.Sound := by
  refine exec_good <| .cons (fun _ _ _ => insertKeeps_of_lt (by decide)) rfl ?_
  refine .cons (fun _ _ _ => insertKeeps_of_lt (by decide)) rfl ?_
  refine .cons nofun rfl <| .cons (fun e he => ?_) rfl trivial
  obtain rfl := Option.some.inj he
  decide

-- The only entry is culled and then freed by `redo_hash`, but `last` still refers to it.
theorem exec_cull_reorg_not_good :
    let a : CStr := ⟨[97], by decide⟩
    ∃ t, Run.exec step new [.store .add a 0, .store .cull a 0, .reorg] = some t ∧
      t.hdr.list = [] ∧ t.hdr.last = some 0 ∧ ¬t.Sound :=
  ⟨_, rfl, rfl, rfl, fun h => nomatch h.good.last⟩

end Tracked

end Cache
