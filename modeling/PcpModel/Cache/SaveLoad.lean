import PcpModel.Cache.Execution
import PcpModel.Cache.Save

namespace Cache

open List

variable {h h' : Hdr} {e : Entry} {r : Record}

def hashNew (h : Hdr) (e : Entry) : Hdr :=
  linkHash (if h.Resizes then redoHash h true else h) e

theorem mem_hashNew (hl : e.Live) (he : e ∈ h.list) : e ∈ (hashNew h d).list := by
  by_cases hr : h.Resizes
  case pos =>
    rw [hashNew, if_pos hr]
    exact mem_filter.mpr ⟨he, decide_eq_true hl⟩
  case neg => rwa [hashNew, if_neg hr]

theorem hashNew_list (hl : ∀ e ∈ h.list, e.Live) : (hashNew h d).list = h.list := by
  by_cases hr : h.Resizes
  case pos =>
    rw [hashNew, if_pos hr]
    exact filter_eq_self.mpr fun e he => decide_eq_true (hl e he)
  case neg => rw [hashNew, if_neg hr]; rfl

theorem hashNew_insMode : (hashNew h d).insMode = h.insMode := by
  by_cases hr : h.Resizes
  case pos => rw [hashNew, if_pos hr]; rfl
  case neg => rw [hashNew, if_neg hr]; rfl

def Record.set (r : Record) (e : Entry) : Entry :=
  { e with key := r.key, stamp := r.stamp }

theorem loadRecord_none (hc : conflict h r.name r.inst = none)
    (hi : linkNew h r.name (some r.inst) = some (h₁, some e)) :
    loadRecord h r = some ((hashNew h₁ e).edit e.ref r.set, .ok e.ref) := by
  simp [loadRecord, insertCache, hc, insertNew, hi, hashNew]
  rfl

theorem loadRecord_some (hc : conflict h r.name r.inst = some (d, sts)) :
    loadRecord h r = some (h.edit d.ref r.set, .ok d.ref) := by
  simp [loadRecord, insertCache, hc]
  rfl

-- All entries come from records, which have been loaded in the order of their identifiers.
structure Loaded (h : Hdr) (rs : List Record) : Prop where
  good : Good h
  live : ∀ e ∈ h.list, e.Live
  records : h.list.map Entry.record = rs

-- A record that comes before another one in a file that has been saved.
def Record.Before (q r : Record) : Prop :=
  q.inst < r.inst ∧ q.name.short ≠ r.name.short

theorem Loaded.before (hd : Loaded h rs) (hr : ∀ q ∈ rs, q.Before r) (he : e ∈ h.list) :
    e.inst < r.inst ∧ e.name.short ≠ r.name.short :=
  hr e.record (hd.records ▸ mem_map_of_mem he)

theorem Loaded.conflict (hd : Loaded h rs) (hr : ∀ q ∈ rs, q.Before r) :
    conflict h r.name r.inst = none := by
  rcases hc : Cache.conflict h r.name r.inst with _ | ⟨e, sts⟩
  · rfl
  · obtain ⟨he, -, hs⟩ := conflict_some hc
    have := hd.before hr he
    rcases hs with hs | hs
    · omega
    · exact absurd hs this.right

theorem Loaded.linkNew (hd : Loaded h rs) (hr : ∀ q ∈ rs, q.Before r) :
    linkNew h r.name (some r.inst) =
      some (linked h r.name r.inst h.list [], some (newEntry h r.name r.inst)) := by
  have hi : ∀ e ∈ h.list, e.Live → e.inst ≠ r.inst :=
    fun e he _ => Nat.ne_of_lt (hd.before hr he).left
  obtain ⟨l₁, l₂, s, hp, hl⟩ := linkNew_some hd.good.toOrdered hi r.name
  have hn : l₂ = [] := by
    refine eq_nil_iff_forall_not_mem.mpr fun e he => ?_
    have hlt := (hd.before hr (hp.list ▸ mem_append_right l₁ he)).left
    exact absurd (hp.after e he).left (Nat.not_le_of_lt hlt)
  have h₁ : l₁ = h.list := by rw [hp.list, hn, append_nil]
  rw [hl, hn, h₁]

theorem edit_append (hl : h.list = es ++ [e]) (hf : ∀ d ∈ es, d.ref ≠ e.ref) (f : Entry → Entry) :
    (h.edit e.ref f).list = es ++ [f e] := by
  have hm : es.map (fun d => if d.ref = e.ref then f d else d) = es :=
    (map_congr_left fun d hd => if_neg (hf d hd)).trans (map_id' es)
  rw [Hdr.edit, hl, map_append, hm, map_singleton, if_pos rfl]

theorem Loaded.loadRecord (hd : Loaded h rs) (hr : ∀ q ∈ rs, q.Before r) :
    ∃ h' s, loadRecord h r = some (h', .ok s) ∧ Loaded h' (rs ++ [r]) ∧
      h'.insMode = h.insMode := by
  have hl := hd.linkNew hr
  have hv : ∀ e ∈ (linked h r.name r.inst h.list []).list, e.Live := by
    simp only [linked, forall_mem_append, forall_mem_singleton]
    exact ⟨hd.live, newEntry_live⟩
  have hk : InsertKeeps h r.name (some r.inst) := by
    intro h₁ e hl' _ d hd
    obtain ⟨rfl, -⟩ : linked h r.name r.inst h.list [] = h₁ ∧ _ = e := by simpa [hl] using hl'
    obtain ⟨s, -, hs⟩ := Option.bind_eq_some_iff.mp hd
    exact hv d (mem_of_find?_eq_some hs)
  obtain ⟨h', s, he, hg, -⟩ := hd.good.loadRecord fun _ => hk
  have he' := loadRecord_none (hd.conflict hr) hl
  have hlist : h'.list = h.list ++ [r.set (newEntry h r.name r.inst)] := by
    obtain ⟨rfl, -⟩ : h' = _ ∧ _ := by simpa [he] using he'
    exact edit_append (hashNew_list hv) (fun d hm => Nat.ne_of_lt (hd.good.fresh d hm)) r.set
  have hmode : h'.insMode = h.insMode := by
    obtain ⟨rfl, -⟩ : h' = _ ∧ _ := by simpa [he] using he'
    exact hashNew_insMode (d := newEntry h r.name r.inst)
  refine ⟨h', s, he, ⟨hg, ?_, ?_⟩, hmode⟩
  · simp only [hlist, forall_mem_append, forall_mem_singleton]
    have hn : (newEntry h r.name r.inst).Live := newEntry_live
    exact ⟨hd.live, hn⟩
  · rw [hlist, map_append, hd.records]
    rfl

theorem Loaded.loadRecords (hd : Loaded h rs) (hb : (rs ++ qs).Pairwise Record.Before) :
    ∃ h' s', loadRecords h s qs = some (h', .ok s') ∧ Loaded h' (rs ++ qs) ∧
      h'.insMode = h.insMode := by
  induction qs generalizing h rs s
  case nil => exact ⟨h, s, rfl, by rwa [append_nil], rfl⟩
  case cons q qs ih =>
    have hq : ∀ p ∈ rs, p.Before q :=
      fun p hp => (pairwise_append.mp hb).right.right p hp q mem_cons_self
    obtain ⟨h₁, s₁, he, hd₁, hm⟩ := hd.loadRecord hq
    rw [append_cons] at hb ⊢
    obtain ⟨h', s', he', hd', hm'⟩ := ih (s := s₁) hd₁ hb
    exact ⟨h', s', by simp [Cache.loadRecords, he, he'], hd', hm'.trans hm⟩

theorem loaded_nil (hg : Good h) (hl : h.list = []) : Loaded h [] :=
  ⟨hg, by simp [hl], by simp [hl]⟩

theorem Good.saved (hg : Good h) (now : Int) : Good (h.saved now) := by
  refine hg.map ⟨fun e => ?_, fun e => ?_, fun e => ?_, fun e _ => ?_⟩ <;>
    simp only [Entry.stamped, Entry.Live] <;> split <;> simp

theorem Good.pairwise_before (hg : Good h) :
    (h.live.map Entry.record).Pairwise Record.Before := by
  refine pairwise_map.mpr ?_
  refine (hg.apart.sublist filter_sublist).imp_of_mem fun {d e} hd he ha => ?_
  have hd := of_decide_eq_true (mem_filter.mp hd).right
  have he := of_decide_eq_true (mem_filter.mp he).right
  exact ha hd he

theorem loadCache_text (hg : Good h) (hm : h.insMode = 0 ∨ h.insMode = 1)
    (hp : ∀ e ∈ h.live, e.Plain) (hc : ∀ e ∈ h.live, e.Clear) {h₀ : Hdr} (hg₀ : Good h₀)
    (hl₀ : h₀.list = []) :
    ∃ h' : Hdr, loadCache h₀ ⟨.ok h.text, buf, tmp⟩ = some (h', (h.live.length : Int), none) ∧
      h'.live.map Entry.record = h.live.map Entry.record ∧ h'.insMode = h.insMode := by
  have hd : Loaded { h₀ with insMode := h.insMode } [] := loaded_nil hg₀.setMode hl₀
  obtain ⟨h', s, he, hd', hi⟩ := hd.loadRecords (s := none) hg.pairwise_before
  have hl : h'.live = h'.list := filter_eq_self.mpr fun e he => decide_eq_true (hd'.live e he)
  refine ⟨h', ?_, ?_, hi⟩
  · simp [loadCache, records_text h₀ buf tmp hm hp hc, he]
  · rw [hl, hd'.records, nil_append]

-- The records, and whether each of them is taken for an entry.
def taken (s : Ref) (h : Hdr) : List Record → List (Record × Bool)
  | [] => []
  | r :: rs => (r, (conflict h r.name r.inst).any (·.1.ref = s)) ::
      (loadRecord h r).elim [] fun (h', _) => taken s h' rs

def touching (s : Ref) (h : Hdr) (rs : List Record) : List Record :=
  ((taken s h rs).filter (·.2)).map (·.1)

-- The last record that is taken for an entry sets its key and its stamp.
def Entry.overwrite (e : Entry) (r : Option Record) : Entry :=
  r.elim e (·.set e)

theorem overwrite_set (e : Entry) : (r.set e).overwrite o = e.overwrite (some (o.getD r)) := by
  cases o <;> rfl

theorem overwrite_eq_iff : e.overwrite o = e ↔ ∀ r ∈ o, r.key = e.key ∧ r.stamp = e.stamp := by
  cases o
  case none => simp [Entry.overwrite]
  case some r =>
    obtain ⟨ref, inst, name, key, state, priv, stamp⟩ := e
    simp [Entry.overwrite, Record.set]

theorem overwrite_ref : (e.overwrite o).ref = e.ref := by
  cases o <;> rfl

theorem mem_edit (he : e ∈ h.list) : (if e.ref = s then f e else e) ∈ (h.edit s f).list :=
  mem_map_of_mem he

theorem mem_loadRecord (hg : Good h) (he : e ∈ h.list) (hl : e.Live)
    (hr : loadRecord h r = some (h', sts)) :
    (if (conflict h r.name r.inst).any (·.1.ref = e.ref) then r.set e else e) ∈ h'.list := by
  rcases hc : conflict h r.name r.inst with _ | ⟨d, s⟩
  case none =>
    obtain ⟨hi, -⟩ := conflict_none hg hc
    obtain ⟨l₁, l₂, s, hp, hn⟩ := linkNew_some hg.toOrdered hi r.name
    obtain ⟨rfl, -⟩ : _ = h' ∧ _ := by simpa [loadRecord_none hc hn] using hr
    have hm : e ∈ (linked h r.name r.inst l₁ l₂).list := mem_linked hp.list |>.mpr <| .inr he
    have hm := mem_hashNew (d := newEntry h r.name r.inst) hl hm
    simpa [newEntry, Nat.ne_of_lt (hg.fresh e he)] using mem_edit (s := h.brk) hm
  case some =>
    obtain ⟨rfl, -⟩ : _ = h' ∧ _ := by simpa [loadRecord_some hc] using hr
    simpa [eq_comm] using mem_edit (s := d.ref) he

theorem loadRecord_ref (hg : Good h) (he : e ∈ h.list) (hr : loadRecord h r = some (h', .ok s)) :
    s = e.ref ↔ (conflict h r.name r.inst).any (·.1.ref = e.ref) := by
  rcases hc : conflict h r.name r.inst with _ | ⟨d, sts⟩
  case none =>
    obtain ⟨hi, -⟩ := conflict_none hg hc
    obtain ⟨l₁, l₂, t, hp, hn⟩ := linkNew_some hg.toOrdered hi r.name
    obtain ⟨-, rfl⟩ : _ ∧ _ = s := by simpa [loadRecord_none hc hn] using hr
    simpa [newEntry] using Nat.ne_of_gt (hg.fresh e he)
  case some =>
    obtain ⟨-, rfl⟩ : _ ∧ _ = s := by simpa [loadRecord_some hc] using hr
    simp

theorem mem_loadRecords (hg : Good h) (hk : RecordsKeep h rs) (he : e ∈ h.list) (hl : e.Live)
    (hr : loadRecords h s rs = some (h', .ok s')) :
    e.overwrite (touching e.ref h rs).getLast? ∈ h'.list ∧
      (s' = some e.ref ↔ (taken e.ref h rs).getLast?.elim (s = some e.ref) (·.2)) := by
  induction rs generalizing h e s
  case nil =>
    obtain ⟨rfl, rfl⟩ : h = h' ∧ s = s' := by simpa [loadRecords] using hr
    exact ⟨he, .rfl⟩
  case cons r rs ih =>
    obtain ⟨h₁, s₁, he₁, hg₁, -⟩ := hg.loadRecord hk.left
    have hm := mem_loadRecord hg he hl he₁
    have hs := loadRecord_ref hg he he₁
    have hr : loadRecords h₁ s₁ rs = some (h', .ok s') := by simpa [loadRecords, he₁] using hr
    rw [touching, taken, he₁, Option.elim_some, getLast?_cons, Option.elim_some]
    generalize (conflict h r.name r.inst).any (·.1.ref = e.ref) = b at hm hs ⊢
    have hlast (hi : s' = some e.ref ↔
        (taken e.ref h₁ rs).getLast?.elim (some s₁ = some e.ref) (·.2)) :
        s' = some e.ref ↔ ((taken e.ref h₁ rs).getLast?.getD (r, b)).2 := by
      rw [hi]
      cases (taken e.ref h₁ rs).getLast?
      case none => simpa using hs
      case some => rfl
    cases b
    case true =>
      obtain ⟨ho, hi⟩ := ih (e := r.set e) hg₁ (hk.right _ _ he₁) hm hl hr
      refine ⟨?_, hlast hi⟩
      rw [filter_cons_of_pos rfl, map_cons, getLast?_cons, ← overwrite_set]
      exact ho
    case false =>
      obtain ⟨ho, hi⟩ := ih hg₁ (hk.right _ _ he₁) hm hl hr
      exact ⟨ho, hlast hi⟩

-- The last record that is taken for an entry has its key and its stamp, and this key is not freed.
def Entry.Spared (e : Entry) (h : Hdr) (rs : List Record) (frees : Bool) : Prop :=
  (∀ r ∈ (touching e.ref h rs).getLast?, r.key = e.key ∧ r.stamp = e.stamp) ∧
    (frees → ∀ r ∈ (taken e.ref h rs).getLast?, r.2 = false)

theorem loadCache_mem_iff (hg : Good h) (f : File)
    (hk : RecordsKeep (f.records h).1 (f.records h).2.1) (he : e ∈ h.list) (hl : e.Live) :
    ∃ h' sts freed, loadCache h f = some (h', sts, freed) ∧
      (e ∈ h'.list ∧ freed ≠ some e.ref ↔
        e.Spared (f.records h).1 (f.records h).2.1 (f.records h).2.2.2) := by
  obtain ⟨m, hm⟩ := records_hdr
  rw [hm] at hk ⊢
  obtain ⟨h', s', hr, hg', -⟩ := hg.setMode.loadRecords (s := none) hk
  obtain ⟨ho, hs⟩ := mem_loadRecords hg.setMode hk he hl hr
  refine ⟨h', (f.records h).2.2.1, if (f.records h).2.2.2 then s' else none,
    by simp [loadCache, hm, hr], ?_⟩
  rw [Entry.Spared, ← overwrite_eq_iff]
  refine and_congr ⟨fun he' => ?_, fun heq => heq ▸ ho⟩ ?_
  · exact inj_on_of_nodup_map hg'.nodup ho he' overwrite_ref
  · cases (f.records h).2.2.2
    case false => simp
    case true =>
      rw [if_pos rfl, ne_eq, hs]
      cases (taken e.ref _ _).getLast? <;> simp

def Hdr.single (e : Entry) : Hdr :=
  linkHash { Hdr.new with list := [e], last := some e.ref, nentry := 1, brk := e.ref + 1 } e

theorem good_single (e : Entry) : Good (.single e) := by
  let h : Hdr := { Hdr.new with list := [e], last := some e.ref, nentry := 1, brk := e.ref + 1 }
  have ho : Ordered h := by constructor <;> simp [h]
  have hh : Hashed h (some e.ref) := by constructor <;> simp [h, Hdr.new]
  exact ⟨⟨ho.nodup, ho.fresh, ho.insts, ho.apart, ho.last⟩,
    hh.linkHash ho (mem_singleton.mpr rfl)⟩

theorem loadCache_saveCache (now : Int) (buf : List UInt8) (tmp : Int) :
    (∀ h h₀ : Hdr, Good h → (h.insMode = 0 ∨ h.insMode = 1) →
      (∀ e ∈ (h.saved now).live, e.Plain) → (∀ e ∈ (h.saved now).live, e.Clear) →
      Good h₀ → h₀.list = [] →
        ∃ h' : Hdr, loadCache h₀ ⟨.ok (saveCache h now).2.1, buf, tmp⟩ =
            some (h', (saveCache h now).2.2, none) ∧
          h'.live.map Entry.record = (saveCache h now).1.live.map Entry.record ∧
          h'.insMode = h.insMode) ∧
    ∀ (h : Hdr) (f : File), Good h → RecordsKeep (f.records h).1 (f.records h).2.1 →
      ∀ e ∈ h.list, e.Live → ∃ h' sts freed, loadCache h f = some (h', sts, freed) ∧
        (e ∈ h'.list ∧ freed ≠ some e.ref ↔
          e.Spared (f.records h).1 (f.records h).2.1 (f.records h).2.2.2) := by
  constructor
  · intro h h₀ hg hm hp hc hg₀ hl₀
    exact loadCache_text (hg.saved now) hm hp hc hg₀ hl₀
  · intro h f hg hk e he hl
    exact loadCache_mem_iff hg f hk he hl

def cpu : Entry where
  ref := 0
  inst := 0
  name := .at [99, 112, 117]
  key := [0xab]
  state := .active
  priv := 0
  stamp := 7

theorem loadCache_saveCache_cpu :
    (∃ h' : Hdr, loadCache .new ⟨.ok (saveCache (.single cpu) 5).2.1, [], 0⟩ =
        some (h', (saveCache (.single cpu) 5).2.2, none) ∧
      h'.live.map Entry.record = (saveCache (.single cpu) 5).1.live.map Entry.record ∧
      h'.insMode = 0) ∧
    ∃ h' sts freed, loadCache (.single cpu)
        ⟨.ok (Hdr.single { cpu with name := .at [100] }).text, [], 0⟩ = some (h', sts, freed) ∧
      cpu ∈ h'.list ∧ freed ≠ some cpu.ref := by
  let d : Entry := { cpu with name := .at [100] }
  have hs : (Hdr.saved (.single cpu) 5).live = [cpu] := by decide +kernel
  have hp : ∀ e ∈ (Hdr.single d).live, e.Plain := by
    refine forall_mem_singleton.mpr ?_
    constructor <;> decide +kernel
  have hc : ∀ e ∈ (Hdr.single d).live, e.Clear := by
    refine forall_mem_singleton.mpr ?_
    constructor <;> decide +kernel
  obtain ⟨h₁, h₂⟩ := loadCache_saveCache 5 [] 0
  constructor
  · refine h₁ (.single cpu) .new (good_single cpu) (.inl rfl) ?_ ?_ Tracked.new_sound.good rfl
    · rw [hs, forall_mem_singleton]
      constructor <;> decide +kernel
    · rw [hs, forall_mem_singleton]
      constructor <;> decide +kernel
  · have hr := records_text (.single cpu) [] 0 (.inl rfl) hp hc
    have hk : RecordsKeep (.single cpu) [d.record] :=
      ⟨fun hc => absurd hc (by decide +kernel), fun _ _ _ => trivial⟩
    obtain ⟨h', sts, freed, hl, hi⟩ := h₂ (.single cpu) _ (good_single cpu) (by rw [hr]; exact hk)
      cpu (mem_singleton.mpr rfl) (by decide)
    rw [hr] at hi
    exact ⟨h', sts, freed, hl, hi.mpr ⟨by decide +kernel, nofun⟩⟩

-- The name "[ab] c" is taken for a key and a name. A record that is ignored changes an entry, and
-- the empty line after such a record frees the key that the entry has been given.
theorem loadCache_saveCache_not :
    (let e : Entry := { cpu with name := .at [91, 97, 98, 93, 32, 99], key := [] }
     Good (.single e) ∧ e.Plain ∧ (saveCache (.single e) 5).1.live = [e] ∧
      (loadCache .new ⟨.ok (saveCache (.single e) 5).2.1, [], 0⟩).map (·.1.list) =
        some [{ e with name := .at [99], key := [0xab], state := .inactive }]) ∧
    Good (.single cpu) ∧ (Hdr.single cpu).list = [cpu] ∧ cpu.Live ∧
      (loadCache (.single cpu) ⟨.ok [49, 32, 48, 10, 48, 32, 57, 32, 100, 10], [], 0⟩).map
        (·.1.list) = some [{ cpu with key := [], stamp := 9 }] ∧
      (loadCache (.single cpu) ⟨.ok [49, 32, 48, 10, 48, 32, 55, 32, 91, 97, 98, 93, 32, 100, 10,
        10], [], 0⟩).map (·.2.2) = some (some cpu.ref) := by
  refine ⟨⟨good_single _, ?_, ?_, ?_⟩, good_single cpu, rfl, by decide, ?_, ?_⟩
  · constructor <;> decide +kernel
  all_goals decide +kernel

end Cache
