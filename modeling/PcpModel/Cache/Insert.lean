import PcpModel.Cache.Order

namespace Cache

open List Option Nat Pcp

variable {h : Hdr} {name : CStr}

section Place

structure Place (es : List Entry) (inst : Nat) (lastE : Option Ref) (l₁ l₂ : List Entry) :
    Prop where
  list : es = l₁ ++ l₂
  lastE : lastE = l₁.getLast?.map (·.ref)
  before : ∀ e ∈ l₁, e.inst < inst
  after : ∀ e ∈ l₂, inst ≤ e.inst ∧ (e.Live → inst < e.inst)

variable {es : List Entry}

theorem Place.inst_ne {d : Entry} (hp : Place es inst r l₁ l₂) (hd : d ∈ es) (hl : d.Live) :
    d.inst ≠ inst := by
  obtain hd | hd := mem_append.mp (hp.list ▸ hd)
  · exact Nat.ne_of_lt (hp.before d hd)
  · exact Nat.ne_of_gt ((hp.after d hd).right hl)

theorem findPlace_of_le (h : ∀ e ∈ es, inst ≤ e.inst) : findPlace inst r es = r := by
  induction es
  case nil => rfl
  case cons e es hi =>
    have ⟨he, hs⟩ := forall_mem_cons.mp h
    simp [findPlace, not_lt.mpr he, hi hs]

theorem findPlace_cases (hs : es.Pairwise (·.inst ≤ ·.inst)) :
    ∃ l₁ l₂, es = l₁ ++ l₂ ∧ findPlace inst r es = (l₁.getLast?.map (·.ref)).or r ∧
      (∀ e ∈ l₁, e.inst < inst) ∧ ∀ e ∈ l₂, inst ≤ e.inst := by
  induction es generalizing r
  case nil => exact ⟨[], [], rfl, rfl, by simp, by simp⟩
  case cons e es hi =>
    have ⟨he, hs⟩ := pairwise_cons.mp hs
    by_cases hl : e.inst < inst
    case pos =>
      have ⟨l₁, l₂, hl₁, hf, hb, ha⟩ := hi (r := some e.ref) hs
      refine ⟨e :: l₁, l₂, by simp [hl₁], ?_, by simpa [hl] using hb, ha⟩
      simp only [findPlace, hl, if_true, hf]
      cases hg : l₁.getLast? <;> simp [getLast?_cons, hg]
    case neg =>
      have ha : ∀ d ∈ e :: es, inst ≤ d.inst := by
        simp only [forall_mem_cons]
        exact ⟨not_lt.mp hl, fun d hd => not_lt.mp hl |>.trans (he d hd)⟩
      exact ⟨[], e :: es, rfl, findPlace_of_le ha, by simp, ha⟩

theorem findGap_cases (hs : es.Pairwise (·.inst ≤ ·.inst)) (hf : findGap inst r es = some (i, s)) :
    ∃ l₁ l₂, es = l₁ ++ l₂ ∧ s = (l₁.getLast?.map (·.ref)).or r ∧ inst ≤ i ∧
      (∀ e ∈ l₁, e.inst < i) ∧ ∀ e ∈ l₂, i < e.inst := by
  induction es generalizing inst r
  case nil =>
    simp only [findGap, some.injEq, Prod.mk.injEq] at hf
    exact ⟨[], [], rfl, hf.right.symm, hf.left.le, by simp, by simp⟩
  case cons e es hi =>
    have ⟨he, hs⟩ := pairwise_cons.mp hs
    simp only [findGap] at hf
    split at hf
    case isTrue hl =>
      simp only [some.injEq, Prod.mk.injEq] at hf
      refine ⟨[], e :: es, rfl, hf.right.symm, hf.left.le, by simp, ?_⟩
      simp only [forall_mem_cons]
      exact hf.left ▸ ⟨hl, fun d hd => hl.trans_le (he d hd)⟩
    case isFalse hl =>
      split at hf
      case isTrue => contradiction
      case isFalse =>
        have ⟨l₁, l₂, hl₁, hs, hi, hb, ha⟩ := hi hs hf
        refine ⟨e :: l₁, l₂, by simp [hl₁], ?_, by omega, ?_, ha⟩
        · cases hg : l₁.getLast? <;> simp [getLast?_cons, hg, hs]
        · simp only [forall_mem_cons]
          exact ⟨by omega, hb⟩

theorem insertAfter_append {e : Entry} (hn : (l₁.map (·.ref)).Nodup) :
    insertAfter e (l₁.getLast?.map (·.ref)) (l₁ ++ l₂) = l₁ ++ e :: l₂ := by
  induction l₁
  case nil => simp [insertAfter]
  case cons d l₁ hi =>
    have ⟨(hd : d.ref ∉ l₁.map (·.ref)), hn⟩ := nodup_cons.mp hn
    cases hl : l₁.getLast?
    case none =>
      have := getLast?_eq_none_iff.mp hl
      simp [this, insertAfter]
    case some d' =>
      have hm : d'.ref ∈ l₁.map (·.ref) := mem_map_of_mem <| mem_of_getLast? hl
      have hne : d.ref ≠ d'.ref := fun he => hd (he ▸ hm)
      simpa [getLast?_cons, hl, insertAfter, hne] using hi hn

theorem place_cases (ho : Ordered h)
    (hn : ∀ i, inst = some i → ∀ e ∈ h.list, e.Live → e.inst ≠ i) :
    ∃ h' pl, place h inst = some (h', pl) ∧ (∃ m, h' = { h with insMode := m }) ∧
      (pl = none → inst = none) ∧ ∀ i r, pl = some (i, r) →
        (∀ j, inst = some j → i = j) ∧ ∃ l₁ l₂, Place h.list i r l₁ l₂ := by
  have hgap : ∀ i r, findGap 0 none h.list = some (i, r) →
      (∀ j, none = some j → i = j) ∧ ∃ l₁ l₂, Place h.list i r l₁ l₂ := by
    intro i r hf
    have ⟨l₁, l₂, hl, hr, _, hb, ha⟩ := findGap_cases ho.insts hf
    exact ⟨nofun, l₁, l₂, hl, by simpa using hr, hb, fun e he => ⟨(ha e he).le, fun _ => ha e he⟩⟩
  cases inst
  case some i =>
    refine ⟨h, _, rfl, ⟨h.insMode, rfl⟩, nofun, ?_⟩
    rintro i r ⟨⟩
    have ⟨l₁, l₂, hl, hr, hb, ha⟩ := @findPlace_cases h.list i none ho.insts
    refine ⟨by simp, l₁, l₂, hl, by simpa using hr, hb, fun e he => ⟨ha e he, fun hv => ?_⟩⟩
    exact (ha e he).lt_of_ne <| Ne.symm <| hn i rfl e (by simp [hl, he]) hv
  case none =>
    by_cases hm : h.insMode = 0
    case neg => exact ⟨h, _, by simp [place, hm], ⟨h.insMode, rfl⟩, fun _ => rfl, hgap⟩
    case pos =>
      have hl := ho.last
      cases eq_nil_or_concat h.list
      case inl he =>
        refine ⟨h, some (0, none), by simp_all [place], ⟨h.insMode, rfl⟩, nofun, ?_⟩
        rintro i r ⟨⟩
        exact ⟨nofun, [], [], by simp [he], rfl, by simp, by simp⟩
      case inr he =>
        have ⟨es, e, he⟩ := he
        have hl : h.last = some e.ref := by simpa [he] using hl
        have hg : h.get e.ref = some e := get_eq_some ho.nodup |>.mpr ⟨by simp [he], rfl⟩
        by_cases hi : e.inst = maxInst
        case pos => exact ⟨_, _, by simp [place, hm, hl, hg, hi], ⟨1, rfl⟩, fun _ => rfl, hgap⟩
        case neg =>
          have hp : place h none = some (h, some (e.inst + 1, some e.ref)) := by
            simp [place, hm, hl, hg, hi]
          refine ⟨h, _, hp, ⟨h.insMode, rfl⟩, nofun, ?_⟩
          rintro i r ⟨⟩
          refine ⟨nofun, h.list, [], by simp, by simp [he], fun d hd => lt_succ_of_le ?_, by simp⟩
          have hs := ho.insts
          simp only [he, concat_eq_append, pairwise_append, mem_append,
            mem_singleton] at hs hd
          obtain hd | rfl := hd
          · exact hs.right.right d hd e rfl
          · exact le_rfl

end Place

section Link

variable {inst : Nat} {e : Entry}

theorem newLast_eq (ho : Ordered h) (hp : Place h.list inst r l₁ l₂) (name : CStr) :
    newLast h inst = (l₁ ++ newEntry h name inst :: l₂).getLast?.map (·.ref) := by
  have hl := hp.list ▸ ho.last
  have hget {e} (hm : e ∈ h.list) : h.get e.ref = some e := get_eq_some ho.nodup |>.mpr ⟨hm, rfl⟩
  cases eq_nil_or_concat l₂
  case inr he =>
    have ⟨l₂, e, he⟩ := he
    have hle := hp.after e (by simp [he]) |>.left
    simp [newLast, hl, hget (e := e) (by simp [hp.list, he]), not_lt.mpr hle, he,
      getLast?_cons]
  case inl he =>
    cases eq_nil_or_concat l₁
    case inl he' => simp_all [newLast, newEntry]
    case inr he' =>
      have ⟨l₁, e, he'⟩ := he'
      have hl : h.last = some e.ref := by simpa [he, he'] using hl
      have hlt := hp.before e (by simp [he'])
      simp [newLast, hl, hget (e := e) (by simp [hp.list, he']), hlt, he, newEntry]

def linked (h : Hdr) (name : CStr) (inst : Nat) (l₁ l₂ : List Entry) : Hdr :=
  let es := l₁ ++ newEntry h name inst :: l₂
  { h with list := es, last := es.getLast?.map (·.ref), nentry := h.nentry + 1, brk := h.brk + 1 }

theorem linkEntry_eq (ho : Ordered h) (hp : Place h.list inst r l₁ l₂) :
    linkEntry h name inst r = some (linked h name inst l₁ l₂, newEntry h name inst) := by
  have hn : (l₁.map (·.ref)).Nodup := by
    have := hp.list ▸ ho.nodup
    simp only [map_append, nodup_append] at this
    exact this.left
  have hi := @insertAfter_append l₁ l₂ (newEntry h name inst) hn
  have hs : ∃ d, (l₁ ++ newEntry h name inst :: l₂).getLast? = some d :=
    isSome_iff_exists.mp <| by simp
  have ⟨d, hd⟩ := hs
  rw [← hp.lastE, ← hp.list] at hi
  simp [linkEntry, newLast_eq ho hp name, hi, hd, linked]

theorem Ordered.linked (ho : Ordered h) (hp : Place h.list inst r l₁ l₂)
    (hn : ∀ e ∈ h.list, e.Live → e.name.short ≠ name.short) :
    Ordered (linked h name inst l₁ l₂) where
  nodup := by
    have hd := ho.nodup
    have hr (e) (he : e ∈ h.list) : h.brk ≠ e.ref := ne_of_gt (ho.fresh e he)
    simp only [hp.list, map_append] at hd hr
    simp only [Cache.linked, map_append, map_cons, nodup_append, nodup_cons]
    grind [newEntry]
  fresh := by
    have hf := ho.fresh
    simp only [hp.list, forall_mem_append] at hf
    simp only [Cache.linked, forall_mem_append]
    grind [newEntry]
  insts := by
    have hi := ho.insts
    simp only [hp.list, pairwise_append] at hi
    simp only [Cache.linked, pairwise_append, pairwise_cons, forall_mem_cons]
    exact ⟨hi.left, ⟨fun e he => (hp.after e he).left, hi.right.left⟩,
      fun d hd => ⟨(hp.before d hd).le, hi.right.right d hd⟩⟩
  apart := by
    have ha := ho.apart
    simp only [hp.list, pairwise_append, mem_append] at ha hn
    simp only [Cache.linked, pairwise_append, pairwise_cons, forall_mem_cons]
    refine ⟨ha.left, ⟨fun e he _ hl => ?_, ha.right.left⟩, fun d hd => ⟨fun hl _ => ?_, ?_⟩⟩
    · exact ⟨(hp.after e he).right hl, (hn e (.inr he) hl).symm⟩
    · exact ⟨hp.before d hd, hn d (.inl hd) hl⟩
    · exact ha.right.right d hd
  last := rfl

theorem mem_linked (hl : h.list = l₁ ++ l₂) :
    e ∈ (linked h name inst l₁ l₂).list ↔ e = newEntry h name inst ∨ e ∈ h.list := by
  simp only [linked, hl, mem_append, mem_cons]
  exact or_left_comm

theorem Hashed.linked (hh : Hashed h none) (hl : h.list = l₁ ++ l₂) :
    Hashed (linked h name inst l₁ l₂) (some h.brk) where
  bits := hh.bits
  inst := by
    intro e hm hv hr
    obtain rfl | hm := mem_linked hl |>.mp hm
    · contradiction
    · exact hh.inst e hm hv nofun
  name := by
    intro e hm hv hr
    obtain rfl | hm := mem_linked hl |>.mp hm
    · contradiction
    · exact hh.name e hm hv nofun
  instLive := fun i hi r hr =>
    have ⟨e, he, hr⟩ := hh.instLive i hi r hr
    ⟨e, mem_linked hl |>.mpr <| .inr he, hr⟩
  nameLive := fun i hi r hr =>
    have ⟨e, he, hr⟩ := hh.nameLive i hi r hr
    ⟨e, mem_linked hl |>.mpr <| .inr he, hr⟩

theorem stores_linked (hl : h.list = l₁ ++ l₂) :
    (linked h name inst l₁ l₂).Stores p ↔ p = (inst, name.short) ∨ h.Stores p := by
  simp only [Hdr.Stores, mem_linked hl, or_and_right, exists_or]
  simp [newEntry, Entry.Live, eq_comm]

theorem mem_push : r ∈ push ctl i s j ↔ (j = i ∧ r = s) ∨ r ∈ ctl j := by
  by_cases hj : j = i
  case pos => subst hj; simp [push]
  case neg => simp [push, hj]

theorem Hashed.linkHash (ho : Ordered h) (hh : Hashed h (some e.ref)) (hm : e ∈ h.list) :
    Hashed (linkHash h e) none where
  bits := hh.bits
  inst := by
    intro d hd hv _
    refine mem_push.mpr ?_
    by_cases he : d.ref = e.ref
    case pos => exact .inl ⟨by rw [inj_on_of_nodup_map ho.nodup hd hm he]; rfl, he⟩
    case neg => exact .inr <| hh.inst d hd hv (by simpa using he)
  name := by
    intro d hd hv _
    refine mem_push.mpr ?_
    by_cases he : d.ref = e.ref
    case pos => exact .inl ⟨by rw [inj_on_of_nodup_map ho.nodup hd hm he]; rfl, he⟩
    case neg => exact .inr <| hh.name d hd hv (by simpa using he)
  instLive := fun i hi r hr =>
    mem_push.mp hr |>.elim (fun hr => ⟨e, hm, hr.right.symm⟩) (hh.instLive i hi r)
  nameLive := fun i hi r hr =>
    mem_push.mp hr |>.elim (fun hr => ⟨e, hm, hr.right.symm⟩) (hh.nameLive i hi r)

end Link

theorem linkNew_some (ho : Ordered h) (hi : ∀ e ∈ h.list, e.Live → e.inst ≠ i) (name : CStr) :
    ∃ l₁ l₂ s, Place h.list i s l₁ l₂ ∧
      linkNew h name (some i) = some (linked h name i l₁ l₂, some (newEntry h name i)) := by
  have hi' : ∀ j, some i = some j → ∀ e ∈ h.list, e.Live → e.inst ≠ j := by
    rintro _ ⟨⟩
    exact hi
  obtain ⟨h₁, pl, hpl, -, hn, hp⟩ := place_cases ho hi'
  obtain ⟨rfl, rfl⟩ : h = h₁ ∧ some (i, findPlace i none h.list) = pl := by
    simpa [place] using hpl
  obtain ⟨-, l₁, l₂, hp⟩ := hp _ _ rfl
  exact ⟨l₁, l₂, _, hp, by simp [linkNew, place, linkEntry_eq ho hp]⟩

-- If the table is resized, this must not free the entry to which `last` refers.
def InsertKeeps (h : Hdr) (name : CStr) (inst : Option Nat) : Prop :=
  ∀ h' e, linkNew h name inst = some (h', some e) → h'.Resizes → h'.LastLive

theorem place_hdr (hp : place h inst = some (h', pl)) : ∃ m, h' = { h with insMode := m } := by
  unfold place at hp
  split at hp
  case h_1 => cases hp; exact ⟨h.insMode, rfl⟩
  case h_2 =>
    split_ifs at hp
    case neg => cases hp; exact ⟨h.insMode, rfl⟩
    case pos =>
      split at hp
      case h_1 => cases hp; exact ⟨h.insMode, rfl⟩
      case h_2 =>
        have ⟨e, _, hp⟩ := bind_eq_some_iff.mp hp
        split_ifs at hp <;> cases hp
        case pos => exact ⟨1, rfl⟩
        case neg => exact ⟨h.insMode, rfl⟩

theorem insertKeeps_of_lt (hlt : h.nentry < 4 * h.hsize) : InsertKeeps h name inst := by
  intro h' e he hr
  have ⟨⟨h₁, pl⟩, hp, he⟩ := bind_eq_some_iff.mp he
  obtain ⟨m, rfl⟩ := place_hdr hp
  cases pl
  case none => cases he
  case some pl =>
    have ⟨⟨h₂, e'⟩, hl, he⟩ := bind_eq_some_iff.mp he
    have ⟨last, _, hl⟩ := bind_eq_some_iff.mp hl
    cases hl
    cases he
    have := hr.right.right
    simp only at this
    omega

inductive Inserts (h : Hdr) (name : CStr) : Option Nat → Hdr × Option Ref × Int → Prop
  | full (good : Good h') (stores : ∀ p, h'.Stores p ↔ h.Stores p) :
    Inserts h name none (h', none, pmErrGeneric)
  | new (good : Good h') (mem : e ∈ h'.list) (live : e.Live)
    (stores : ∀ p, h'.Stores p ↔ p = (e.inst, name.short) ∨ h.Stores p)
    (fresh : ∀ d ∈ h.list, d.Live → d.inst ≠ e.inst ∧ d.name.short ≠ name.short)
    (given : ∀ i, inst = some i → e.inst = i) : Inserts h name inst (h', some e.ref, 0)
  | old (good : Good h) (mem : e ∈ h.list) (live : e.Live)
    (same : e.inst = i ∨ e.name.short = name.short) : Inserts h name (some i) (h, some e.ref, sts)

theorem Good.setMode (hg : Good h) : Good { h with insMode := m } where
  toOrdered := ⟨hg.nodup, hg.fresh, hg.insts, hg.apart, hg.last⟩
  toHashed := ⟨hg.bits, hg.inst, hg.name, hg.instLive, hg.nameLive⟩

theorem linkHash_redoHash (ho : Ordered h) (hh : Hashed h (some e.ref)) (hm : e ∈ h.list)
    (hl : e.Live) (hk : h.Resizes → h.LastLive) :
    let h' := linkHash (if h.Resizes then redoHash h true else h) e
    Good h' ∧ e ∈ h'.list ∧ ∀ p, h'.Stores p ↔ h.Stores p := by
  suffices hs : let h' := if h.Resizes then redoHash h true else h
      Ordered h' ∧ Hashed h' (some e.ref) ∧ e ∈ h'.list ∧ ∀ p, h'.Stores p ↔ h.Stores p by
    have ⟨ho, hh, hm, hs⟩ := hs
    refine ⟨⟨⟨ho.nodup, ho.fresh, ho.insts, ho.apart, ho.last⟩, hh.linkHash ho hm⟩, hm, hs⟩
  split
  case isFalse => exact ⟨ho, hh, hm, fun _ => .rfl⟩
  case isTrue hr =>
    have hm' : e ∈ (redoHash h true).list := mem_filter.mpr ⟨hm, decide_eq_true hl⟩
    exact ⟨ho.redoHash (hk hr), hh.redoHash ho, hm', fun _ => stores_redoHash⟩

theorem newEntry_live : (newEntry h name inst).Live :=
  nofun

theorem Good.insertNew (hg : Good h) (hn : ∀ e ∈ h.list, e.Live → e.name.short ≠ name.short)
    (hi : ∀ i, inst = some i → ∀ e ∈ h.list, e.Live → e.inst ≠ i)
    (hk : InsertKeeps h name inst) :
    ∃ r, insertNew h name inst = some r ∧ Inserts h name inst r := by
  obtain ⟨h₁, pl, hpl, ⟨m, hm⟩, hnone, hp⟩ := place_cases hg.toOrdered hi
  have hg₁ : Good h₁ := hm ▸ hg.setMode
  have hl₁ : h₁.list = h.list := by rw [hm]
  cases pl
  case none =>
    have hr : Cache.insertNew h name inst = some (h₁, none, pmErrGeneric) := by
      simp [Cache.insertNew, linkNew, hpl]
    cases hnone rfl
    exact ⟨_, hr, .full hg₁ fun _ => by simp [Hdr.Stores, hl₁]⟩
  case some pl =>
    obtain ⟨i, r⟩ := pl
    obtain ⟨hi, l₁, l₂, hp⟩ := hp i r rfl
    rw [← hl₁] at hp hn
    let e := newEntry h₁ name i
    let h₂ := linked h₁ name i l₁ l₂
    have hl : linkNew h name inst = some (h₂, some e) := by
      simp [linkNew, hpl, linkEntry_eq hg₁.toOrdered hp, e, h₂]
    have hr : Cache.insertNew h name inst =
        some (linkHash (if h₂.Resizes then redoHash h₂ true else h₂) e, some e.ref, 0) := by
      simp [Cache.insertNew, hl]
    have hm : e ∈ h₂.list := mem_linked hp.list |>.mpr <| .inl rfl
    obtain ⟨hg, hm, hs⟩ :=
      linkHash_redoHash (hg₁.toOrdered.linked hp hn) (hg₁.toHashed.linked hp.list)
      hm newEntry_live (hk _ _ hl)
    refine ⟨_, hr, .new hg hm newEntry_live ?_ ?_ hi⟩
    · intro p
      rw [hs, stores_linked hp.list]
      simp [Hdr.Stores, hl₁, e, newEntry]
    · intro d hd hv
      rw [← hl₁] at hd
      exact ⟨hp.inst_ne hd hv, hn d hd hv⟩

end Cache
