import Mathlib.Data.List.Nodup
import PcpModel.Cache.Load

namespace Cache

open List

def Entry.Live (e : Entry) : Prop :=
  e.state ≠ .empty

instance {e : Entry} : Decidable e.Live :=
  inferInstanceAs (Decidable (_ ≠ _))

-- Neither the identifiers nor the short names of two live entries may be the same.
def Entry.Apart (d e : Entry) : Prop :=
  d.Live → e.Live → d.inst < e.inst ∧ d.name.short ≠ e.name.short

structure Ordered (h : Hdr) : Prop where
  nodup : (h.list.map (·.ref)).Nodup
  fresh : ∀ e ∈ h.list, e.ref < h.brk
  insts : h.list.Pairwise (·.inst ≤ ·.inst)
  apart : h.list.Pairwise Entry.Apart
  last : h.last = h.list.getLast?.map (·.ref)

-- The hash chains hold all live entries, except for one that is not yet linked.
structure Hashed (h : Hdr) (except : Option Ref) : Prop where
  bits : h.hbits < h.hsize
  inst : ∀ e ∈ h.list, e.Live → some e.ref ≠ except → e.ref ∈ h.ctlInst (h.instIdx e.inst)
  name : ∀ e ∈ h.list, e.Live → some e.ref ≠ except → e.ref ∈ h.ctlName (h.nameIdx e.name)
  instLive : ∀ i < h.hsize, ∀ r ∈ h.ctlInst i, ∃ e ∈ h.list, e.ref = r
  nameLive : ∀ i < h.hsize, ∀ r ∈ h.ctlName i, ∃ e ∈ h.list, e.ref = r

structure Good (h : Hdr) : Prop extends Ordered h, Hashed h none

def Hdr.Stores (h : Hdr) (p : Nat × List UInt8) : Prop :=
  ∃ e ∈ h.list, e.Live ∧ (e.inst, e.name.short) = p

variable {h : Hdr} {name : CStr} {e : Entry}

theorem get_eq_some (hn : (h.list.map (·.ref)).Nodup) :
    h.get r = some e ↔ e ∈ h.list ∧ e.ref = r := by
  constructor
  · intro hf
    exact ⟨mem_of_find?_eq_some hf, by simpa using find?_some hf⟩
  · intro ⟨hm, hr⟩
    have ⟨d, hd⟩ : ∃ d, h.get r = some d := by
      refine Option.isSome_iff_exists.mp <| find?_isSome.mpr ⟨e, hm, by simpa using hr⟩
    have hd' : d.ref = r := by simpa using find?_some hd
    rw [hd, inj_on_of_nodup_map hn (mem_of_find?_eq_some hd) hm (hd'.trans hr.symm)]

theorem mem_entries (hn : (h.list.map (·.ref)).Nodup) :
    e ∈ h.entries rs ↔ e ∈ h.list ∧ e.ref ∈ rs := by
  simp only [Hdr.entries, mem_filterMap, get_eq_some hn]
  grind

theorem mem_list_of_find (hf : (h.entries rs).find? p = some e) : e ∈ h.list := by
  obtain ⟨r, -, hr⟩ := mem_filterMap.mp <| mem_of_find?_eq_some hf
  exact mem_of_find?_eq_some hr

theorem length_short : name.short.length = getHashlen name := by
  simp [CStr.short, getHashlen, (takeWhile_sublist _).length_le]

theorem nameEq_ne_zero : nameEq e name ≠ 0 ↔ e.name.short = name.short := by
  have hl (h : e.name.short = name.short) : getHashlen e.name = getHashlen name := by
    rw [← length_short, h, length_short]
  unfold nameEq CStr.short at *
  grind

namespace Good

theorem findInst_none (hg : Good h) (hf : h.findInst inst = none) :
    ∀ e ∈ h.list, e.Live → e.inst ≠ inst := by
  intro e hm hl hi
  have hr := hg.inst e hm hl nofun
  have hn := find?_eq_none.mp hf e <| mem_entries hg.nodup |>.mpr ⟨hm, hi ▸ hr⟩
  simp_all [Entry.Live]

theorem nameIdx_eq (hs : name.short = name'.short) :
    h.nameIdx name = h.nameIdx name' := by
  simp [Hdr.nameIdx, hashStr, hs]

theorem findName_none (hg : Good h) (hf : h.findName name = none) :
    ∀ e ∈ h.list, e.Live → e.name.short ≠ name.short := by
  intro e hm hl hs
  have hr := nameIdx_eq hs ▸ hg.name e hm hl nofun
  have hn := find?_eq_none.mp hf e <| mem_entries hg.nodup |>.mpr ⟨hm, hr⟩
  simp_all [Entry.Live, nameEq_ne_zero]

end Good

theorem findName_some (hf : h.findName name = some e) :
    e ∈ h.list ∧ e.Live ∧ e.name.short = name.short := by
  have hp := find?_some hf
  simp only [decide_eq_true_eq, nameEq_ne_zero] at hp
  exact ⟨mem_list_of_find hf, hp⟩

theorem findInst_some (hf : h.findInst inst = some e) :
    e ∈ h.list ∧ e.Live ∧ e.inst = inst := by
  have hp := find?_some hf
  simp only [decide_eq_true_eq] at hp
  exact ⟨mem_list_of_find hf, hp.right, hp.left⟩

section Map

structure Keeps (h : Hdr) (f : Entry → Entry) : Prop where
  ref : ∀ e, (f e).ref = e.ref
  inst : ∀ e, (f e).inst = e.inst
  name : ∀ e, (f e).name = e.name
  live : ∀ e ∈ h.list, (f e).Live → e.Live

variable {f : Entry → Entry}

theorem Ordered.map (hk : Keeps h f) (ho : Ordered h) :
    Ordered { h with list := h.list.map f } where
  nodup := by simpa [Function.comp_def, hk.ref] using ho.nodup
  fresh := by simpa [hk.ref] using ho.fresh
  insts := by simpa [pairwise_map, hk.inst] using ho.insts
  apart := by
    refine pairwise_map.mpr <| ho.apart.imp_of_mem fun {d e} hd he ha hd' he' => ?_
    rw [hk.inst, hk.inst, hk.name, hk.name]
    exact ha (hk.live d hd hd') (hk.live e he he')
  last := by simp [ho.last, Function.comp_def, hk.ref]

theorem Hashed.map (hk : Keeps h f) (hh : Hashed h x) :
    Hashed { h with list := h.list.map f } x where
  bits := hh.bits
  inst := by
    simp only [forall_mem_map, hk.ref, hk.inst]
    exact fun e hm hl => hh.inst e hm (hk.live e hm hl)
  name := by
    simp only [forall_mem_map, hk.ref, hk.name]
    exact fun e hm hl => hh.name e hm (hk.live e hm hl)
  instLive := by simpa [hk.ref] using hh.instLive
  nameLive := by simpa [hk.ref] using hh.nameLive

theorem Good.map (hk : Keeps h f) (hg : Good h) : Good { h with list := h.list.map f } :=
  ⟨hg.toOrdered.map hk, hg.toHashed.map hk⟩

theorem stores_map (hk : Keeps h f) :
    { h with list := h.list.map f }.Stores p ↔
      ∃ e ∈ h.list, (f e).Live ∧ (e.inst, e.name.short) = p := by
  simp [Hdr.Stores, hk.inst, hk.name]

theorem keeps_mark {p : Entry → Bool} (hl : ∀ e, p e → state ≠ .empty → e.Live) :
    Keeps h fun e => if p e then { e with state } else e where
  ref e := by split <;> rfl
  inst e := by split <;> rfl
  name e := by split <;> rfl
  live e _ := by
    split
    case isTrue hp => exact hl e hp
    case isFalse => exact id

end Map

-- The entry to which `last` refers is not freed by `redo_hash`.
def Hdr.LastLive (h : Hdr) : Prop :=
  ∀ e, h.last.bind h.get = some e → e.Live

theorem Ordered.rehash (ho : Ordered h) : Ordered (rehash h) :=
  ⟨ho.nodup, ho.fresh, ho.insts, ho.apart, ho.last⟩

theorem Ordered.dropEmpty (ho : Ordered h) (hl : h.LastLive) : Ordered (dropEmpty h) where
  nodup := ho.nodup.sublist <| filter_sublist.map _
  fresh := fun e hm => ho.fresh e (mem_of_mem_filter hm)
  insts := ho.insts.sublist filter_sublist
  apart := ho.apart.sublist filter_sublist
  last := by
    have hn := ho.last
    cases eq_nil_or_concat h.list
    case inl he => simpa [Cache.dropEmpty, he] using hn
    case inr he =>
      have ⟨es, e, he⟩ := he
      have hn : h.last = some e.ref := by simpa [he] using hn
      have hg : h.get e.ref = some e := get_eq_some ho.nodup |>.mpr ⟨by simp [he], rfl⟩
      have hl : e.state ≠ .empty := hl e (by simp [hn, hg])
      simp [Cache.dropEmpty, he, hn, hl]

theorem mem_foldl_push {f : Entry → Nat} {es : List Entry} :
    r ∈ es.foldl (fun ctl e => push ctl (f e) e.ref) ctl i ↔
      r ∈ ctl i ∨ ∃ e ∈ es, f e = i ∧ e.ref = r := by
  induction es generalizing ctl
  case nil => simp
  case cons e es hi =>
    rw [foldl_cons, hi, push]
    by_cases he : f e = i
    case pos => subst he; simp; tauto
    case neg => simp [he, Function.update_of_ne (Ne.symm he)]

theorem Hashed.rehash (ho : Ordered h) (hh : Hashed h x) : Hashed (rehash h) x := by
  have ⟨hb, hi, hn, hil, hnl⟩ := hh
  have hm {e i} {ctl : Nat → List Ref} (he : e ∈ h.list) (hi : e.ref ∈ ctl i) (hl : i ≤ h.hbits) :
      e ∈ h.entries ((range h.hsize).flatMap ctl) :=
    mem_entries ho.nodup |>.mpr ⟨he, by simpa using ⟨i, by omega, hi⟩⟩
  have hl {e} {ctl : Nat → List Ref} (he : e ∈ h.entries ((range h.hsize).flatMap ctl)) :
      e ∈ h.list :=
    mem_entries ho.nodup |>.mp he |>.left
  constructor
  case bits => simp only [Cache.rehash]; omega
  case inst =>
    intro e he hv hx
    refine mem_foldl_push.mpr <| .inr ⟨e, hm he (hi e he hv hx) Nat.and_le_right, rfl, rfl⟩
  case name =>
    intro e he hv hx
    refine mem_foldl_push.mpr <| .inr ⟨e, hm he (hn e he hv hx) Nat.and_le_right, rfl, rfl⟩
  case instLive | nameLive =>
    intro i _ r hr
    obtain hr | ⟨e, he, _, hr⟩ := mem_foldl_push.mp hr
    · simp at hr
    · exact ⟨e, hl he, hr⟩

theorem mem_reorder (ho : Ordered h) :
    r ∈ reorder h rs ↔ ∃ e ∈ h.list, e.Live ∧ e.ref = r ∧ r ∈ rs := by
  have hs {e : Entry} : e.Live ↔ e.state = .active ∨ e.state = .inactive := by
    unfold Entry.Live
    cases e.state <;> simp
  simp only [reorder, mem_append, mem_map, mem_filter, mem_entries ho.nodup]
  grind

theorem Hashed.dropEmpty (ho : Ordered h) (hh : Hashed h x) : Hashed (dropEmpty h) x := by
  have ⟨hb, hi, hn, _, _⟩ := hh
  have hf {e} : e ∈ (Cache.dropEmpty h).list ↔ e ∈ h.list ∧ e.Live := by
    simp [Cache.dropEmpty, Entry.Live]
  have hlt {i} : i &&& h.hbits < h.hsize := Nat.lt_of_le_of_lt Nat.and_le_right hb
  constructor
  case bits => exact hb
  case inst =>
    intro e he hl hx
    have he := (hf.mp he).left
    simp only [Cache.dropEmpty, Hdr.instIdx, hlt]
    exact mem_reorder ho |>.mpr ⟨e, he, hl, rfl, hi e he hl hx⟩
  case name =>
    intro e he hl hx
    have he := (hf.mp he).left
    simp only [Cache.dropEmpty, Hdr.nameIdx, hlt]
    exact mem_reorder ho |>.mpr ⟨e, he, hl, rfl, hn e he hl hx⟩
  case instLive | nameLive =>
    intro i (hi : i < h.hsize) r hr
    simp only [Cache.dropEmpty, hi] at hr
    have ⟨e, he, hl, hr, _⟩ := mem_reorder ho |>.mp hr
    exact ⟨e, hf.mpr ⟨he, hl⟩, hr⟩

theorem stores_dropEmpty : (dropEmpty h).Stores p ↔ h.Stores p := by
  simp only [Hdr.Stores, dropEmpty, mem_filter, decide_eq_true_eq, and_assoc]
  exact exists_congr fun e => and_congr_right fun _ => and_iff_right_of_imp And.left

theorem Ordered.redoHash (ho : Ordered h) (hl : h.LastLive) : Ordered (redoHash h resize) := by
  cases resize
  case false => exact ho.dropEmpty hl
  case true => exact ho.rehash.dropEmpty hl

theorem Hashed.redoHash (ho : Ordered h) (hh : Hashed h x) : Hashed (redoHash h resize) x := by
  cases resize
  case false => exact hh.dropEmpty ho
  case true => exact hh.rehash ho |>.dropEmpty ho.rehash

theorem stores_redoHash : (redoHash h resize).Stores p ↔ h.Stores p := by
  cases resize <;> exact stores_dropEmpty

end Cache
