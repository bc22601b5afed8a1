import Mathlib.Data.Nat.Find
import PcpModel.Cache.Execution

namespace Cache

open List Pcp

-- There are no hash chains for keys, so that the cache is walked.
def pmdaCacheLookupKey (h : Hdr) (name : CStr) (key : List UInt8) : Option Entry :=
  h.list.find? fun e => e.state ≠ .empty ∧ e.key = mykey name key

-- The state, the identifier and the private pointer of the entry are returned.
def pmdaCacheLookupName (h : Hdr) (name : CStr) : Except Int Entry :=
  match h.findName name with
  | none => .error pmErrInst
  | some e => .ok e

-- The name, or the name up to the first space.
def Entry.Named (e : Entry) (name : CStr) : Prop :=
  e.name = name ∨ e.name.short = name.bytes

def Hdr.KeysDistinct (h : Hdr) : Prop :=
  ∀ d ∈ h.list, ∀ e ∈ h.list, d.Live → e.Live → d.key = e.key → d = e

def Hdr.Stable (h : Hdr) : Prop :=
  ∀ e ∈ h.list, e.Live → ∀ flags key priv h' sts, mykey e.name key = e.key →
    pmdaCacheStoreKey h flags e.name key priv = some (h', sts) → 0 ≤ sts → sts = e.inst

def Hdr.InUse (h : Hdr) (inst : Nat) : Prop :=
  ∃ e ∈ h.list, e.Live ∧ e.inst = inst

variable {h : Hdr} {name : CStr} {e : Entry}

theorem pmdaCacheLookupKey_eq_some (hd : h.KeysDistinct) :
    pmdaCacheLookupKey h name key = some e ↔ e ∈ h.list ∧ e.Live ∧ e.key = mykey name key := by
  constructor
  · intro hf
    exact ⟨mem_of_find?_eq_some hf, by simpa [Entry.Live] using find?_some hf⟩
  · rintro ⟨hm, hl, hk⟩
    have hs : (pmdaCacheLookupKey h name key).isSome :=
      find?_isSome.mpr ⟨e, hm, by simpa [Entry.Live] using ⟨hl, hk⟩⟩
    obtain ⟨d, hf⟩ := Option.isSome_iff_exists.mp hs
    obtain ⟨hdl, hdk⟩ : d.Live ∧ d.key = mykey name key := by
      simpa [Entry.Live] using find?_some hf
    rw [hf, hd d (mem_of_find?_eq_some hf) e hm hdl hl (hdk.trans hk.symm)]

theorem Good.findName_eq_some (hg : Good h) :
    h.findName name = some e ↔ e ∈ h.list ∧ e.Live ∧ e.name.short = name.short := by
  refine ⟨findName_some, fun ⟨hm, hl, hs⟩ => ?_⟩
  cases hf : h.findName name
  case none => exact absurd hs (hg.findName_none hf e hm hl)
  case some d =>
    have ⟨hd, hdl, hds⟩ := findName_some hf
    rw [hg.unique (fun ha => ha.right) hd hm hdl hl (hds.trans hs.symm)]

theorem Entry.Named.short (hn : e.Named name) : e.name.short = name.short := by
  rcases hn with rfl | hn
  · rfl
  · have hp := takeWhile_prefix (l := e.name.bytes) (· ≠ 32)
    have hs : name.bytes = e.name.bytes.takeWhile (· ≠ 32) := by
      rw [← hn, CStr.short, getHashlen, ← prefix_iff_eq_take.mp hp]
    rw [hn, CStr.short, getHashlen, hs, takeWhile_takeWhile]
    simp

-- The entry is found under each name that agrees with its name up to the first space.
theorem pmdaCacheLookupName_named_iff (hg : Good h) :
    (∀ e, pmdaCacheLookupName h name = .ok e ↔ e ∈ h.list ∧ e.Live ∧ e.Named name) ↔
      name.short = name.bytes ∨
        ∀ e ∈ h.list, e.Live → e.name.short = name.short → e.name = name := by
  have hf : ∀ e, pmdaCacheLookupName h name = .ok e ↔
      e ∈ h.list ∧ e.Live ∧ e.name.short = name.short := by
    intro e
    rw [← hg.findName_eq_some, pmdaCacheLookupName]
    cases h.findName name <;> simp
  have hn : ∀ e : Entry, e.Named name ↔ e.name.short = name.short ∧
      (name.short = name.bytes ∨ e.name = name) := by
    intro e
    refine ⟨fun hn => ⟨hn.short, ?_⟩, ?_⟩
    · exact hn.symm.imp_left fun hs => hn.short.symm.trans hs
    · rintro ⟨hs, hb | he⟩
      · exact .inr (hs.trans hb)
      · exact .inl he
  simp only [hf, hn]
  grind

theorem pmdaCacheLookupName_named_short :
    let a : CStr := ⟨[97], by decide⟩
    let ab : CStr := ⟨[97, 32, 98], by decide⟩
    ∃ h e, pmdaCacheStore .new .add ab 0 = some (h, 0) ∧ pmdaCacheLookupName h a = .ok e ∧
      e.Named a := by
  intro a ab
  have hk : StoreKeeps .new .add ab none := fun _ _ _ => insertKeeps_of_lt (by decide)
  obtain ⟨h, sts, hs, hg, -⟩ := Tracked.new_sound.good.store [] 0 hk
  cases hs
  exact ⟨_, _, rfl, ((pmdaCacheLookupName_named_iff hg).mpr (.inl rfl) _).mpr
    ⟨.head _, by decide, .inr rfl⟩, .inr rfl⟩

-- After `a` has been stored, it is also found under the name `a b`.
theorem pmdaCacheLookupName_conflict :
    let a : CStr := ⟨[97], by decide⟩
    let ab : CStr := ⟨[97, 32, 98], by decide⟩
    ∃ h e, pmdaCacheStore .new .add a 0 = some (h, 0) ∧ pmdaCacheLookupName h ab = .ok e ∧
      ¬e.Named ab :=
  ⟨_, _, rfl, rfl, by unfold Entry.Named; decide⟩

section Guess

def tried (key : List UInt8) : Nat → UInt32
  | 0 => 0
  | n + 1 => hash key (tried key n)

def tryInst (key : List UInt8) (n : Nat) : Nat :=
  (tried key (n + 1) &&& 0x7fffffff).toNat

theorem guess_succ (key : List UInt8) :
    guess h name key (tried key m) (n + 1) =
      match h.findInst (tryInst key m) with
      | none => .ok (tryInst key m)
      | some e =>
        if e.name = name then
          if e.key = key then .ok (tryInst key m) else .error pmErrInst
        else if e.key = key then .error pmErrInst
        else guess h name key (tried key (m + 1)) n :=
  rfl

theorem Good.findInst_eq_none (hg : Good h) : h.findInst inst = none ↔ ¬h.InUse inst := by
  refine ⟨fun hf ⟨e, hm, hl, hi⟩ => hg.findInst_none hf e hm hl hi, fun hu => ?_⟩
  cases hf : h.findInst inst
  case none => rfl
  case some e => exact absurd ⟨e, findInst_some hf⟩ hu

-- The identifier belongs to an entry with another key.
def Hdr.Passes (h : Hdr) (key : List UInt8) (inst : Nat) : Prop :=
  ∃ e ∈ h.list, e.Live ∧ e.inst = inst ∧ e.key ≠ key

variable (hg : Good h) (hf : h.findName name = none)

include hg hf

theorem guess_ok (hs : guess h name key (tried key m) n = .ok inst) :
    ∃ k, m ≤ k ∧ k < m + n ∧ inst = tryInst key k ∧ ¬h.InUse inst ∧
      ∀ j, m ≤ j → j < k → h.Passes key (tryInst key j) := by
  induction n generalizing m
  case zero => contradiction
  case succ n hi =>
    rw [guess_succ] at hs
    split at hs
    case h_1 hu =>
      cases hs
      exact ⟨m, le_rfl, by omega, rfl, hg.findInst_eq_none.mp hu, by omega⟩
    case h_2 e he =>
      have ⟨hm, hl, hi'⟩ := findInst_some he
      have hne : e.name ≠ name := fun hn => hg.findName_none hf e hm hl (hn ▸ rfl)
      rw [if_neg hne] at hs
      split at hs
      case isTrue => contradiction
      case isFalse hk =>
        have ⟨k, h₁, h₂, h₃, h₄, h₅⟩ := hi hs
        refine ⟨k, by omega, by omega, h₃, h₄, fun j hj hjk => ?_⟩
        obtain rfl | hj := hj.eq_or_lt
        · exact ⟨e, hm, hl, hi', hk⟩
        · exact h₅ j hj hjk

theorem guess_of_unused (hu : ¬h.InUse (tryInst key k)) (hmk : m ≤ k) (hk : k < m + n)
    (hp : ∀ j, m ≤ j → j < k → h.Passes key (tryInst key j)) :
    guess h name key (tried key m) n = .ok (tryInst key k) := by
  induction n generalizing m
  case zero => omega
  case succ n hi =>
    rw [guess_succ]
    obtain rfl | hlt := hmk.eq_or_lt
    · rw [hg.findInst_eq_none.mpr hu]
    · have ⟨d, hd, hdl, hdi, hdk⟩ := hp m le_rfl hlt
      split
      case h_1 hn => exact absurd ⟨d, hd, hdl, hdi⟩ (hg.findInst_eq_none.mp hn)
      case h_2 e he =>
        have ⟨hm, hl, hi'⟩ := findInst_some he
        obtain rfl := hg.inst_unique hm hd hl hdl (hi'.trans hdi.symm)
        have hne : e.name ≠ name := fun hn => hg.findName_none hf e hm hl (hn ▸ rfl)
        rw [if_neg hne, if_neg hdk]
        exact hi hlt (by omega) fun j hj => hp j (by omega)

end Guess

def Shrinks (h h' : Hdr) : Prop :=
  ∀ e ∈ h'.list, e.Live → ∃ d ∈ h.list, d.Live ∧ d.ref = e.ref ∧ d.inst = e.inst ∧ d.key = e.key

structure Adds (h h' : Hdr) (inst : Nat) (key : List UInt8) (e : Entry) : Prop where
  instEq : e.inst = inst
  keyEq : e.key = key
  unused : ¬h.InUse inst
  live : ∀ d, d ∈ h'.list ∧ d.Live ↔ d = e ∨ d ∈ h.list ∧ d.Live

structure Keyed (h : Hdr) : Prop where
  good : Good h
  tries : ∀ e ∈ h.list, e.Live → ∃ n < maxHashTry, tryInst e.key n = e.inst

theorem Shrinks.refl : Shrinks h h :=
  fun e hm hl => ⟨e, hm, hl, rfl, rfl, rfl⟩

theorem Shrinks.map (hf : ∀ e ∈ h.list, (f e).Live →
    e.Live ∧ e.ref = (f e).ref ∧ e.inst = (f e).inst ∧ e.key = (f e).key) :
    Shrinks h { h with list := h.list.map f } := by
  intro e hm hl
  obtain ⟨d, hd, rfl⟩ := mem_map.mp hm
  exact ⟨d, hd, hf d hd hl⟩

theorem Shrinks.keyed (hs : Shrinks h h') (hk : Keyed h) (hg : Good h') : Keyed h' where
  good := hg
  tries e hm hl := by
    obtain ⟨d, hd, hdl, _, hi, hk'⟩ := hs e hm hl
    exact hk' ▸ hi ▸ hk.tries d hd hdl

theorem Shrinks.distinct (hs : Shrinks h h') (hd : h.KeysDistinct) (hg : Good h') :
    h'.KeysDistinct := by
  intro a ha b hb hal hbl hk
  obtain ⟨a', ha', hal', hra, _, hka⟩ := hs a ha hal
  obtain ⟨b', hb', hbl', hrb, _, hkb⟩ := hs b hb hbl
  obtain rfl := hd a' ha' b' hb' hal' hbl' (by rw [hka, hkb, hk])
  exact inj_on_of_nodup_map hg.nodup ha hb (hra.symm.trans hrb)

theorem Adds.keyed (ha : Adds h h' (tryInst key n) key e) (hn : n < maxHashTry) (hk : Keyed h)
    (hg : Good h') : Keyed h' where
  good := hg
  tries d hm hl := by
    obtain rfl | ⟨hd, hdl⟩ := ha.live d |>.mp ⟨hm, hl⟩
    · exact ⟨n, hn, by rw [ha.keyEq, ha.instEq]⟩
    · exact hk.tries d hd hdl

theorem Adds.distinct_iff (ha : Adds h h' inst key e) (hd : h.KeysDistinct) :
    h'.KeysDistinct ↔ ∀ d ∈ h.list, d.Live → d.key ≠ key := by
  have he := ha.live e |>.mpr (.inl rfl)
  constructor
  · intro hd' d hm hl hk
    have hm' := ha.live d |>.mpr (.inr ⟨hm, hl⟩)
    obtain rfl := hd' d hm'.left e he.left hl he.right (hk.trans ha.keyEq.symm)
    exact ha.unused ⟨d, hm, hl, ha.instEq⟩
  · intro hk a hma b hmb hal hbl hab
    obtain rfl | ⟨hma, _⟩ := ha.live a |>.mp ⟨hma, hal⟩ <;>
      obtain rfl | ⟨hmb, _⟩ := ha.live b |>.mp ⟨hmb, hbl⟩
    · rfl
    · exact absurd (hab.symm.trans ha.keyEq) (hk b hmb hbl)
    · exact absurd (hab.trans ha.keyEq) (hk a hma hal)
    · exact hd a hma b hmb hal hbl hab

theorem insertNew_eq (hg : Good h) (hu : ¬h.InUse inst) :
    ∃ l₁ l₂, h.list = l₁ ++ l₂ ∧ insertNew h name (some inst) =
      let h' := linked h name inst l₁ l₂
      some (linkHash (if h'.Resizes then redoHash h' true else h') (newEntry h name inst),
        some h.brk, 0) := by
  have hn : ∀ e ∈ h.list, e.Live → e.inst ≠ inst := fun e hm hl hi => hu ⟨e, hm, hl, hi⟩
  obtain ⟨l₁, l₂, s, hp, hl⟩ := linkNew_some hg.toOrdered hn name
  refine ⟨l₁, l₂, hp.list, ?_⟩
  simp [insertNew, hl, newEntry]

theorem mem_linkHash :
    d ∈ (linkHash (if h.Resizes then redoHash h true else h) e).list ↔
      d ∈ h.list ∧ (h.Resizes → d.Live) := by
  split
  case isFalse hr => exact (and_iff_left (absurd · hr)).symm
  case isTrue hr =>
    simp [linkHash, redoHash, dropEmpty, rehash, Entry.Live, hr]

theorem live_edit {h₁ : Hdr} (hg : Good h) (hl : h.list = l₁ ++ l₂)
    (hh : ∀ d, d ∈ h₁.list ∧ d.Live ↔ d ∈ (linked h name inst l₁ l₂).list ∧ d.Live)
    (hm : ∀ d ∈ h₁.list, d ∈ (linked h name inst l₁ l₂).list)
    (hf : (f (newEntry h name inst)).Live) :
    d ∈ (h₁.edit h.brk f).list ∧ d.Live ↔
      d = f (newEntry h name inst) ∨ d ∈ h.list ∧ d.Live := by
  have hne {d} (hd : d ∈ h.list) : d.ref ≠ h.brk := Nat.ne_of_lt (hg.fresh d hd)
  simp only [Hdr.edit, mem_map]
  constructor
  · rintro ⟨⟨c, hc, rfl⟩, hd⟩
    obtain rfl | hc' := mem_linked hl |>.mp (hm c hc)
    · exact .inl (if_pos rfl)
    · rw [if_neg (hne hc')] at hd ⊢
      exact .inr ⟨hc', hd⟩
  · rintro (rfl | ⟨hd, hdl⟩)
    · have hn := hh _ |>.mpr ⟨mem_linked hl |>.mpr (.inl rfl), newEntry_live⟩
      exact ⟨⟨_, hn.left, if_pos rfl⟩, hf⟩
    · have hn := hh d |>.mpr ⟨mem_linked hl |>.mpr (.inr hd), hdl⟩
      exact ⟨⟨d, hn.left, if_neg (hne hd)⟩, hdl⟩

theorem store_new (hg : Good h) (hf : h.findName name = none) (hu : ¬h.InUse inst)
    (hs : store h .add name key priv (some inst) = some (h', sts)) : ∃ e, Adds h h' inst key e := by
  have hc : conflict h name inst = none := by
    simp [conflict, hg.findInst_eq_none.mpr hu, hf]
  obtain ⟨l₁, l₂, hl, hi⟩ := @insertNew_eq h name inst hg hu
  simp only [store, hf, ne_eq, not_true_eq_false, insertCache, hc, hi] at hs
  replace hs : setEntry _ .add key priv h.brk = some (h', sts) := hs
  obtain ⟨e, -, hs⟩ := Option.bind_eq_some_iff.mp hs
  cases hs
  refine ⟨{ newEntry h name inst with key, state := .active, priv, stamp := 0 }, rfl, rfl, hu, ?_⟩
  intro d
  refine live_edit hg hl (fun d => ?_) (fun d hd => (mem_linkHash.mp hd).left)
    (by simp [Entry.Live])
  rw [mem_linkHash]
  exact ⟨fun h => ⟨h.left.left, h.right⟩, fun h => ⟨⟨h.left, fun _ => h.right⟩, h.right⟩⟩

theorem setEntry_shrinks (hn : (h.list.map (·.ref)).Nodup) (hm : e ∈ h.list) (hl : e.Live)
    (hk : flags = .add → key = e.key)
    (hs : setEntry h flags key priv e.ref = some (h', sts)) : Shrinks h h' := by
  have he {d} (hd : d ∈ h.list) (hr : d.ref = e.ref) : d = e := inj_on_of_nodup_map hn hd hm hr
  obtain ⟨c, -, hs⟩ := Option.bind_eq_some_iff.mp hs
  cases flags <;> cases hs
  case other => exact .refl
  all_goals
    refine .map fun d hd => ?_
    split
    case isFalse => exact fun hdl => ⟨hdl, rfl, rfl, rfl⟩
    case isTrue hr =>
      simp_all

theorem store_found (hg : Good h) (hf : h.findName name = some e) (hk : flags = .add → key = e.key)
    (hs : store h flags name key priv inst = some (h', sts)) :
    Shrinks h h' ∧ (0 ≤ sts → sts = e.inst) := by
  have ⟨hm, hl, _⟩ := findName_some hf
  simp only [store, hf] at hs
  split at hs
  case isTrue => cases hs; exact ⟨.refl, fun h₀ => absurd h₀ (by decide)⟩
  case isFalse =>
    refine ⟨setEntry_shrinks hg.nodup hm hl hk hs, fun h₀ => ?_⟩
    have ⟨_, _, hs', _, _, hsts⟩ := hg.setEntry hm hl flags key priv
    cases hs.symm.trans hs'
    split at hsts
    · simp [hsts, einval] at h₀
    · exact hsts

theorem store_shrinks (hg : Good h) (ha : flags ≠ .add)
    (hs : store h flags name key priv inst = some (h', sts)) : Shrinks h h' := by
  cases hf : h.findName name
  case some e => exact (store_found hg hf (absurd · ha) hs).left
  case none =>
    simp only [store, hf, if_pos ha] at hs
    cases hs
    exact .refl

-- The identifiers that are tried for the key before that of a live entry with this key are in use.
def Hdr.Reaches (h : Hdr) (key : List UInt8) : Prop :=
  ∀ e ∈ h.list, e.Live → e.key = key →
    ∃ n, tryInst key n = e.inst ∧ ∀ j < n, h.InUse (tryInst key j)

theorem Hdr.Reaches.of_guess (hr : h.Reaches key) (hg : Good h) (hf : h.findName name = none)
    (hs : guess h name key 0 n = .ok inst) : ∀ e ∈ h.list, e.Live → e.key ≠ key := by
  intro e hm hl hk
  obtain ⟨k, -, -, rfl, hu, hp⟩ := guess_ok (m := 0) hg hf hs
  obtain ⟨n, hn, hj⟩ := hr e hm hl hk
  obtain hlt | rfl | hgt := Nat.lt_trichotomy n k
  · obtain ⟨d, hd, hdl, hdi, hdk⟩ := hp n (by omega) hlt
    obtain rfl := hg.inst_unique hm hd hl hdl (hn.symm.trans hdi.symm)
    exact hdk hk
  · exact hu ⟨e, hm, hl, hn.symm⟩
  · exact hu (hj k hgt)

-- If the identifier of the entry is not reached, then the guess ends before it.
theorem Keyed.reaches (hk : Keyed h) (hd : h.KeysDistinct) (hf : h.findName name = none)
    (hs : ∀ inst, guess h name key 0 maxHashTry = .ok inst → ∀ e ∈ h.list, e.Live → e.key ≠ key) :
    h.Reaches key := by
  intro e hm hl he
  have ht := hk.tries e hm hl
  have hx : ∃ n, tryInst key n = e.inst := ht.imp fun n hn => he ▸ hn.right
  classical
  refine ⟨Nat.find hx, Nat.find_spec hx, ?_⟩
  by_contra hn
  have hu : ∃ j, j < Nat.find hx ∧ ¬h.InUse (tryInst key j) := by simpa using hn
  have hlt : Nat.find hx < maxHashTry := by
    obtain ⟨n, hn, hi⟩ := ht
    exact (Nat.find_min' hx (he ▸ hi)).trans_lt hn
  have ⟨hj, hju⟩ := Nat.find_spec hu
  refine hs _ (guess_of_unused (m := 0) hk.good hf hju (by omega) (by omega) ?_) e hm hl he
  intro i _ hi
  have hiu : h.InUse (tryInst key i) := by
    by_contra hiu
    exact Nat.find_min hu hi ⟨hi.trans hj, hiu⟩
  obtain ⟨d, hdm, hdl, hdi⟩ := hiu
  refine ⟨d, hdm, hdl, hdi, fun hdk => ?_⟩
  obtain rfl := hd d hdm e hm hdl hl (hdk.trans he.symm)
  exact Nat.find_min hx (hi.trans hj) hdi.symm

theorem storeKey_cases (hg : Good h)
    (hs : pmdaCacheStoreKey h flags name key priv = some (h', sts)) :
    (Shrinks h h' ∧ (flags = .add → h.findName name = none →
      ∀ inst, guess h name (mykey name key) 0 maxHashTry ≠ .ok inst)) ∨
    (flags = .add ∧ h.findName name = none ∧ ∃ n < maxHashTry, ∃ e,
      guess h name (mykey name key) 0 maxHashTry = .ok (tryInst (mykey name key) n) ∧
      Adds h h' (tryInst (mykey name key) n) (mykey name key) e) := by
  unfold pmdaCacheStoreKey at hs
  split at hs
  case isTrue ha => exact .inl ⟨store_shrinks hg ha hs, (absurd · ha)⟩
  case isFalse ha =>
    obtain rfl := not_not.mp ha
    cases hf : h.findName name
    case some e =>
      simp only [hf] at hs
      split at hs
      case isTrue hk => exact .inl ⟨(store_found hg hf (fun _ => hk.symm) hs).left, nofun⟩
      case isFalse hk => cases hs; exact .inl ⟨.refl, nofun⟩
    case none =>
      simp only [hf] at hs
      cases hq : guess h name (mykey name key) 0 maxHashTry
      case error => rw [hq] at hs; cases hs; exact .inl ⟨.refl, nofun⟩
      case ok inst =>
        rw [hq] at hs
        obtain ⟨n, -, hn, rfl, hu, -⟩ := guess_ok (m := 0) hg hf hq
        have ⟨e, he⟩ := store_new (hg.setMode (m := 1)) hf hu hs
        exact .inr ⟨rfl, rfl, n, by omega, e, rfl, he.instEq, he.keyEq, hu, he.live⟩

theorem Good.stable (hg : Good h) : h.Stable := by
  intro e hm hl flags key priv h' sts hk hs h₀
  have ⟨d, hf⟩ : ∃ d, h.findName e.name = some d := by
    cases hf : h.findName e.name
    case none => exact absurd rfl (hg.findName_none hf e hm hl)
    case some d => exact ⟨d, rfl⟩
  have ⟨hd, hdl, hn⟩ := findName_some hf
  obtain rfl : d = e := hg.unique (fun ha => ha.right) hd hm hdl hl hn
  unfold Cache.pmdaCacheStoreKey at hs
  split at hs
  case isTrue ha => exact (store_found hg hf (absurd · ha) hs).right h₀
  case isFalse =>
    simp only [hf, hk] at hs
    exact (store_found hg hf (fun _ => rfl) hs).right h₀

inductive KeyOp
  | storeKey (flags : Flags) (name : CStr) (key : List UInt8) (priv : Nat)
  | cull (name : CStr) (priv : Nat)
  | purge (epoch : Int)

def KeyOp.toOp : KeyOp → Op
  | .storeKey flags name key priv => .storeKey flags name key priv
  | .cull name priv => .store .cull name priv
  | .purge epoch => .purge epoch

namespace Hdr

def keyStep (h : Hdr) (op : KeyOp) : Option Hdr :=
  (h.step op.toOp).map Prod.fst

-- Whenever the hash table is resized, `last` does not refer to an empty entry.
def Allows (h : Hdr) (op : KeyOp) : Prop :=
  Tracked.Allows ⟨h, h.instances⟩ op.toOp

def Detects (h : Hdr) : KeyOp → Prop
  | .storeKey flags name key _ =>
    flags = .add → h.findName name = none → h.Reaches (mykey name key)
  | .cull .. | .purge _ => True

theorem storeKey_keyed (hk : Keyed h) (ha : StoreKeyKeeps h flags name key) :
    ∃ h' sts, pmdaCacheStoreKey h flags name key priv = some (h', sts) ∧ Keyed h' ∧
      (h.KeysDistinct → (h'.KeysDistinct ↔ h.Detects (.storeKey flags name key priv))) := by
  have ⟨h', sts, hs, hg, _⟩ := hk.good.pmdaCacheStoreKey priv ha
  refine ⟨h', sts, hs, ?_⟩
  obtain ⟨hr, hn⟩ | ⟨rfl, hf, n, hn, e, hq, he⟩ := storeKey_cases hk.good hs
  · refine ⟨hr.keyed hk hg, fun hd => iff_of_true (hr.distinct hd hg) fun ha hf => ?_⟩
    exact hk.reaches hd hf fun inst hi => absurd hi (hn ha hf inst)
  · refine ⟨he.keyed hn hk hg, fun hd => (he.distinct_iff hd).trans ?_⟩
    refine ⟨fun hne _ _ => ?_, fun hr => ?_⟩
    · exact hk.reaches hd hf fun _ _ => hne
    · exact (hr rfl hf).of_guess hk.good hf hq

theorem keyStep_keyed (hk : Keyed h) (ha : h.Allows op) :
    ∃ h', h.keyStep op = some h' ∧ Keyed h' ∧
      (h.KeysDistinct ∧ h.Stable → (h'.KeysDistinct ∧ h'.Stable ↔ h.Detects op)) := by
  suffices hs : ∃ h' sts, h.step op.toOp = some (h', sts) ∧ Keyed h' ∧
      (h.KeysDistinct → (h'.KeysDistinct ↔ h.Detects op)) by
    have ⟨h', sts, he, hk', hd⟩ := hs
    refine ⟨h', by simp [keyStep, he], hk', fun hp => ?_⟩
    rw [and_iff_left hk'.good.stable]
    exact hd hp.left
  have hr {h' : Hdr} (hs : Shrinks h h') (hg : Good h') :
      Keyed h' ∧ (h.KeysDistinct → (h'.KeysDistinct ↔ True)) :=
    ⟨hs.keyed hk hg, fun hd => iff_of_true (hs.distinct hd hg) trivial⟩
  cases op
  case storeKey flags name key priv => exact storeKey_keyed hk ha
  case cull name priv =>
    have ⟨h', sts, hs, hg, _⟩ := hk.good.store [] priv ha
    exact ⟨h', sts, hs, hr (store_shrinks hk.good (by decide) hs) hg⟩
  case purge epoch =>
    refine ⟨_, _, rfl, hr (.map fun e _ => ?_) (hk.good.pmdaCachePurge epoch).left⟩
    split
    case isTrue => exact fun hl => absurd rfl hl
    case isFalse => exact fun hl => ⟨hl, rfl, rfl, rfl⟩

theorem new_keyed : Keyed new where
  good := Tracked.new_sound.good
  tries := nofun

theorem exec_keysDistinct (hg : Run.Guarded keyStep Allows new ops) :
    (∃ h, Run.exec keyStep new ops = some h) ∧
      (Run.Always keyStep (fun h => h.KeysDistinct ∧ h.Stable) new ops ↔
        Run.Guarded keyStep Detects new ops) := by
  constructor
  · have ⟨h, he, _⟩ := Run.exec_invariant (fun h op hk ha => ?_) new_keyed hg
    · exact ⟨h, he⟩
    · have ⟨h', he, hk', _⟩ := keyStep_keyed hk ha
      exact ⟨h', he, hk'⟩
  · refine Run.always_iff_guarded (I := fun h => Keyed h ∧ h.KeysDistinct ∧ h.Stable)
      (fun _ hi => hi.right) (fun h op ⟨hk, hp⟩ ha => ?_)
      ⟨new_keyed, nofun, new_keyed.good.stable⟩ hg
    have ⟨h', he, hk', hd⟩ := keyStep_keyed hk ha
    exact ⟨h', he, hd hp, fun hok => ⟨hk', (hd hp).mpr hok⟩⟩

-- The key of `b` is first tried at the identifier of `a`.
theorem exec_keysDistinct_moved :
    let a : CStr := ⟨[97], by decide⟩
    let b : CStr := ⟨[98], by decide⟩
    let ops := [.storeKey .add a [37, 16, 4] 0, .storeKey .add b [73, 93, 4] 0]
    (∃ h, Run.exec keyStep new ops = some h) ∧
      Run.Always keyStep (fun h => h.KeysDistinct ∧ h.Stable) new ops := by
  intro a b ops
  have hs : ∃ h, keyStep new (.storeKey .add a [37, 16, 4] 0) = some h ∧ h.nentry = 1 ∧
      h.hsize = 16 ∧ h.list.map (·.key) = [[37, 16, 4]] := by
    have := Option.map_eq_some_iff.mp <| show (keyStep new (.storeKey .add a [37, 16, 4] 0)).map
      (fun h => (h.nentry, h.hsize, h.list.map (·.key))) = some (1, 16, [[37, 16, 4]]) by
        decide +kernel
    simpa using this
  obtain ⟨h, hs, hn, hz, hk⟩ := hs
  have ha : Run.Guarded keyStep Allows new ops := by
    refine .cons (fun _ _ _ _ _ => insertKeeps_of_lt (by decide)) hs ?_
    refine ⟨fun _ _ _ _ _ => insertKeeps_of_lt (by simp [hn, hz]), fun _ _ => trivial⟩
  have ⟨he, hd⟩ := exec_keysDistinct ha
  refine ⟨he, hd.mpr <| .cons (fun _ _ => nofun) hs ⟨fun _ _ e hm _ he => ?_, fun _ _ => trivial⟩⟩
  have := mem_map_of_mem (f := (·.key)) hm
  simp [hk, he, mykey] at this

-- When `a` is gone, the key of `b` is stored again, now under the identifier that `a` had.
theorem exec_cull_not_keysDistinct :
    let a : CStr := ⟨[97], by decide⟩
    let b : CStr := ⟨[98], by decide⟩
    let c : CStr := ⟨[99], by decide⟩
    ∃ h, Run.exec keyStep new [.storeKey .add a [37, 16, 4] 0, .storeKey .add b [73, 93, 4] 0,
        .cull a 0, .storeKey .add c [73, 93, 4] 0] = some h ∧
      ∃ d ∈ h.list, ∃ e ∈ h.list, d.Live ∧ e.Live ∧ d.name = b ∧ e.name = c ∧ d.key = e.key := by
  intro a b c
  have h := Option.map_eq_some_iff.mp <| show (Run.exec keyStep new [.storeKey .add a [37, 16, 4] 0,
    .storeKey .add b [73, 93, 4] 0, .cull a 0, .storeKey .add c [73, 93, 4] 0]).map
      (fun h => decide (∃ d ∈ h.list, ∃ e ∈ h.list, d.Live ∧ e.Live ∧ d.name = b ∧ e.name = c ∧
        d.key = e.key)) = some true by decide +kernel
  simpa using h

end Hdr

end Cache
