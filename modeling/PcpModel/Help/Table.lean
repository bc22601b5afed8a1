import Mathlib.Data.List.Nodup
import PcpModel.Library.CInt
import PcpModel.Library.Run

-- The table of the help texts that a PMDA has opened (help.c of libpcp_pmda).
namespace Help

open List

structure Idx where
  pmid : BitVec 32
  offOneline : BitVec 32
  offText : BitVec 32

-- A descriptor that is not open is -1 in the source.
structure Entry where
  dirFd : Option Nat
  pagFd : Option Nat
  numidx : Int
  index : Option (List Idx)
  text : Option (List UInt8)
  textlen : Int

def Entry.closed : Entry :=
  ⟨none, none, 0, none, none, 0⟩

-- What the calls return that are made to open a help text, or their error numbers.
structure Files where
  realloc : Except Int Unit
  dir : Except Int Nat
  hdr : Option Idx
  index : Except Int (List Idx)
  pag : Except Int Nat
  size : Except Int Int
  text : Except Int (List UInt8)

namespace Files

variable (f : Files)

def einval : Int :=
  22

-- An entry of the table is filled in until a call fails.
def fill : ExceptT Int (StateM Entry) Unit := do
  let fd ← ofExcept f.dir
  modify ({ · with dirFd := some fd })
  let some hdr := f.hdr | throw einval
  if hdr.pmid ≠ 0x50635068 ∨ hdr.offOneline &&& 0xffff0000 ≠ 0x31320000 then throw einval
  modify ({ · with numidx := hdr.offText.toInt })
  let index ← ofExcept f.index
  modify ({ · with index := some index })
  let fd ← ofExcept f.pag
  modify ({ · with pagFd := some fd })
  let size ← ofExcept f.size
  modify ({ · with textlen := CInt.int size })
  let text ← ofExcept f.text
  modify ({ · with text := some text })

def sts : Except Int Unit :=
  (f.fill.run.run .closed).1

def entry : Entry :=
  (f.fill.run.run .closed).2

theorem dirFd_of_sts {f : Files} (h : f.sts = .ok ()) : f.entry.dirFd ≠ none := by
  obtain ⟨_, dir, hdr, index, pag, size, text⟩ := f
  cases dir
  case error => cases h
  cases hdr
  case none => cases h
  case ok.some hdr =>
    simp only [entry, fill]
    split
    case isTrue => exact nofun
    case isFalse => cases index <;> cases pag <;> cases size <;> cases text <;> exact nofun

end Files

section Code

variable (tab : List Entry) (f : Files)

def pmdaCloseHelp (handle : Int) : List Entry :=
  if handle < 0 ∨ handle ≥ tab.length then tab else tab.set handle.toNat .closed

-- The last entry of the table is returned, or closed on failure, whichever has been filled in.
def fillHelp (i : Nat) : List Entry × Except Int Nat :=
  let tab := tab.set i f.entry
  let handle := tab.length - 1
  match f.sts with
  | .ok _ => (tab, .ok handle)
  | .error e => (pmdaCloseHelp tab handle, .error (-e))

def slot : Nat :=
  tab.findIdx (·.dirFd = none)

def pmdaOpenHelp : List Entry × Except Int Nat :=
  if slot tab = tab.length then
    match f.realloc with
    | .ok _ => fillHelp (tab ++ [.closed]) f (slot tab)
    | .error e => ([], .error (-e))
  else
    fillHelp tab f (slot tab)

end Code

theorem length_pmdaCloseHelp : (pmdaCloseHelp tab handle).length = tab.length := by
  unfold pmdaCloseHelp
  split <;> simp

theorem getElem?_pmdaCloseHelp {n : Nat} {handle : Int} (hn : n ≠ handle) :
    (pmdaCloseHelp tab handle)[n]? = tab[n]? := by
  unfold pmdaCloseHelp
  split
  case isTrue => rfl
  case isFalse => exact getElem?_set_ne (by omega)

theorem pmdaCloseHelp_self {n : Nat} (hn : n < tab.length) :
    (pmdaCloseHelp tab n)[n]? = some .closed := by
  rw [pmdaCloseHelp, if_neg (by omega)]
  exact getElem?_set_self hn

inductive Op
  | openHelp (f : Files)
  | closeHelp (handle : Int)

-- `live` holds the handles that have not been closed since, each with the entry it was returned
-- for.
structure State where
  tab : List Entry
  live : List (Nat × Entry)

namespace State

variable (s : State)

def afterOpen (f : Files) : List Entry × Except Int Nat → State
  | (tab, .ok handle) => ⟨tab, (handle, f.entry) :: s.live⟩
  | (tab, .error _) => ⟨tab, s.live⟩

def step : Op → State
  | .openHelp f => s.afterOpen f (pmdaOpenHelp s.tab f)
  | .closeHelp handle => ⟨pmdaCloseHelp s.tab handle, s.live.filter (·.1 ≠ handle)⟩

structure Sound : Prop where
  nodup : (s.live.map (·.1)).Nodup
  opened : ∀ p ∈ s.live, s.tab[p.1]? = some p.2

def lastFd : Option Nat :=
  s.tab.getLast?.bind (·.dirFd)

-- Entries are reused only at the end, except by an open that fails when the last one is closed.
def Ok : Op → Prop
  | .openHelp f =>
    if slot s.tab = s.tab.length then f.realloc = .ok () ∨ s.live = []
    else slot s.tab + 1 = s.tab.length ∨ f.sts ≠ .ok () ∧ s.lastFd = none
  | .closeHelp _ => True

variable {s : State} {f : Files}

structure Inv (s : State) : Prop extends Sound s where
  dirFd : ∀ p ∈ s.live, p.2.dirFd ≠ none
  last : ∀ n e, n + 1 = s.tab.length → s.tab[n]? = some e → e.dirFd ≠ none → ∃ p ∈ s.live, p.1 = n

theorem Inv.ne_of_closed (h : s.Inv) (hi : s.tab[i]? = some e) (he : e.dirFd = none)
    (hp : p ∈ s.live) : p.1 ≠ i := by
  rintro rfl
  cases hi.symm.trans (h.opened p hp)
  exact h.dirFd p hp he

theorem lastFd_eq (hn : n + 1 = s.tab.length) (h : s.tab[n]? = some e) : s.lastFd = e.dirFd := by
  rw [lastFd, getLast?_eq_getElem?, ← hn, Nat.add_sub_cancel, h, Option.bind_some]

theorem Inv.grow (h : s.Inv) : Inv ⟨s.tab ++ [.closed], s.live⟩ where
  nodup := h.nodup
  opened p hp := by
    have ho := h.opened p hp
    exact (getElem?_append_left (List.getElem?_eq_some_iff.mp ho).1).trans ho
  dirFd := h.dirFd
  last := by simp +contextual [Entry.closed]

theorem Inv.fillHelp_ok (h : s.Inv) (hi : s.tab[i]? = some e) (he : e.dirFd = none)
    (hs : f.sts = .ok ()) (hn : n + 1 = s.tab.length) :
    let s' : State := ⟨s.tab.set i f.entry, (n, f.entry) :: s.live⟩
    (s'.Sound → i = n) ∧ (i = n → s'.Inv) := by
  have hfd := Files.dirFd_of_sts hs
  constructor
  · intro ⟨hnd, ho⟩
    by_contra hne
    have hl := ho _ mem_cons_self
    rw [getElem?_set_ne hne] at hl
    obtain ⟨p, hp, rfl⟩ := h.last n _ hn hl hfd
    exact (nodup_cons.mp hnd).left (mem_map.mpr ⟨p, hp, rfl⟩)
  · rintro rfl
    refine ⟨⟨?_, ?_⟩, ?_, fun m _ hm _ _ => ⟨_, mem_cons_self, ?_⟩⟩
    · refine nodup_cons.mpr ⟨fun hm => ?_, h.nodup⟩
      obtain ⟨p, hp, rfl⟩ := mem_map.mp hm
      exact h.ne_of_closed hi he hp rfl
    · refine forall_mem_cons.mpr ⟨getElem?_set_self (by omega), fun p hp => ?_⟩
      exact (getElem?_set_ne (h.ne_of_closed hi he hp).symm).trans (h.opened p hp)
    · exact forall_mem_cons.mpr ⟨hfd, h.dirFd⟩
    · simp only [length_set] at hm
      omega

theorem Inv.fillHelp_error (h : s.Inv) (hi : s.tab[i]? = some e) (he : e.dirFd = none)
    (hn : n + 1 = s.tab.length) :
    let s' : State := ⟨pmdaCloseHelp (s.tab.set i f.entry) n, s.live⟩
    (s'.Sound → i = n ∨ s.lastFd = none) ∧ (i = n ∨ s.lastFd = none → s'.Inv) := by
  have hc : (pmdaCloseHelp (s.tab.set i f.entry) n)[n]? = some .closed :=
    pmdaCloseHelp_self (by simp [← hn])
  constructor
  · intro ⟨_, ho⟩
    by_contra! hl
    have he := getElem?_eq_getElem (by omega : n < s.tab.length)
    obtain ⟨p, hp, rfl⟩ := h.last n _ hn he (lastFd_eq hn he ▸ hl.right)
    exact h.dirFd p hp (Option.some.inj (hc.symm.trans (ho p hp)) ▸ rfl)
  · intro hok
    refine ⟨⟨h.nodup, fun p hp => ?_⟩, h.dirFd, fun m e hm he hfd => ?_⟩
    · have hne : p.1 ≠ n := by
        rintro rfl
        rcases hok with hi' | hl
        · exact h.ne_of_closed hi he hp hi'.symm
        · exact h.dirFd p hp (lastFd_eq hn (h.opened p hp) ▸ hl)
      rw [getElem?_pmdaCloseHelp (by omega), getElem?_set_ne (h.ne_of_closed hi he hp).symm]
      exact h.opened p hp
    · simp only [length_pmdaCloseHelp, length_set] at hm
      cases (by omega : m = n)
      cases hc.symm.trans he
      cases hfd rfl

theorem Inv.fillHelp (h : s.Inv) (hi : s.tab[i]? = some e) (he : e.dirFd = none) (f : Files) :
    let s' := s.afterOpen f (fillHelp s.tab f i)
    let ok := i + 1 = s.tab.length ∨ f.sts ≠ .ok () ∧ s.lastFd = none
    (s'.Sound ↔ ok) ∧ (ok → s'.Inv) := by
  have hlt := (List.getElem?_eq_some_iff.mp hi).1
  obtain ⟨n, hn⟩ : ∃ n, n + 1 = s.tab.length := ⟨s.tab.length - 1, by omega⟩
  have hi' : i + 1 = s.tab.length ↔ i = n := by omega
  have hlen : (s.tab.set i f.entry).length - 1 = n := by simp [← hn]
  simp only [hi', Help.fillHelp, hlen]
  cases hs : f.sts
  case ok =>
    have ⟨hl, hr⟩ := h.fillHelp_ok hi he hs hn
    simpa using ⟨⟨hl, fun hn => (hr hn).toSound⟩, hr⟩
  case error =>
    have ⟨hl, hr⟩ := h.fillHelp_error hi he hn (f := f)
    simpa using ⟨⟨hl, fun hn => (hr hn).toSound⟩, hr⟩

theorem Inv.openHelp (h : s.Inv) (f : Files) :
    ((s.step (.openHelp f)).Sound ↔ s.Ok (.openHelp f)) ∧
      (s.Ok (.openHelp f) → (s.step (.openHelp f)).Inv) := by
  simp only [step, Ok, pmdaOpenHelp]
  split
  case isTrue hf =>
    cases hr : f.realloc
    case ok =>
      have := h.grow.fillHelp (i := slot s.tab) (e := .closed) (by simp [hf]) rfl f
      simpa [hf, afterOpen] using this
    case error =>
      -- The whole table is lost.
      have hl : (⟨[], s.live⟩ : State).Sound → s.live = [] := fun ⟨_, ho⟩ =>
        eq_nil_iff_forall_not_mem.mpr fun p hp => nomatch ho p hp
      have hr (hn : s.live = []) : (⟨[], s.live⟩ : State).Inv := by
        rw [hn]
        exact ⟨⟨nodup_nil, nofun⟩, nofun, nofun⟩
      simpa using ⟨⟨hl, fun hn => (hr hn).toSound⟩, hr⟩
  case isFalse hf =>
    have hlt : slot s.tab < s.tab.length := Nat.lt_of_le_of_ne findIdx_le_length hf
    exact h.fillHelp (getElem?_eq_getElem hlt) (of_decide_eq_true (findIdx_getElem (w := hlt))) f

theorem Inv.closeHelp (h : s.Inv) : (s.step (.closeHelp handle)).Inv := by
  have hm {p} (hp : p ∈ (s.step (.closeHelp handle)).live) : p ∈ s.live ∧ p.1 ≠ handle := by
    simpa [step] using hp
  refine ⟨⟨h.nodup.sublist (filter_sublist.map _), fun p hp => ?_⟩, fun p hp => h.dirFd p (hm hp).1,
    fun n e hn he hfd => ?_⟩
  · exact (getElem?_pmdaCloseHelp (hm hp).2).trans (h.opened p (hm hp).1)
  · have hn : n + 1 = s.tab.length := hn.trans length_pmdaCloseHelp
    by_cases hh : n = handle
    · subst hh
      cases (pmdaCloseHelp_self (by omega)).symm.trans he
      cases hfd rfl
    · obtain ⟨p, hp, rfl⟩ := h.last n e hn ((getElem?_pmdaCloseHelp hh).symm.trans he) hfd
      exact ⟨p, mem_filter.mpr ⟨hp, by simpa using hh⟩, rfl⟩

def start : State :=
  ⟨[], []⟩

theorem start_inv : start.Inv :=
  ⟨⟨nodup_nil, nofun⟩, nofun, nofun⟩

theorem exec_sound_iff {ops : List Op} :
    Run.Always (fun s op => some (step s op)) Sound start ops ↔
      Run.Guarded (fun s op => some (step s op)) Ok start ops := by
  refine Run.always_iff_guarded (fun _ hi => hi.toSound) (fun s op hi _ => ⟨_, rfl, ?_⟩) start_inv
    Run.guarded_true
  cases op
  case openHelp f => exact hi.openHelp f
  case closeHelp handle => exact ⟨iff_of_true hi.closeHelp.toSound trivial, fun _ => hi.closeHelp⟩

def files (fd : Nat) : Files :=
  ⟨.ok (), .ok fd, some ⟨0x50635068, 0x31320000, 0⟩, .ok [], .ok (fd + 1), .ok 0, .ok []⟩

-- The first entry is used again, but the second one is returned twice, or closed.
theorem exec_not_sound :
    (Run.exec (fun s op => some (step s op)) start [.openHelp (files 3), .openHelp (files 5),
      .closeHelp 0, .openHelp (files 7)]).map (·.live.map (·.1)) = some [1, 1] ∧
    (Run.exec (fun s op => some (step s op)) start [.openHelp (files 3), .openHelp (files 5),
      .closeHelp 0, .openHelp { files 7 with pag := .error 2 }]).map
        (fun s => (s.live, s.tab[1]?)) =
      some ([(1, (files 5).entry)], some .closed) :=
  ⟨rfl, rfl⟩

end State

end Help
