import Mathlib.Data.List.Induction
import PcpModel.Extract.Basic
import PcpModel.Library.Merging

-- Without daily windows, the main loop merges the input archives, each one with a mark at its end.
namespace Extract

open Merging List Option Nat Inarch

variable {α : Type}

def Item.stamp : Item α → Stamp
  | label => ⟨0, 0⟩
  | data r => r.stamp
  | mark t => t

theorem lt_createmark (t : Stamp) : t < createmark t := by
  rw [Stamp.lt_iff, createmark]
  split <;> simp

def marked (first : Bool) (current : Stamp) (l : List (Record α)) : List (Item α) :=
  match l.getLast? with
  | some r => l.map .data ++ [.mark (createmark r.stamp)]
  | none => if first then [] else [.mark (createmark current)]

theorem marked_cons {l : List (Record α)} :
    marked first current (r :: l) = .data r :: marked false r.stamp l := by
  cases l using reverseRecOn
  case nil => rfl
  case append_singleton l r' _ =>
    simp only [marked, ← cons_append, getLast?_concat]
    simp

theorem dropWhile_of_le {l : List (Record α)} (h : ∀ r ∈ l, winstart ≤ r.stamp) :
    l.dropWhile (fun r => tvcmp r.stamp winstart < 0) = l := by
  cases l
  case nil => rfl
  case cons r l =>
    have := h r mem_cons_self
    simp [tvcmp_neg, this]

namespace Inarch

variable (a : Inarch α) (first : Bool) (current winstart : Stamp)

def rest : List (Item α) :=
  match a.pb with
  | some t => [.mark t]
  | none =>
    if a.mark then
      []
    else
      marked first current (a.nresult.toList ++ a.log.dropWhile fun r => tvcmp r.stamp winstart < 0)

structure Ok : Prop where
  sorted : (a.nresult.toList ++ a.log).Pairwise (·.stamp ≤ ·.stamp)
  start : ∀ r ∈ a.nresult, winstart ≤ r.stamp
  mark : a.mark → a.nresult = none
  eof : a.eof → a.mark
  pb : ∀ t ∈ a.pb, a.mark

-- Either there is something to be written, or the archive is at its end.
def Read : Prop :=
  a.nresult.isSome ∨ a.mark

structure Unread : Prop where
  nresult : a.nresult = none
  mark : a.mark = false

def toRead : List (Record α) :=
  a.log.dropWhile fun r => tvcmp r.stamp winstart < 0

inductive Next : Inarch α → Prop
  | kept : a.nresult.isSome ∨ a.eof → Next a
  | ended : a.mark → Next { a with eof := true }
  | read (r log) : a.Unread → a.toRead winstart = r :: log → Next { a with log, nresult := some r }
  | skipped : a.Unread → a.toRead winstart = [] → first →
      Next { a with log := [], mark := true, eof := true }
  | closed : a.Unread → a.toRead winstart = [] → first = false →
      Next { a with log := [], mark := true, pb := some (createmark current) }

variable {a first current winstart}

theorem next_next :
    Next a first current winstart (a.next first current winstart) := by
  unfold next
  split
  case isTrue he => exact .kept (.inr he)
  case isFalse he =>
    split
    case isTrue hn => exact .kept (.inl hn)
    case isFalse hn =>
      split
      case isTrue hm => exact .ended hm
      case isFalse hm =>
        have hu : a.Unread := ⟨by simpa using hn, by simpa using hm⟩
        split
        case h_1 r log hd => exact .read r log hu hd
        case h_2 hd =>
          split
          case isTrue hf => exact .skipped hu hd hf
          case isFalse hf => exact .closed hu hd (by simpa using hf)

theorem toRead_cons (h : a.toRead winstart = r :: l) :
    (r :: l) <:+ a.log ∧ winstart ≤ r.stamp := by
  refine ⟨h ▸ dropWhile_suffix _, ?_⟩
  have hn : a.toRead winstart ≠ [] := by simp [h]
  have : decide (tvcmp ((a.toRead winstart).head hn).stamp winstart < 0) = false :=
    head_dropWhile_not _ hn
  simpa [h, tvcmp_neg] using this

theorem Ok.le_of_sorted (h : a.Ok winstart) (hr : a.nresult = some r) :
    ∀ r ∈ a.log, winstart ≤ r.stamp := by
  intro r' hr'
  have hs := h.sorted
  rw [hr] at hs
  exact (h.start r hr).trans (rel_of_pairwise_cons hs hr')

theorem pb_of_unread (h : a.Ok winstart) (hu : a.Unread) : a.pb = none := by
  cases hp : a.pb
  case none => rfl
  case some t =>
    have := h.pb t hp
    simp [hu.mark] at this

theorem rest_unread (h : a.Ok winstart) (hu : a.Unread) :
    a.rest first current winstart = marked first current (a.toRead winstart) := by
  simp [rest, pb_of_unread h hu, hu.mark, hu.nresult, toRead]

namespace Next

theorem read' (h : Next a first current winstart b) (ha : a.Ok winstart) : b.Read := by
  cases h
  case kept h => exact h.imp_right ha.eof
  case ended h => exact .inr h
  case read => exact .inl rfl
  case skipped => exact .inr rfl
  case closed => exact .inr rfl

theorem ok (h : Next a first current winstart b) (ha : a.Ok winstart) :
    b.Ok winstart := by
  cases h
  case kept => exact ha
  case ended hm => exact { ha with eof := fun _ => hm }
  case read r log hu hd =>
    obtain ⟨hs, hr⟩ := toRead_cons hd
    have hl : (r :: log).Sublist (a.nresult.toList ++ a.log) :=
      hs.sublist.trans (sublist_append_right ..)
    refine ⟨ha.sorted.sublist hl, ?_, ?_, ?_, ha.pb⟩
    · simpa using hr
    · simp [hu.mark]
    · exact ha.eof
  case skipped hu hd hf =>
    exact ⟨by simp, by simp [hu.nresult], fun _ => hu.nresult, fun _ => rfl,
      by simp⟩
  case closed hu hd hf =>
    exact ⟨by simp, by simp [hu.nresult], fun _ => hu.nresult, fun _ => rfl,
      fun _ _ => rfl⟩

theorem rest (h : Next a first current winstart b) (ha : a.Ok winstart) :
    b.rest first current winstart = a.rest first current winstart := by
  have hb := h.ok ha
  cases h
  case kept => rfl
  case ended => rfl
  case read r log hu hd =>
    have := dropWhile_of_le (hb.le_of_sorted rfl)
    rw [rest_unread ha hu, hd]
    simp only [Inarch.rest, pb_of_unread ha hu, hu.mark]
    simp [this]
  case skipped hu hd hf =>
    rw [rest_unread ha hu, hd]
    simp [Inarch.rest, pb_of_unread ha hu, marked, hf]
  case closed hu hd hf =>
    rw [rest_unread ha hu, hd]
    simp [Inarch.rest, marked, hf]

theorem mark_of_eof (h : Next a first current winstart b) (ha : a.Ok winstart)
    (hf : first = false) (he : b.eof) : a.mark := by
  cases h
  case kept => exact ha.eof he
  case ended hm => exact hm
  case read => exact ha.eof he
  case skipped hf' => simp [hf] at hf'
  case closed => exact ha.eof he

end Next

theorem rest_of_read (h : a.Read) :
    a.rest first current winstart = a.rest first' current' winstart := by
  unfold rest
  split
  case h_1 => rfl
  case h_2 =>
    split
    case isTrue => rfl
    case isFalse hm =>
      obtain ⟨r, hr⟩ := isSome_iff_exists.mp (h.resolve_right hm)
      simp [hr, marked_cons]

theorem Ok.of_nresult (h : a.Ok winstart) (hn : a.nresult = some r) :
    a.mark = false ∧ a.pb = none := by
  have hm : a.mark = false := by
    cases hm : a.mark
    case false => rfl
    case true => simp [h.mark hm] at hn
  refine ⟨hm, ?_⟩
  cases hp : a.pb
  case none => rfl
  case some t =>
    have := h.pb t hp
    simp [hm] at this

theorem stamp?_eq (first : Bool) (current : Stamp) (h : a.Ok winstart) (hr : a.Read) :
    a.stamp? = (a.rest first current winstart).head?.map Item.stamp := by
  cases hn : a.nresult
  case some r =>
    obtain ⟨hm, hp⟩ := h.of_nresult hn
    simp [stamp?, rest, hn, hm, hp, marked_cons, Item.stamp]
  case none =>
    have hm : a.mark := by simpa [Read, hn] using hr
    cases hp : a.pb <;> simp [stamp?, rest, hn, hm, hp, Item.stamp]

section Write

variable (h : a.Ok winstart)
include h

theorem rest_data (hn : a.nresult = some r) :
    a.rest first current winstart =
      .data r :: rest { a with nresult := none } false r.stamp winstart := by
  obtain ⟨hm, hp⟩ := h.of_nresult hn
  simp [rest, hn, hm, hp, marked_cons]

theorem ok_data : Ok { a with nresult := none } winstart where
  sorted := h.sorted.sublist (sublist_append_right ..)
  start := nofun
  mark := fun _ => rfl
  eof := h.eof
  pb := h.pb

theorem rest_mark (hp : a.pb = some t) :
    a.rest first current winstart =
      .mark t :: rest { a with pb := none } first' current' winstart := by
  simp [rest, hp, h.pb t hp]

end Write

end Inarch

-- The earliest one of the first times, which is the first one of several.
def Least (f : Nat → Option Stamp) (n : Nat) (c : Choice) : Prop :=
  (c = ⟨none, ⟨0, 0⟩⟩ ∧ ∀ j < n, f j = none) ∨
    ∃ i t, c = ⟨some i, t⟩ ∧ i < n ∧ f i = some t ∧
      ∀ j < n, ∀ u, f j = some u → t < u ∨ t = u ∧ i ≤ j

theorem Least.checklogtime (h : Least f n c) (hn : f n = some t)
    (hz : ∀ j < n, ∀ t, f j = some t → t ≠ ⟨0, 0⟩) : Least f (n + 1) (checklogtime c t n) := by
  refine .inr ?_
  obtain ⟨rfl, hn'⟩ | ⟨i, u, rfl, hi, hu, hl⟩ := h
  · refine ⟨n, t, if_pos (.inl rfl), lt_succ_self n, hn, fun j hj v hv => ?_⟩
    obtain hj | rfl := Nat.lt_succ_iff_lt_or_eq.mp hj
    · simp [hn' j hj] at hv
    · cases hn.symm.trans hv
      exact .inr ⟨rfl, le_rfl⟩
  · by_cases hlt : t < u
    · refine ⟨n, t, if_pos (.inr (tvcmp_pos.mpr hlt)), lt_succ_self n, hn, fun j hj v hv => ?_⟩
      obtain hj | rfl := Nat.lt_succ_iff_lt_or_eq.mp hj
      · exact .inl <| hlt.trans_le <| (hl j hj v hv).elim le_of_lt fun h => h.left.le
      · cases hn.symm.trans hv
        exact .inr ⟨rfl, le_rfl⟩
    · have hc : ¬(u = ⟨0, 0⟩ ∨ tvcmp u t > 0) := by
        rw [tvcmp_pos, not_or]
        exact ⟨hz i hi u hu, hlt⟩
      refine ⟨i, u, if_neg hc, hi.trans n.lt_succ_self, hu, fun j hj v hv => ?_⟩
      obtain hj | rfl := Nat.lt_succ_iff_lt_or_eq.mp hj
      · exact hl j hj v hv
      · cases hn.symm.trans hv
        exact (not_lt.mp hlt).lt_or_eq.imp_right fun h => ⟨h, hi.le⟩

theorem Least.skip (h : Least f n c) (hn : f n = none) : Least f (n + 1) c := by
  obtain ⟨rfl, hn'⟩ | ⟨i, u, rfl, hi, hu, hl⟩ := h
  · refine .inl ⟨rfl, fun j hj => ?_⟩
    obtain hj | rfl := Nat.lt_succ_iff_lt_or_eq.mp hj
    · exact hn' j hj
    · exact hn
  · refine .inr ⟨i, u, rfl, hi.trans n.lt_succ_self, hu, fun j hj v hv => ?_⟩
    obtain hj | rfl := Nat.lt_succ_iff_lt_or_eq.mp hj
    · exact hl j hj v hv
    · simp [hn] at hv

theorem choose_least {l : List (Inarch α)}
    (hz : ∀ j, j + 1 < n + l.length → ∀ t, f j = some t → t ≠ ⟨0, 0⟩)
    (hl : ∀ j, l[j]?.bind stamp? = f (n + j)) (hc : Least f n c) :
    Least f (n + l.length) (choose n l c) := by
  induction l generalizing n c
  case nil => exact hc
  case cons a l ih =>
    have hn : a.stamp? = f n := by simpa using hl 0
    rw [length_cons, ← add_assoc, Nat.add_right_comm] at hz ⊢
    refine ih hz (fun j => ?_) ?_
    · rw [add_assoc, add_comm 1]
      simpa using hl (j + 1)
    · cases hs : a.stamp?
      case none => exact hc.skip (hn ▸ hs)
      case some t => exact hc.checklogtime (hn ▸ hs) fun j hj => hz j (by omega)

namespace State

variable (s : State α)

def seqs (i : Nat) : List (Item α) :=
  match s.inarch[i]? with
  | some a => a.rest s.first s.current s.winstart
  | none => []

variable {s}

theorem writeResult_eq (h : s.labelled = !s.first) : s.writeResult r = { s with
    first := false
    labelled := true
    volume := s.volume ++ (if s.first then [.label] else []) ++ [.data r] } := by
  cases hf : s.first <;> simp [writeResult, putResult, hf, h]

theorem write_of_nresult (hm : a.mark = false) (hn : a.nresult = some r)
    (hr : s.rlready = []) (hl : s.labelled = !s.first) :
    s.write r.stamp i a = .next { s with
      inarch := s.inarch.set i { a with nresult := none }
      rlready := []
      first := false
      labelled := true
      volume := s.volume ++ (if s.first then [.label] else []) ++ [.data r] } := by
  have hc : ¬tvcmp r.stamp r.stamp > 0 := by simp [tvcmp_pos]
  unfold write
  rw [if_neg (by simp [hm]), hn]
  simp only [hr, insertresult, writerlist, if_neg hc]
  rw [writeResult_eq]
  exact hl

theorem write_of_pb (hm : a.mark) (hp : a.pb = some t) (hl : s.labelled) :
    s.write c i a = .next { s with
      inarch := s.inarch.set i { a with pb := none }
      labelled := true
      volume := s.volume ++ [.mark t] } := by
  unfold write
  rw [if_pos hm, hp]
  simp [putResult, hl]

variable {opts : Options} {S : Nat → List (Item α)} {winstart winend : Stamp}
  {l : List (Nat × Item α)} {a : Inarch α}

-- What holds whenever nextlog is called, if `l` is what has been written.
structure Inv (opts : Options) (winstart winend : Stamp) (S : Nat → List (Item α)) (s : State α)
    (l : List (Nat × Item α)) : Prop where
  window : s.winstart = winstart ∧ s.winend = winend
  ok : ∀ a ∈ s.inarch, a.Ok winstart
  path : Path Item.stamp S l s.seqs
  zero : ∀ j, j + 1 < s.inarch.length → ∀ x ∈ S j, x.stamp ≠ ⟨0, 0⟩
  limit : ∀ p ∈ l, p.2.stamp ≤ opts.logend ∧ p.2.stamp ≤ winend
  rlready : s.rlready = []
  labelled : s.labelled = !s.first
  volume : s.volume = (if s.first then [] else [.label]) ++ l.map Prod.snd
  first : s.first → l = [] ∧ ∀ a ∈ s.inarch, a.pb = none
  unread : ∀ a ∈ s.inarch, a.Unread → s.first ∨ ∃ l' i r, l = l' ++ [(i, .data r)]
  ended : (∀ a ∈ s.inarch, a.mark) →
    l = [] ∨ ∃ l' i r j t, l = l' ++ [(i, .data r), (j, .mark t)]

namespace Inv

variable (h : Inv opts winstart winend S s l)
include h

theorem next (hb : b ∈ s.nextlog.inarch) :
    ∃ a ∈ s.inarch, Next a s.first s.current winstart b := by
  obtain ⟨a, ha, rfl⟩ := mem_map.mp hb
  rw [h.window.left]
  exact ⟨a, ha, next_next⟩

theorem ok_nextlog (hb : b ∈ s.nextlog.inarch) : b.Ok winstart ∧ b.Read := by
  obtain ⟨a, ha, hn⟩ := h.next hb
  exact ⟨hn.ok (h.ok a ha), hn.read' (h.ok a ha)⟩

theorem seqs_nextlog : s.nextlog.seqs = s.seqs := by
  funext i
  simp only [seqs, nextlog, getElem?_map]
  cases ha : s.inarch[i]?
  case none => rfl
  case some a =>
    have hm := mem_of_getElem? ha
    simp only [h.window.left]
    exact next_next.rest (h.ok a hm)

theorem stamp?_nextlog (j : Nat) :
    s.nextlog.inarch[j]?.bind stamp? = (s.seqs j).head?.map Item.stamp := by
  rw [← h.seqs_nextlog, seqs]
  cases hb : s.nextlog.inarch[j]?
  case none => rfl
  case some b =>
    obtain ⟨hb, hr⟩ := h.ok_nextlog (mem_of_getElem? hb)
    have := stamp?_eq s.nextlog.first s.nextlog.current hb hr
    simpa [nextlog, h.window.left] using this

theorem stamp_ne_zero (hj : j + 1 < s.nextlog.inarch.length)
    (hs : s.nextlog.inarch[j]?.bind stamp? = some t) : t ≠ ⟨0, 0⟩ := by
  rw [h.stamp?_nextlog] at hs
  obtain ⟨x, hx, rfl⟩ := map_eq_some_iff.mp hs
  have hj : j + 1 < s.inarch.length := by simpa [nextlog] using hj
  exact h.zero j hj x (h.path.rest_subset j (mem_of_head? hx))

theorem choose_eq :
    (choose 0 s.nextlog.inarch ⟨none, ⟨0, 0⟩⟩ = ⟨none, ⟨0, 0⟩⟩ ∧ ∀ j, s.seqs j = []) ∨
    ∃ i a x l, choose 0 s.nextlog.inarch ⟨none, ⟨0, 0⟩⟩ = ⟨some i, x.stamp⟩ ∧
      s.nextlog.inarch[i]? = some a ∧ s.seqs i = x :: l ∧
      IsLeast Item.stamp s.seqs (i, x) := by
  have hc := choose_least (n := 0)
    (fun j hj t => h.stamp_ne_zero (by simpa using hj)) (by simp) (.inl ⟨rfl, nofun⟩)
  have ho j (hj : s.nextlog.inarch.length ≤ j) : s.seqs j = [] := by
    rw [← h.seqs_nextlog, seqs, getElem?_eq_none hj]
  rw [zero_add] at hc
  obtain ⟨hc, hn⟩ | ⟨i, t, hc, hi, ht, hl⟩ := hc
  · refine .inl ⟨hc, fun j => ?_⟩
    by_cases hj : j < s.nextlog.inarch.length
    · have := hn j hj
      simpa [h.stamp?_nextlog] using this
    · exact ho j (by omega)
  · simp only [h.stamp?_nextlog, map_eq_some_iff] at ht hl
    obtain ⟨x, hx, rfl⟩ := ht
    obtain ⟨l, hx⟩ := head?_eq_some_iff.mp hx
    refine .inr ⟨i, _, x, l, hc, getElem?_eq_getElem hi, hx, fun j y hy => ?_⟩
    by_cases hj : j < s.nextlog.inarch.length
    · exact hl j hj _ ⟨y, hy, rfl⟩
    · simp [ho j (by omega)] at hy

theorem pb_nextlog (hf : s.first) (hb : b ∈ s.nextlog.inarch) : b.pb = none := by
  obtain ⟨a, ha, hn⟩ := h.next hb
  have hp := (h.first hf).right a ha
  cases hn
  case closed hu hd hf' => simp [hf'] at hf
  all_goals exact hp

-- If the end of an archive has just been found, then its last record has been written just before.
theorem data_of_mark (hb : b ∈ s.nextlog.inarch) (hm : b.mark) (he : b.eof = false) :
    ∃ l' i r, l = l' ++ [(i, .data r)] := by
  have hm' := (h.ok_nextlog hb).left.mark hm
  obtain ⟨a, ha, hn⟩ := h.next hb
  cases hn
  case kept hk => simp [hm', he] at hk
  case ended => simp at he
  case read => simp at hm'
  case skipped => simp at he
  case closed hu hd hf => exact (h.unread a ha hu).resolve_left (by simp [hf])

theorem takes {s' : State α} (hi : s.nextlog.inarch[i]? = some a)
    (hx : s.seqs i = x :: l') (hl : IsLeast Item.stamp s.seqs (i, x))
    (ha : s'.inarch = s.nextlog.inarch.set i a') (hw : s'.winstart = winstart)
    (hr : a'.rest s'.first s'.current winstart = l') : Takes Item.stamp s.seqs i x s'.seqs := by
  have hi := (List.getElem?_eq_some_iff.mp hi).choose
  refine ⟨?_, fun j hj => ?_, hl⟩
  · rw [hx]
    simp [seqs, ha, List.getElem?_set_self hi, hw, hr]
  · rw [← h.seqs_nextlog, seqs, seqs, ha, List.getElem?_set_ne (Ne.symm hj)]
    cases hb : s.nextlog.inarch[j]?
    case none => rfl
    case some b =>
      have hb := (h.ok_nextlog (List.mem_of_getElem? hb)).right
      simp only [hw, show s.nextlog.winstart = winstart from h.window.left]
      exact rest_of_read hb

theorem not_unread (hb : b ∈ s.nextlog.inarch) : ¬b.Unread := by
  intro hu
  have := (h.ok_nextlog hb).right
  simp [Read, hu.nresult, hu.mark] at this

theorem ok_set (ha : a'.Ok winstart) :
    ∀ b ∈ s.nextlog.inarch.set i a', b.Ok winstart := by
  intro b hb
  obtain hb | rfl := mem_or_eq_of_mem_set hb
  · exact (h.ok_nextlog hb).left
  · exact ha

theorem zero_set (j : Nat) (hj : j + 1 < (s.nextlog.inarch.set i a').length) :
    ∀ x ∈ S j, x.stamp ≠ ⟨0, 0⟩ :=
  h.zero j (by simpa [nextlog] using hj)

theorem limit_concat (hx : x.stamp ≤ opts.logend ∧ x.stamp ≤ winend) :
    ∀ p ∈ l ++ [(i, x)], p.2.stamp ≤ opts.logend ∧ p.2.stamp ≤ winend := by
  intro p hp
  obtain hp | rfl := mem_append.mp hp |>.imp_right mem_singleton.mp
  · exact h.limit p hp
  · exact hx

theorem write_data (hi : s.nextlog.inarch[i]? = some a) (hn : a.nresult = some r)
    (hl : IsLeast Item.stamp s.seqs (i, .data r))
    (hx : r.stamp ≤ opts.logend ∧ r.stamp ≤ winend) :
    ∃ s', write r.stamp i a { s.nextlog with current := r.stamp } = .next s' ∧
      Inv opts winstart winend S s' (l ++ [(i, .data r)]) := by
  have hm := List.mem_of_getElem? hi
  have ha := (h.ok_nextlog hm).left
  have hw := ha.of_nresult hn
  have hq : s.seqs i =
      .data r :: rest { a with nresult := none } false r.stamp winstart := by
    rw [← h.seqs_nextlog, seqs, hi]
    simp only [show s.nextlog.winstart = winstart from h.window.left]
    exact rest_data ha hn
  have hs := write_of_nresult (s := { s.nextlog with current := r.stamp }) (i := i) hw.left hn
    h.rlready h.labelled
  have ha' := ok_data ha
  refine ⟨_, hs, h.window, h.ok_set ha', h.path.snoc (h.takes hi hq hl rfl h.window.left rfl),
    h.zero_set, h.limit_concat hx, rfl, rfl, ?_, nofun, ?_, ?_⟩
  · simp only [nextlog, h.volume]
    cases hf : s.first
    case false => simp
    case true => simp [(h.first hf).left]
  · intro b hb hu
    exact .inr ⟨l, i, r, rfl⟩
  · intro hm'
    have := hm' _ (List.mem_set (List.getElem?_eq_some_iff.mp hi).choose _)
    simp [hw.left] at this

theorem write_mark (hi : s.nextlog.inarch[i]? = some a) (hp : a.pb = some t)
    (he : s.nextlog.inarch.all (·.eof) = false)
    (hl : IsLeast Item.stamp s.seqs (i, .mark t))
    (hx : t ≤ opts.logend ∧ t ≤ winend) :
    ∃ s', write t i a { s.nextlog with current := t } = .next s' ∧
      Inv opts winstart winend S s' (l ++ [(i, .mark t)]) := by
  have hm := mem_of_getElem? hi
  have ha := (h.ok_nextlog hm).left
  have hw := ha.pb t hp
  have hf : s.first = false := by
    cases hf : s.first
    case false => rfl
    case true => simp [h.pb_nextlog hf hm] at hp
  have hq : s.seqs i = .mark t :: rest { a with pb := none } s.first t winstart := by
    rw [← h.seqs_nextlog, seqs, hi]
    simp only [show s.nextlog.winstart = winstart from h.window.left]
    exact rest_mark ha hp
  have hs := write_of_pb (s := { s.nextlog with current := t }) (i := i) (c := t) hw hp
    (by simpa [nextlog, hf] using h.labelled)
  have ha' : Ok { a with pb := none } winstart := { ha with pb := nofun }
  refine ⟨_, hs, h.window, h.ok_set ha', h.path.snoc (h.takes hi hq hl rfl h.window.left rfl),
    h.zero_set, h.limit_concat hx, h.rlready, by simp [nextlog, hf], ?_, ?_, ?_, ?_⟩
  · simp [nextlog, h.volume]
  · simp [nextlog, hf]
  · intro b hb hu
    obtain hb | rfl := mem_or_eq_of_mem_set hb
    · exact absurd hu (h.not_unread hb)
    · cases hu.mark.symm.trans hw
  · intro hm'
    -- An archive is not yet known to be at its end, although there is nothing left to read.
    obtain ⟨b, hb, he⟩ : ∃ b ∈ s.nextlog.inarch, b.eof = false := by simpa using he
    have hb' : b.mark := by
      obtain ⟨j, hj⟩ := mem_iff_getElem?.mp hb
      by_cases hij : i = j
      · subst hij
        cases hi.symm.trans hj
        exact hw
      · refine hm' b (mem_of_getElem? (i := j) ?_)
        rwa [getElem?_set_ne hij]
    obtain ⟨l', i', r, hd⟩ := h.data_of_mark hb hb' he
    exact .inr ⟨l', i', r, i, t, by simp [hd]⟩

theorem mem_seqs (hy : y ∈ s.seqs j) :
    ∃ b ∈ s.nextlog.inarch, y ∈ b.rest s.first s.current winstart := by
  rw [← h.seqs_nextlog, seqs] at hy
  cases hb : s.nextlog.inarch[j]?
  case none => simp [hb] at hy
  case some b =>
    rw [hb] at hy
    exact ⟨b, mem_of_getElem? hb, h.window.left ▸ hy⟩

theorem rest_mem_seqs (hb : b ∈ s.nextlog.inarch) (hy : y ∈ b.rest s.first s.current winstart) :
    ∃ j, y ∈ s.seqs j := by
  obtain ⟨j, hj⟩ := mem_iff_getElem?.mp hb
  refine ⟨j, ?_⟩
  rw [← h.seqs_nextlog, seqs, hj]
  exact h.window.left ▸ hy

-- There is something to be written as long as an archive is not known to be at its end.
theorem exists_mem_seqs (hb : b ∈ s.nextlog.inarch) (he : b.eof = false) : ∃ j y, y ∈ s.seqs j := by
  have hr : b.stamp?.isSome := by
    obtain ⟨a, -, hn⟩ := h.next hb
    cases hn
    case kept hk =>
      obtain ⟨r, hr⟩ := isSome_iff_exists.mp (hk.resolve_right (by simp [he]))
      simp [stamp?, hr]
    case ended => simp at he
    case read => rfl
    case skipped => simp at he
    case closed hu _ _ => simp [stamp?, hu.nresult]
  have ⟨hb', hr'⟩ := h.ok_nextlog hb
  rw [stamp?_eq s.first s.current hb' hr', isSome_map] at hr
  obtain ⟨y, hy⟩ := isSome_iff_exists.mp hr
  obtain ⟨j, hj⟩ := h.rest_mem_seqs hb (mem_of_head? hy)
  exact ⟨j, y, hj⟩

theorem tail (hg : ∀ j, ∀ y ∈ s.seqs j, ∃ t, y = .mark t) :
    l = [] ∨ (∃ l' i r, l = l' ++ [(i, .data r)]) ∨
      ∃ l' i r j t, l = l' ++ [(i, .data r), (j, .mark t)] := by
  by_cases hm : ∀ a ∈ s.inarch, a.mark
  · exact (h.ended hm).imp_right .inr
  · push Not at hm
    obtain ⟨a, ha, hm⟩ := hm
    have hn : a.nresult = none := by
      cases hn : a.nresult
      case none => rfl
      case some r =>
        obtain ⟨j, hj⟩ := mem_iff_getElem?.mp ha
        have hs : Item.data r ∈ s.seqs j := by
          rw [seqs, hj]
          simp [rest_data (h.window.left ▸ h.ok a ha) hn]
        obtain ⟨t, ht⟩ := hg j _ hs
        cases ht
    obtain hf | hd := h.unread a ha ⟨hn, by simpa using hm⟩
    · exact .inl (h.first hf).left
    · exact .inr (.inl hd)

theorem all_eof (he : s.nextlog.inarch.all (·.eof)) : (∀ j, ∀ y ∈ s.seqs j, ∃ t, y = .mark t) ∧
    (l = [] ∨ ∃ l' i r j t, l = l' ++ [(i, .data r), (j, .mark t)]) := by
  have he : ∀ b ∈ s.nextlog.inarch, b.eof := all_eq_true.mp he
  constructor
  · intro j y hy
    obtain ⟨b, hb, hy⟩ := h.mem_seqs hy
    have hm := (h.ok_nextlog hb).left.eof (he b hb)
    cases hp : b.pb
    case none => simp [rest, hp, hm] at hy
    case some t => exact ⟨t, by simpa [rest, hp] using hy⟩
  · cases hf : s.first
    case true => exact .inl (h.first hf).left
    case false =>
      refine h.ended fun a ha => ?_
      have hb : a.next s.first s.current s.winstart ∈ s.nextlog.inarch := mem_map_of_mem ha
      exact next_next.mark_of_eof (h.window.left ▸ h.ok a ha) hf (he _ hb)

end Inv

structure Final (opts : Options) (winend : Stamp) (S : Nat → List (Item α))
    (l : List (Nat × Item α)) (g : Nat → List (Item α)) : Prop where
  path : Path Item.stamp S l g
  limit : ∀ p ∈ l, p.2.stamp ≤ opts.logend ∧ p.2.stamp ≤ winend
  rest : (∀ j, ∀ y ∈ g j, opts.logend < y.stamp ∨ winend < y.stamp) ∨
    (∀ j, ∀ y ∈ g j, ∃ t, y = .mark t) ∧
      (l = [] ∨ ∃ l' i r j t, l = l' ++ [(i, .data r), (j, .mark t)])
  tail : (∀ j, ∀ y ∈ g j, ∃ t, y = .mark t) → l = [] ∨ (∃ l' i r, l = l' ++ [(i, .data r)]) ∨
    ∃ l' i r j t, l = l' ++ [(i, .data r), (j, .mark t)]

def output (first : Bool) (l : List (Nat × Item α)) : List (Item α) :=
  (if first then [] else [.label]) ++ l.map Prod.snd

theorem Inv.finish (h : Inv opts winstart winend S s l) : s.finish = output s.first l := by
  unfold State.finish
  cases hf : s.first
  case false => simp [h.volume, hf, output]
  case true => simp [(h.first hf).left, output]

theorem step_eq (hw : opts.warg = false) (he : ¬s.nextlog.inarch.all (·.eof))
    (hc : choose 0 s.nextlog.inarch ⟨none, ⟨0, 0⟩⟩ = ⟨some i, t⟩)
    (hi : s.nextlog.inarch[i]? = some a) :
    s.step opts = if opts.logend < t ∨ s.winend < t then .stop s.nextlog
      else State.write t i a { s.nextlog with current := t } := by
  unfold State.step
  simp only [he, hc, hi, tvcmp_pos, checkwinend, tvcmp_le, hw]
  by_cases h₁ : opts.logend < t
  · simp [h₁]
  · by_cases h₂ : s.winend < t
    · have : ¬t ≤ s.nextlog.winend := not_le.mpr h₂
      simp [h₂, this]
    · have : t ≤ s.nextlog.winend := not_lt.mp h₂
      simp [h₂, this]

theorem Inv.step (h : Inv opts winstart winend S s l) (hw : opts.warg = false)
    (hS : Sorted Item.stamp S) :
    (∃ s', s.step opts = .stop s' ∧ s'.finish = output s.first l ∧
        Final opts winend S l s.seqs) ∨
      ∃ s' i x, s.step opts = .next s' ∧ Inv opts winstart winend S s' (l ++ [(i, x)]) := by
  have hfin : s.nextlog.finish = output s.first l := h.finish
  by_cases he : s.nextlog.inarch.all (·.eof)
  · have hs : s.step opts = .stop s.nextlog := if_pos he
    exact .inl ⟨_, hs, hfin, h.path, h.limit, .inr (h.all_eof he), h.tail⟩
  · obtain ⟨hc, hs⟩ | ⟨i, a, x, l', hc, hi, hx, hl⟩ := h.choose_eq
    · obtain ⟨b, hb, he⟩ : ∃ b ∈ s.nextlog.inarch, b.eof = false := by simpa using he
      obtain ⟨j, y, hy⟩ := h.exists_mem_seqs hb he
      simp [hs] at hy
    · have hs := step_eq hw he hc hi
      rw [h.window.right] at hs
      by_cases hlt : opts.logend < x.stamp ∨ winend < x.stamp
      · rw [if_pos hlt] at hs
        refine .inl ⟨_, hs, hfin, h.path, h.limit, .inl fun j y hy => ?_, h.tail⟩
        have hy := (hl.before (h.path.sorted hS) j hy).key_le
        exact hlt.imp (·.trans_le hy) (·.trans_le hy)
      · rw [if_neg hlt] at hs
        have hlt : x.stamp ≤ opts.logend ∧ x.stamp ≤ winend := by simpa using hlt
        obtain ⟨ha, hr⟩ := h.ok_nextlog (mem_of_getElem? hi)
        have hq : a.rest s.first s.current winstart = x :: l' := by
          rw [← hx, ← h.seqs_nextlog, seqs, hi, ← h.window.left]
          rfl
        cases hn : a.nresult
        case some r =>
          obtain ⟨rfl, -⟩ := cons.inj ((rest_data ha hn).symm.trans hq)
          obtain ⟨s', hs', h'⟩ := h.write_data hi hn hl hlt
          exact .inr ⟨s', i, _, hs.trans hs', h'⟩
        case none =>
          have hm : a.mark := by simpa [Read, hn] using hr
          cases hp : a.pb
          case none => simp [rest, hp, hm] at hq
          case some t =>
            have hm : a.rest s.first s.current winstart =
                .mark t :: rest { a with pb := none } s.first s.current winstart :=
              rest_mark ha hp
            obtain ⟨rfl, -⟩ := cons.inj (hm.symm.trans hq)
            obtain ⟨s', hs', h'⟩ := h.write_mark hi hp (by simpa using he) hl hlt
            exact .inr ⟨s', i, _, hs.trans hs', h'⟩

theorem Inv.loop (h : Inv opts winstart winend S s l) (hw : opts.warg = false)
    (hS : Sorted Item.stamp S) (hN : ∀ l g, Path Item.stamp S l g → l.length ≤ N)
    (hm : N < l.length + m) :
    ∃ f l' g, s.loop opts m = some (output f l') ∧ (f → l' = []) ∧ Final opts winend S l' g := by
  induction m generalizing s l
  case zero =>
    have := hN l _ h.path
    omega
  case succ m ih =>
    obtain ⟨s', hs, hf, hF⟩ | ⟨s', i, x, hs, h'⟩ := h.step hw hS
    · refine ⟨s.first, l, s.seqs, ?_, fun hf => (h.first hf).left, hF⟩
      simp [State.loop, hs, hf]
    · have hl : s.loop opts (m + 1) = s'.loop opts m := by simp [State.loop, hs]
      rw [hl]
      exact ih h' (by simp; omega)

end State

end Extract
