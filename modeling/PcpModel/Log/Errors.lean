import Mathlib.Data.Int.LeastGreatest
import PcpModel.Library.Run
import PcpModel.Log.Read

namespace Log

open Stdio

inductive ReadOp
  | changeVol (vol : Int)
  | read (mode : Mode) (option : ReadOption)

-- If the last call was one of __pmLogRead that failed, `failed` is the stream as it was before.
structure Reader where
  lcp : LogCtl
  failed : Option (File Int)

namespace Reader

variable {ρ : Type} {L : Layout} {ar : Archive} {codec : Codec ρ} {t : Reader}

def step (ar : Archive) (codec : Codec ρ) (t : Reader) : ReadOp → Option Reader
  | .changeVol vol => some ⟨(logChangeVol ar t.lcp vol).1, none⟩
  | .read mode option => do
    match ← logRead ar codec mode option t.lcp with
    | (lcp, .ok _) => return ⟨lcp, none⟩
    | (lcp, .error _) => return ⟨lcp, t.lcp.mfp⟩

-- After an error the stream is where it was before, or at the start of another volume.
structure Sound (t : Reader) : Prop where
  stream : ∃ f, t.lcp.mfp = some f ∧ f.name = t.lcp.curvol
  failed : ∀ f, t.failed = some f →
    t.lcp.mfp = some f ∨ ∃ g, t.lcp.mfp = some g ∧ g.name ≠ f.name ∧ g.pos = labelSize

-- A volume that is asked for, or that a search for a record ends with, can be read.
def Allows (L : Layout) (t : Reader) : ReadOp → Prop
  | .changeVol vol => t.lcp.curvol = vol ∨ L.recs vol ≠ none
  | .read .forw _ => ∀ f, t.lcp.mfp = some f → f.pos = f.data.length →
    t.lcp.curvol < t.lcp.maxvol →
    (∃ v, t.lcp.curvol < v ∧ v ≤ t.lcp.maxvol ∧ ¬L.Void v) ∨
      L.recs t.lcp.maxvol ≠ none ∧ f.pos = labelSize
  | .read .back _ => ∀ f, t.lcp.mfp = some f → f.pos = labelSize → t.lcp.minvol < t.lcp.curvol →
    (∃ v, t.lcp.minvol ≤ v ∧ v < t.lcp.curvol ∧ ¬L.Void v) ∨ L.recs t.lcp.minvol ≠ none

def Between (L : Layout) (t : Reader) : Prop :=
  (∃ done todo, L.On t.lcp done todo) ∧ ∀ f, t.failed = some f →
    t.lcp.mfp = some f ∨ ∃ g, t.lcp.mfp = some g ∧ g.name ≠ f.name ∧ g.pos = labelSize

theorem Between.sound (h : t.Between L) : t.Sound where
  stream := have ⟨_, _, ho⟩ := h.left; ⟨_, ho.mfp, rfl⟩
  failed := h.right

theorem Between.ok (h : L.On lcp' done todo) : Between L ⟨lcp', none⟩ :=
  ⟨⟨done, todo, h⟩, fun _ h => absurd h (by simp)⟩

theorem exists_cons_of_not_void (h : ¬L.Void v) : ∃ pb pbs, L.recs v = some (pb :: pbs) := by
  unfold Layout.Void at h
  cases hr : L.recs v
  case none => simp [hr] at h
  case some l =>
    cases l
    case nil => simp [hr] at h
    case cons pb pbs => exact ⟨pb, pbs, rfl⟩

theorem exists_concat_of_not_void (h : ¬L.Void v) : ∃ pbs pb, L.recs v = some (pbs ++ [pb]) := by
  have ⟨pb, pbs, hr⟩ := exists_cons_of_not_void h
  cases List.eq_nil_or_concat (pb :: pbs)
  case inl h => contradiction
  case inr h =>
    obtain ⟨l, pb', h⟩ := h
    exact ⟨l, pb', by rw [hr, h, List.concat_eq_append]⟩

theorem first_not_void (h : ∃ v, a < v ∧ v ≤ b ∧ ¬L.Void v) :
    ∃ v, (a < v ∧ v ≤ b ∧ ¬L.Void v) ∧ ∀ u, a < u → u < v → L.Void u := by
  obtain ⟨v, hv, hl⟩ := Int.exists_least_of_bdd ⟨a, fun z hz => hz.left.le⟩ h
  refine ⟨v, hv, fun u h₁ h₂ => ?_⟩
  by_contra hu
  have := hl u ⟨h₁, by omega, hu⟩
  omega

theorem last_not_void (h : ∃ v, a ≤ v ∧ v < b ∧ ¬L.Void v) :
    ∃ v, (a ≤ v ∧ v < b ∧ ¬L.Void v) ∧ ∀ u, v < u → u < b → L.Void u := by
  obtain ⟨v, hv, hl⟩ := Int.exists_greatest_of_bdd ⟨b, fun z hz => hz.right.left.le⟩ h
  refine ⟨v, hv, fun u h₁ h₂ => ?_⟩
  by_contra hu
  have := hl u ⟨by omega, h₂, hu⟩
  omega

section Allows

theorem position_at_end (L : Layout) (v : Int) (done todo : List Pdu) :
    (L.position v done todo).pos = (L.position v done todo).data.length ↔ todo = [] := by
  simp only [Layout.position, File.between, List.length_append]
  cases todo
  case nil => simp
  case cons pb todo =>
    have := @records_pos pb todo
    simp only [reduceCtorEq, iff_false]
    omega

theorem position_at_start (L : Layout) (v : Int) (done todo : List Pdu) :
    (L.position v done todo).pos = labelSize ↔ done = [] := by
  rw [Layout.position_pos]
  cases done
  case nil => simp
  case cons pb done =>
    have := @records_pos pb done
    simp only [reduceCtorEq, iff_false]
    omega

variable {done todo : List Pdu} (option : ReadOption)

theorem allows_forw (ho : L.On t.lcp done todo) :
    t.Allows L (.read .forw option) ↔ (todo = [] → t.lcp.curvol < t.lcp.maxvol →
      (∃ v, t.lcp.curvol < v ∧ v ≤ t.lcp.maxvol ∧ ¬L.Void v) ∨
        L.recs t.lcp.maxvol ≠ none ∧ done = []) := by
  simp [Allows, ho.mfp, position_at_end L t.lcp.curvol done todo,
    position_at_start L t.lcp.curvol done todo]

theorem allows_back (ho : L.On t.lcp done todo) :
    t.Allows L (.read .back option) ↔ (done = [] → t.lcp.minvol < t.lcp.curvol →
      (∃ v, t.lcp.minvol ≤ v ∧ v < t.lcp.curvol ∧ ¬L.Void v) ∨ L.recs t.lcp.minvol ≠ none) := by
  simp [Allows, ho.mfp, position_at_start L t.lcp.curvol done todo]

end Allows

section Step

def Decides (L : Layout) (ar : Archive) (codec : Codec ρ) (t : Reader) (op : ReadOp) : Prop :=
  ∃ t', t.step ar codec op = some t' ∧ (t'.Sound ↔ t.Allows L op) ∧ (t.Allows L op → t'.Between L)

variable {lcp' : LogCtl}

theorem decides_ok (he : logRead ar codec mode option t.lcp = some (lcp', .ok r))
    (ho : L.On lcp' done todo) (ha : t.Allows L (.read mode option)) :
    t.Decides L ar codec (.read mode option) := by
  have hb := Between.ok ho
  exact ⟨_, by simp [step, he], iff_of_true hb.sound ha, fun _ => hb⟩

theorem decides_same (he : logRead ar codec mode option t.lcp = some (t.lcp, .error e))
    (ho : L.On t.lcp done todo) (ha : t.Allows L (.read mode option)) :
    t.Decides L ar codec (.read mode option) := by
  have hb : Between L ⟨t.lcp, t.lcp.mfp⟩ := ⟨⟨done, todo, ho⟩, fun _ => .inl⟩
  exact ⟨_, by simp [step, he], iff_of_true hb.sound ha, fun _ => hb⟩

theorem decides_start (he : logRead ar codec mode option t.lcp = some (lcp', .error e))
    (ho : L.On t.lcp done todo) (ho' : L.On lcp' [] []) (hn : lcp'.curvol ≠ t.lcp.curvol)
    (ha : t.Allows L (.read mode option)) :
    t.Decides L ar codec (.read mode option) := by
  have hb : Between L ⟨lcp', t.lcp.mfp⟩ := by
    refine ⟨⟨[], [], ho'⟩, fun f h => .inr ⟨_, ho'.mfp, ?_, (position_at_start ..).mpr rfl⟩⟩
    cases ho.mfp.symm.trans h
    exact hn
  exact ⟨_, by simp [step, he], iff_of_true hb.sound ha, fun _ => hb⟩

theorem decides_lost (he : logRead ar codec mode option t.lcp = some (lcp', .error e))
    (hs : ¬Sound ⟨lcp', t.lcp.mfp⟩) (ha : ¬t.Allows L (.read mode option)) :
    t.Decides L ar codec (.read mode option) :=
  ⟨_, by simp [step, he], iff_of_false hs ha, (absurd · ha)⟩

theorem not_sound_of_tried (ht : L.Tried lcp' v f) (hr : L.recs v = none) :
    ¬Sound ⟨lcp', m⟩ := by
  intro hs
  obtain ⟨g, hg, hn⟩ := hs.stream
  have ⟨hc, hm⟩ := ht.bad hr
  exact hc (hn.symm.trans (hm g hg))

variable (hf : L.Fits ar)

include hf

theorem decides_changeVol (hb : t.Between L) : t.Decides L ar codec (.changeVol vol) := by
  obtain ⟨done, todo, ho⟩ := hb.left
  refine ⟨_, rfl, ?_⟩
  by_cases hv : t.lcp.curvol = vol
  · have he : logChangeVol ar t.lcp vol = (t.lcp, 0) := by simp [logChangeVol, hv]
    have hb' := Between.ok ho
    rw [he]
    exact ⟨iff_of_true hb'.sound (.inl hv), fun _ => hb'⟩
  · cases hr : L.recs vol
    case some pbs =>
      obtain ⟨seen, sts, he, _, hs⟩ := hf.changeVol_good ho.seen hv hr
      rw [he]
      have ho' : L.On { t.lcp with seen, mfp := some (L.position vol [] pbs), curvol := vol }
          [] pbs :=
        ⟨rfl, hr, hs⟩
      have hb' := Between.ok ho'
      exact ⟨iff_of_true hb'.sound (.inr (by simp [hr])), fun _ => hb'⟩
    case none =>
      obtain ⟨seen, mfp, sts, he, _, hs, hm⟩ := hf.changeVol_bad ho.seen hv hr
      rw [he]
      have ha : ¬t.Allows L (.changeVol vol) := not_or.mpr ⟨hv, absurd hr⟩
      refine ⟨iff_of_false (fun hs => ?_) ha, (absurd · ha)⟩
      obtain ⟨f, hf, hn⟩ := hs.stream
      exact hv (hn.symm.trans (hm f hf))

variable (hc : ∀ v pbs, L.recs v = some pbs → ∀ pb ∈ pbs, ∃ r, codec.Reads pb r)

include hc

theorem decides_forw (hb : t.Between L) : t.Decides L ar codec (.read .forw option) := by
  have ⟨done, todo, ho⟩ := hb.left
  have ha := allows_forw option ho
  cases todo
  case cons pb todo =>
    have ⟨r, hp⟩ := hc _ _ ho.recs pb (by simp)
    exact decides_ok (ho.read_forw hp) ho.forw (ha.mpr fun h => by simp at h)
  case nil =>
    obtain hm | hm := le_or_gt t.lcp.maxvol t.lcp.curvol
    · exact decides_same (ho.read_forw_last option hm) ho (ha.mpr fun _ h => by omega)
    by_cases hv : ∃ v, t.lcp.curvol < v ∧ v ≤ t.lcp.maxvol ∧ ¬L.Void v
    · obtain ⟨v, ⟨h₁, h₂, h₃⟩, hu⟩ := first_not_void hv
      obtain ⟨pb, pbs, hr⟩ := exists_cons_of_not_void h₃
      have ⟨r, hp⟩ := hc _ _ hr pb (by simp)
      have ⟨seen, he, hs⟩ := ho.read_forw_next option hf h₁ h₂ hr hu hp
      have ho' : L.On { t.lcp with seen, curvol := v, mfp := some (L.position v [pb] pbs) }
          [pb] pbs :=
        ⟨rfl, hr, hs⟩
      exact decides_ok he ho' (ha.mpr fun _ _ => .inl hv)
    · have hu : ∀ u, t.lcp.curvol < u → u ≤ t.lcp.maxvol → L.Void u := by
        intro u h₁ h₂
        by_contra h₃
        exact hv ⟨u, h₁, h₂, h₃⟩
      have ⟨c, m, s, he, ht⟩ := ho.read_forw_end option codec hf hm hu
      by_cases hr : L.recs t.lcp.maxvol = none
      · refine decides_lost he (not_sound_of_tried ht hr) (ha.not.mpr fun h => ?_)
        exact (h rfl hm).elim hv fun h => h.left hr
      obtain ⟨hc', hp⟩ := ht.good hr
      subst hc' hp
      have hz := (hu t.lcp.maxvol hm le_rfl).resolve_left hr
      by_cases hd : done = []
      · subst hd
        refine decides_start he ho ⟨?_, hz, ht.seen⟩ hm.ne' ?_
        · rw [Layout.position_pos, ← Layout.position_pos, Layout.position_seekSet]
        · exact ha.mpr fun _ _ => .inr ⟨hr, rfl⟩
      · refine decides_lost he (fun hs => ?_) (ha.not.mpr fun h => ?_)
        · obtain he | ⟨g, hg, _, hp⟩ := hs.failed _ ho.mfp
          · exact hm.ne' (congrArg File.name (Option.some.inj he))
          · cases hg
            exact hd ((position_at_start _ _ _ []).mp hp)
        · exact (h rfl hm).elim hv fun h => hd h.right

theorem decides_back (hb : t.Between L) : t.Decides L ar codec (.read .back option) := by
  have ⟨done, todo, ho⟩ := hb.left
  have ha := allows_back option ho
  cases List.eq_nil_or_concat done
  case inr hd =>
    obtain ⟨done, pb, rfl⟩ := hd
    rw [List.concat_eq_append] at ho ha
    have ⟨r, hp⟩ := hc _ _ ho.recs pb (by simp)
    exact decides_ok (ho.read_back hp) ho.back (ha.mpr fun h => by simp at h)
  case inl hd =>
    subst hd
    obtain hm | hm := le_or_gt t.lcp.curvol t.lcp.minvol
    · exact decides_same (ho.read_back_first option hm) ho (ha.mpr fun _ h => by omega)
    by_cases hv : ∃ v, t.lcp.minvol ≤ v ∧ v < t.lcp.curvol ∧ ¬L.Void v
    · obtain ⟨v, ⟨h₁, h₂, h₃⟩, hu⟩ := last_not_void hv
      obtain ⟨pbs, pb, hr⟩ := exists_concat_of_not_void h₃
      have ⟨r, hp⟩ := hc _ _ hr pb (by simp)
      have ⟨seen, he, hs⟩ := ho.read_back_prev option hf h₂ h₁ hr hu hp
      have ho' : L.On { t.lcp with seen, curvol := v, mfp := some (L.position v pbs [pb]) }
          pbs [pb] :=
        ⟨rfl, hr, hs⟩
      exact decides_ok he ho' (ha.mpr fun _ _ => .inl hv)
    · have hu : ∀ u, t.lcp.minvol ≤ u → u < t.lcp.curvol → L.Void u := by
        intro u h₁ h₂
        by_contra h₃
        exact hv ⟨u, h₁, h₂, h₃⟩
      have ⟨c, m, s, he, ht⟩ := ho.read_back_start option codec hf hm hu
      by_cases hr : L.recs t.lcp.minvol = none
      · refine decides_lost he (not_sound_of_tried ht hr) (ha.not.mpr fun h => ?_)
        exact (h rfl hm).elim hv (· hr)
      · obtain ⟨hc', hp⟩ := ht.good hr
        subst hc' hp
        have hz := (hu t.lcp.minvol le_rfl hm).resolve_left hr
        exact decides_start he ho ⟨rfl, hz, ht.seen⟩ hm.ne
          (ha.mpr fun _ _ => .inr hr)

theorem decides (hb : t.Between L) (op : ReadOp) : t.Decides L ar codec op := by
  cases op
  case changeVol => exact decides_changeVol hf hb
  case read mode option =>
    cases mode
    case forw => exact decides_forw hf hc hb
    case back => exact decides_back hf hc hb

-- The condition is one about the calls that are made, in the states in which they are made.
theorem exec_attached (ho : L.On lcp' done todo) (ops : List ReadOp) :
    Run.Always (step ar codec) Sound ⟨lcp', none⟩ ops ↔
      Run.Guarded (step ar codec) (Allows L) ⟨lcp', none⟩ ops :=
  Run.always_iff_guarded (fun _ => Between.sound)
    (fun _ op hb _ => decides hf hc hb op) (Between.ok ho) Run.guarded_true

omit hf hc

-- A missing volume is skipped by a read that finds a record behind it.
theorem exec_attached_gap :
    let L : Layout := .ofVolumes [some [⟨[1], by decide⟩], none, some [⟨[2], by decide⟩]]
    Run.Always (step L.archive ⟨fun _ => true, some⟩) Sound
      ⟨⟨0, 2, 0, some (L.position 0 [] [⟨[1], by decide⟩]), []⟩, none⟩
      [.read .forw .next, .read .forw .next] := by
  intro L
  have ho : L.On ⟨0, 2, 0, some (L.position 0 [] [⟨[1], by decide⟩]), []⟩ [] [⟨[1], by decide⟩] :=
    ⟨rfl, rfl, nofun⟩
  refine (exec_attached (Layout.archive_fits (by decide)) (fun _ _ _ pb _ => ⟨_, rfl, rfl⟩)
    ho _).mpr
    ⟨(allows_forw .next ho).mpr nofun, fun t h => ⟨?_, fun _ _ => trivial⟩⟩
  rw [step, ho.read_forw ⟨rfl, rfl⟩] at h
  cases h
  exact (allows_forw .next ho.forw).mpr fun _ _ => .inl ⟨2, by decide, by decide, nofun⟩

-- There is no stream any more when the last volume is missing.
theorem exec_missing_not_sound :
    let ar := (Layout.ofVolumes [some [⟨[1], by decide⟩], none]).archive
    ∃ t, Run.exec (step ar ⟨fun _ => true, some⟩) ⟨logOpen ar 0 1, none⟩
      [.read .forw .next, .read .forw .next] = some t ∧ ¬t.Sound := by
  intro ar
  obtain ⟨t, ht, hn⟩ := Option.map_eq_some_iff.mp <|
    show (Run.exec (step ar ⟨fun _ => true, some⟩) ⟨logOpen ar 0 1, none⟩
      [.read .forw .next, .read .forw .next]).map (·.lcp.mfp.isNone) = some true by decide +kernel
  refine ⟨t, ht, fun hs => ?_⟩
  obtain ⟨f, hf, -⟩ := hs.stream
  simp [hf] at hn

end Step

end Reader

end Log
