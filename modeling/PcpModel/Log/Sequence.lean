import Mathlib.Data.List.Induction
import PcpModel.Log.Read

namespace Log

open Stdio Option Pcp

namespace Layout

variable {ρ : Type} {L : Layout} {ar : Archive} {codec : Codec ρ} {lcp : LogCtl}

section Span

def span (L : Layout) (a b : Int) : List Pdu :=
  go a (b - a).toNat
where
  go (a : Int) : Nat → List Pdu
    | 0 => []
    | n + 1 => (L.recs a).getD [] ++ go (a + 1) n

theorem span_eq_nil (h : b ≤ a) : L.span a b = [] := by
  rw [span, show (b - a).toNat = 0 by omega, span.go]

theorem span_cons (h : a < b) : L.span a b = (L.recs a).getD [] ++ L.span (a + 1) b := by
  rw [span, show (b - a).toNat = (b - (a + 1)).toNat + 1 by omega, span.go, span]

theorem span_append (h : a ≤ b) (h' : b ≤ c) : L.span a c = L.span a b ++ L.span b c := by
  obtain ⟨n, hn⟩ : ∃ n : Nat, b = a + n := ⟨(b - a).toNat, by omega⟩
  induction n generalizing a
  case zero =>
    obtain rfl : b = a := by omega
    rw [span_eq_nil le_rfl, List.nil_append]
  case succ n hi =>
    rw [span_cons (by omega), span_cons (a := a) (by omega), List.append_assoc,
      hi (by omega) (by omega)]

theorem span_concat (h : a ≤ b) : L.span a (b + 1) = L.span a b ++ (L.recs b).getD [] := by
  rw [span_append h (by omega), span_cons (a := b) (by omega), span_eq_nil le_rfl,
    List.append_nil]

theorem Void.getD (h : L.Void v) : (L.recs v).getD [] = [] := by
  obtain h | h := h <;> rw [h] <;> rfl

theorem span_void (h : L.span a b = []) (hr : ∀ u, a ≤ u → u < b → L.recs u ≠ none) :
    ∀ u, a ≤ u → u < b → L.Void u := by
  intro u h₁ h₂
  rw [span_append h₁ h₂.le, List.append_eq_nil_iff, span_cons h₂, List.append_eq_nil_iff] at h
  cases hu : L.recs u
  case none => exact absurd hu (hr u h₁ h₂)
  case some l => exact .inr (by simpa [hu] using h.right.left)

theorem span_of_void (h : ∀ u, a ≤ u → u < b → L.Void u) : L.span a b = [] := by
  obtain hle | hlt := le_or_gt b a
  · exact span_eq_nil hle
  · obtain ⟨n, hn⟩ : ∃ n : Nat, b = a + n := ⟨(b - a).toNat, by omega⟩
    induction n generalizing a
    case zero => omega
    case succ n hi =>
      rw [span_cons hlt, (h a le_rfl hlt).getD, List.nil_append]
      obtain hle | hlt := le_or_gt b (a + 1)
      · exact span_eq_nil hle
      · exact hi (fun u h₁ => h u (by omega)) hlt (by omega)

variable (hr : ∀ u, a ≤ u → u < b → L.recs u ≠ none)

include hr

theorem span_first (h : L.span a b = pb :: l) :
    ∃ v pbs, a ≤ v ∧ v < b ∧ L.recs v = some (pb :: pbs) ∧ (∀ u, a ≤ u → u < v → L.Void u) ∧
      l = pbs ++ L.span (v + 1) b := by
  obtain hle | hlt := le_or_gt b a
  · simp [span_eq_nil hle] at h
  · obtain ⟨n, hn⟩ : ∃ n : Nat, b = a + n := ⟨(b - a).toNat, by omega⟩
    induction n generalizing a
    case zero => omega
    case succ n hi =>
      rw [span_cons hlt] at h
      obtain ⟨pbs, hp⟩ := ne_none_iff_exists'.mp (hr a le_rfl hlt)
      rw [hp] at h
      cases pbs
      case nil =>
        obtain hle | hlt := le_or_gt b (a + 1)
        · simp [span_eq_nil hle] at h
        · obtain ⟨v, pbs, h₁, h₂, h₃, h₄, h₅⟩ := hi (fun u h₁ => hr u (by omega)) h hlt (by omega)
          refine ⟨v, pbs, by omega, h₂, h₃, fun u hu hv => ?_, h₅⟩
          obtain rfl | hu := hu.eq_or_lt
          · exact .inr hp
          · exact h₄ u hu hv
      case cons pb' pbs =>
        obtain ⟨rfl, rfl⟩ := List.cons.inj h
        exact ⟨a, pbs, le_rfl, hlt, hp, by omega, rfl⟩

theorem span_last (h : L.span a b = l ++ [pb]) :
    ∃ v pbs, a ≤ v ∧ v < b ∧ L.recs v = some (pbs ++ [pb]) ∧ (∀ u, v < u → u < b → L.Void u) ∧
      l = L.span a v ++ pbs := by
  obtain hle | hlt := le_or_gt b a
  · simp [span_eq_nil hle] at h
  · obtain ⟨n, hn⟩ : ∃ n : Nat, b = a + n := ⟨(b - a).toNat, by omega⟩
    induction n generalizing b
    case zero => omega
    case succ n hi =>
      obtain ⟨c, rfl⟩ : ∃ c, b = c + 1 := ⟨b - 1, by omega⟩
      rw [span_concat (by omega)] at h
      obtain ⟨pbs, hp⟩ := ne_none_iff_exists'.mp (hr c (by omega) (by omega))
      rw [hp] at h
      cases List.eq_nil_or_concat pbs
      case inl hn =>
        subst hn
        obtain hle | hlt := le_or_gt c a
        · simp [span_eq_nil hle] at h
        · obtain ⟨v, pbs, h₁, h₂, h₃, h₄, h₅⟩ := hi (fun u h₁ h₂ => hr u h₁ (by omega))
            (by simpa using h) hlt (by omega)
          refine ⟨v, pbs, h₁, by omega, h₃, fun u hu hv => ?_, h₅⟩
          obtain rfl | hv := (Int.le_of_lt_add_one hv).eq_or_lt
          · exact .inr hp
          · exact h₄ u hu hv
      case inr hx =>
        obtain ⟨pbs, pb', rfl⟩ := hx
        simp only [List.concat_eq_append, getD_some, ← List.append_assoc] at h hp
        obtain ⟨rfl, hx⟩ := List.append_inj' h rfl
        obtain rfl := List.singleton_inj.mp hx
        exact ⟨c, pbs, by omega, by omega, hp, by omega, rfl⟩

end Span

-- There is no difference between the end of a volume and the start of the next one.
structure At (L : Layout) (lcp : LogCtl) (before after : List Pdu) : Prop where
  minvol : lcp.minvol ≤ lcp.curvol
  maxvol : lcp.curvol ≤ lcp.maxvol
  recs : ∀ v, lcp.minvol ≤ v → v ≤ lcp.maxvol → L.recs v ≠ none
  split : ∃ done todo, L.On lcp done todo ∧ before = L.span lcp.minvol lcp.curvol ++ done ∧
    after = todo ++ L.span (lcp.curvol + 1) (lcp.maxvol + 1)

section At

theorem At.records (h : L.At lcp before after) :
    before ++ after = L.span lcp.minvol (lcp.maxvol + 1) := by
  obtain ⟨hl, hu, -, done, todo, ho, rfl, rfl⟩ := h
  have hd := ho.recs
  rw [span_append (c := lcp.maxvol + 1) hl (by omega),
    span_cons (a := lcp.curvol) (by omega), hd]
  simp

variable {r : ρ} (option : ReadOption)

-- Volumes without records do not count.
theorem span_skip (h : L.recs c = some done) (ha : a ≤ c) (hb : c < b)
    (hv : ∀ u, c + 1 ≤ u → u < b → L.Void u) : L.span a b = L.span a c ++ done := by
  rw [span_append (by omega) hb, span_concat ha, span_of_void hv, List.append_nil, h,
    getD_some]

theorem span_skip_back (h : L.recs c = some todo) (ha : a ≤ c) (hb : c < b)
    (hv : ∀ u, a ≤ u → u < c → L.Void u) : L.span a b = todo ++ L.span (c + 1) b := by
  rw [span_append ha hb.le, span_of_void hv, List.nil_append, span_cons hb, h, getD_some]

theorem At.read_forw (hf : L.Fits ar) (h : L.At lcp before (pb :: after)) (hc : codec.Reads pb r) :
    ∃ curvol mfp seen, logRead ar codec .forw option lcp =
        some ({ lcp with curvol, mfp, seen }, .ok r) ∧
      L.At { lcp with curvol, mfp, seen } (before ++ [pb]) after := by
  obtain ⟨hl, hu, hr, done, todo, ho, rfl, ha⟩ := h
  cases todo
  case cons pb' todo =>
    obtain ⟨rfl, rfl⟩ := List.cons.inj ha
    exact ⟨_, _, _, ho.read_forw hc, hl, hu, hr, _, _, ho.forw, by simp, rfl⟩
  case nil =>
    obtain ⟨v, pbs, h₁, h₂, h₃, h₄, rfl⟩ := span_first (fun u h₁ h₂ => hr u (by omega) (by omega))
      ha.symm
    have ⟨seen, he, hs⟩ := ho.read_forw_next option hf (by omega) (by omega) h₃
      (fun u h₁ => h₄ u (by omega)) hc
    have hd : L.span lcp.minvol v = L.span lcp.minvol lcp.curvol ++ done :=
      span_skip (by simpa using ho.recs) hl (by omega) h₄
    exact ⟨_, _, _, he, by simp only; omega, by simp only; omega, hr, [pb], pbs, ⟨rfl, h₃, hs⟩,
      by rw [hd], rfl⟩

theorem At.read_back (hf : L.Fits ar) (h : L.At lcp (before ++ [pb]) after)
    (hc : codec.Reads pb r) :
    ∃ curvol mfp seen, logRead ar codec .back option lcp =
        some ({ lcp with curvol, mfp, seen }, .ok r) ∧
      L.At { lcp with curvol, mfp, seen } before (pb :: after) := by
  obtain ⟨hl, hu, hr, done, todo, ho, hb, rfl⟩ := h
  cases List.eq_nil_or_concat done
  case inr hd =>
    obtain ⟨done, pb', rfl⟩ := hd
    rw [List.concat_eq_append, ← List.append_assoc] at hb
    obtain ⟨rfl, hx⟩ := List.append_inj' hb rfl
    obtain rfl := List.singleton_inj.mp hx
    rw [List.concat_eq_append] at ho
    exact ⟨_, _, _, ho.read_back hc, hl, hu, hr, _, _, ho.back, rfl, rfl⟩
  case inl hd =>
    subst hd
    rw [List.append_nil] at hb
    obtain ⟨v, pbs, h₁, h₂, h₃, h₄, rfl⟩ := span_last (fun u h₁ h₂ => hr u h₁ (by omega)) hb.symm
    have ⟨seen, he, hs⟩ := ho.read_back_prev option hf h₂ h₁ h₃ h₄ hc
    have hd : L.span (v + 1) (lcp.maxvol + 1) = todo ++ L.span (lcp.curvol + 1) (lcp.maxvol + 1) :=
      span_skip_back ho.recs (by omega) (by omega) fun u h₁ => h₄ u (by omega)
    exact ⟨_, _, _, he, by simp only; omega, by simp only; omega, hr, pbs, [pb], ⟨rfl, h₃, hs⟩,
      rfl, by rw [hd]; rfl⟩

theorem At.read_forw_end (codec : Codec ρ) (hf : L.Fits ar) (h : L.At lcp before []) :
    ∃ lcp' f, logRead ar codec .forw option lcp = some (lcp', .error pmErrEol) ∧
      lcp'.mfp = some f := by
  obtain ⟨hl, hu, hr, done, todo, ho, -, ha⟩ := h
  obtain ⟨rfl, hn⟩ := List.append_eq_nil_iff.mp ha.symm
  obtain hm | hm := hu.eq_or_lt
  · exact ⟨_, _, ho.read_forw_last option hm.ge, ho.mfp⟩
  · have hv := span_void hn fun u h₁ h₂ => hr u (by omega) (by omega)
    obtain ⟨_, _, _, he, ht⟩ := ho.read_forw_end option codec hf hm fun u h₁ h₂ =>
      hv u (by omega) (by omega)
    exact ⟨_, _, he, (ht.good (hr _ (by omega) le_rfl)).right⟩

theorem At.read_back_end (codec : Codec ρ) (hf : L.Fits ar) (h : L.At lcp [] after) :
    ∃ lcp', logRead ar codec .back option lcp = some (lcp', .error pmErrEol) ∧
      L.At lcp' [] after := by
  obtain ⟨hl, hu, hr, done, todo, ho, hb, rfl⟩ := h
  obtain ⟨hn, rfl⟩ := List.append_eq_nil_iff.mp hb.symm
  obtain hm | hm := hl.eq_or_lt
  · exact ⟨_, ho.read_back_first option hm.ge, hl, hu, hr, _, _, ho, hb, rfl⟩
  · have hv := span_void hn fun u h₁ h₂ => hr u h₁ (by omega)
    have ⟨c, m, s, he, ht⟩ := ho.read_back_start option codec hf hm hv
    obtain ⟨hc, hp⟩ := ht.good (hr _ le_rfl (by omega))
    subst hc hp
    have hz : L.recs lcp.minvol = some [] := by
      cases hv lcp.minvol le_rfl hm with
      | inl h => exact absurd h (hr _ le_rfl (by omega))
      | inr h => exact h
    refine ⟨_, he, le_rfl, by simp only; omega, hr, [], [], ⟨rfl, hz, ht.seen⟩, ?_, ?_⟩
    · simp [span_eq_nil]
    · have hd : L.span (lcp.minvol + 1) (lcp.maxvol + 1) =
          todo ++ L.span (lcp.curvol + 1) (lcp.maxvol + 1) :=
        span_skip_back ho.recs (by omega) (by omega) fun u h₁ h₂ => hv u (by omega) h₂
      exact hd.symm

end At

end Layout

-- The end of the last volume, as it is found by __pmLogSetTime when there is no index.
def logSeekEnd (ar : Archive) (lcp : LogCtl) : LogCtl :=
  let (lcp, _) := logChangeVol ar lcp lcp.maxvol
  { lcp with mfp := lcp.mfp.map (·.seekEnd) }

section ReadMany

variable {ρ : Type} {L : Layout} {ar : Archive} {codec : Codec ρ} {lcp : LogCtl}

def readMany (ar : Archive) (codec : Codec ρ) (mode : Mode) (option : ReadOption) (lcp : LogCtl) :
    Nat → Option (LogCtl × List (Except Int ρ))
  | 0 => some (lcp, [])
  | n + 1 => do
    let (lcp, r) ← logRead ar codec mode option lcp
    let (lcp, rs) ← readMany ar codec mode option lcp n
    return (lcp, r :: rs)

variable {result : Pdu → ρ} (option : ReadOption)

theorem readMany_forw (hf : L.Fits ar) (h : L.At lcp before after)
    (hc : ∀ pb ∈ after, codec.Reads pb (result pb)) :
    ∃ lcp', readMany ar codec .forw option lcp (after.length + 1) =
      some (lcp', after.map (.ok <| result ·) ++ [.error pmErrEol]) := by
  induction after generalizing lcp before
  case nil =>
    have ⟨lcp', _, he, _⟩ := h.read_forw_end option codec hf
    exact ⟨lcp', by simp [readMany, he]⟩
  case cons pb after hi =>
    have ⟨hp, hc⟩ := List.forall_mem_cons.mp hc
    have ⟨_, _, _, he, ha⟩ := h.read_forw option hf hp
    have ⟨lcp', hx⟩ := hi ha hc
    exact ⟨lcp', by simp [readMany, he] at hx ⊢; simp [hx]⟩

theorem readMany_back (hf : L.Fits ar) (h : L.At lcp before after)
    (hc : ∀ pb ∈ before, codec.Reads pb (result pb)) :
    ∃ lcp', readMany ar codec .back option lcp (before.length + 1) =
      some (lcp', before.reverse.map (.ok <| result ·) ++ [.error pmErrEol]) := by
  induction before using List.reverseRecOn generalizing lcp after
  case nil =>
    have ⟨lcp', he, _⟩ := h.read_back_end option codec hf
    exact ⟨lcp', by simp [readMany, he]⟩
  case append_singleton before pb hi =>
    have ⟨hc, hp⟩ := List.forall_mem_append.mp hc
    have ⟨_, _, _, he, ha⟩ := h.read_back option hf (hp pb (by simp))
    have ⟨lcp', hx⟩ := hi ha hc
    rw [List.length_append, readMany, he]
    simp [hx]

variable {minvol maxvol : Int}

theorem logOpen_at (hf : L.Fits ar) (h₀ : 0 ≤ minvol) (hm : minvol ≤ maxvol)
    (hr : ∀ v, minvol ≤ v → v ≤ maxvol → L.recs v ≠ none) :
    L.At (logOpen ar minvol maxvol) [] (L.span minvol (maxvol + 1)) := by
  obtain ⟨pbs, hp⟩ := ne_none_iff_exists'.mp (hr minvol le_rfl hm)
  have hn : L.Sees (⟨minvol, maxvol, -1, none, []⟩ : LogCtl).seen := nofun
  have ⟨seen, sts, he, _, hs⟩ := hf.changeVol_good hn (show (-1 : Int) ≠ minvol by omega) hp
  rw [logOpen, he]
  refine ⟨le_rfl, hm, hr, [], pbs, ⟨rfl, hp, hs⟩, ?_, ?_⟩
  · simp [Layout.span_eq_nil]
  · simp [Layout.span_cons (show minvol < maxvol + 1 by omega), hp]

theorem logSeekEnd_at (hf : L.Fits ar) (h : L.At lcp before after) :
    L.At (logSeekEnd ar lcp) (before ++ after) [] := by
  have hs := h.records
  obtain ⟨hl, hu, hr, done, todo, ho, -, -⟩ := h
  obtain ⟨pbs, hp⟩ := ne_none_iff_exists'.mp (hr lcp.maxvol (by omega) le_rfl)
  have hn : L.span (lcp.maxvol + 1) (lcp.maxvol + 1) = [] := Layout.span_eq_nil le_rfl
  have hx : before ++ after = L.span lcp.minvol lcp.maxvol ++ pbs := by
    rw [hs, Layout.span_concat (by omega), hp, getD_some]
  have hz {l q} : (File.between lcp.maxvol (L.header lcp.maxvol ++ l) q).seekEnd =
      .between lcp.maxvol (L.header lcp.maxvol ++ (l ++ q)) [] := by
    rw [File.between_seekEnd, List.append_assoc]
  by_cases hc : lcp.curvol = lcp.maxvol
  · have he : logSeekEnd ar lcp = { lcp with mfp := some (L.position lcp.maxvol pbs []) } := by
      have hd : pbs = done ++ todo := some.inj <| hp.symm.trans (hc ▸ ho.recs)
      simp [logSeekEnd, logChangeVol, hc, ho.mfp, hd, Layout.position, hz]
    rw [he]
    exact ⟨hl, hu, hr, pbs, [], ⟨by simp [hc], by simp [hc, hp], ho.seen⟩, by simp [hx, hc],
      by simp [hc, hn]⟩
  · obtain ⟨seen, sts, he, _, hs⟩ := hf.changeVol_good ho.seen hc hp
    have he : logSeekEnd ar lcp = { lcp with
        seen, curvol := lcp.maxvol, mfp := some (L.position lcp.maxvol pbs []) } := by
      simp [logSeekEnd, he, Layout.position, File.between_seekEnd]
    rw [he]
    exact ⟨by simp only; omega, le_rfl, hr, pbs, [], ⟨rfl, by simp [hp], hs⟩, hx, by simp [hn]⟩

theorem logRead_sequence (hf : L.Fits ar) (h₀ : 0 ≤ minvol) (hm : minvol ≤ maxvol)
    (hr : ∀ v, minvol ≤ v → v ≤ maxvol → L.recs v ≠ none)
    (hc : ∀ pb ∈ L.span minvol (maxvol + 1), codec.Reads pb (result pb)) :
    let recs := L.span minvol (maxvol + 1)
    let lcp := logOpen ar minvol maxvol
    (∃ lcp', readMany ar codec .forw option lcp (recs.length + 1) =
      some (lcp', recs.map (.ok <| result ·) ++ [.error pmErrEol])) ∧
    (∃ lcp', readMany ar codec .back option (logSeekEnd ar lcp) (recs.length + 1) =
      some (lcp', recs.reverse.map (.ok <| result ·) ++ [.error pmErrEol])) ∧
    ∀ lcp before after lcp' r, lcp.minvol = minvol → lcp.maxvol = maxvol → L.At lcp before after →
      logRead ar codec .forw option lcp = some (lcp', .ok r) →
      ∃ lcp'', logRead ar codec .back option lcp' = some (lcp'', .ok r) ∧
        L.At lcp'' before after := by
  intro recs lcp
  have ha : L.At lcp [] recs := logOpen_at hf h₀ hm hr
  refine ⟨readMany_forw option hf ha hc, readMany_back option hf (logSeekEnd_at hf ha) hc, ?_⟩
  rintro lcp before after lcp' r rfl rfl ha hl
  cases after
  case nil =>
    have ⟨_, _, he, _⟩ := ha.read_forw_end option codec hf
    cases he.symm.trans hl
  case cons pb after =>
    have hp := hc pb <| ha.records ▸ by simp
    have ⟨_, _, _, he, ha'⟩ := ha.read_forw option hf hp
    cases he.symm.trans hl
    have ⟨_, _, _, he, ha''⟩ := ha'.read_back option hf hp
    exact ⟨_, he, ha''⟩

theorem logRead_sequence_empty_volume :
    let ar := (Layout.ofVolumes [some [⟨[1], by decide⟩, ⟨[], by decide⟩], some [],
      some [⟨[2, 3], by decide⟩]]).archive
    ∃ lcp, readMany ar ⟨fun _ => true, some⟩ .back .next (logSeekEnd ar (logOpen ar 0 2)) 4 =
      some (lcp, [.ok [2, 3], .ok [], .ok [1], .error pmErrEol]) := by
  have hr (v : Int) (h₀ : 0 ≤ v) (hv : v ≤ 2) :
      (Layout.ofVolumes [some [⟨[1], by decide⟩, ⟨[], by decide⟩], some [],
        some [⟨[2, 3], by decide⟩]]).recs v ≠ none := by
    obtain rfl | rfl | rfl : v = 0 ∨ v = 1 ∨ v = 2 := by omega
    all_goals nofun
  have hc (pb : Pdu) : Codec.Reads ⟨fun _ => true, some⟩ pb pb.data := ⟨rfl, rfl⟩
  exact (logRead_sequence .next (Layout.archive_fits (by decide)) le_rfl (by decide) hr
    fun pb _ => hc pb).right.left

end ReadMany

end Log
