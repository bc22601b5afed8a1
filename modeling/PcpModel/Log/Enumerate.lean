import PcpModel.Log.Facing

namespace Log

open Stdio List Pcp

namespace Layout

variable {α : Type} {L : Layout} {ar : Archive} {codec : Codec (Result α)} {lcp : LogCtl}
  {mode : Mode} {origin : Int} {result : Pdu → Result α}

section Loops

variable (hf : L.Fits ar)

include hf

-- The records that are read back lie beyond the origin, until there is one that does not.
theorem Facing.resync (h : L.Facing lcp mode behind ahead)
    (hc : ∀ pb ∈ behind, codec.Reads pb (result pb))
    (hs : behind.Pairwise fun pb₁ pb₂ => mode.Le (result pb₂).timestamp (result pb₁).timestamp)
    (ho : ∀ pb ∈ behind, (result pb).timestamp ≠ origin)
    (hk : mode = .back → L.recs lcp.maxvol ≠ some [] ∨
      (∃ pb ∈ behind, mode.Skips origin (result pb).timestamp) ∨
      behind = [] ∧ lcp.curvol = lcp.maxvol)
    (hn : behind.length < n) :
    ∃ lcp' behind' ahead', resync ar codec mode origin lcp n = some (lcp', none) ∧
      L.Facing lcp' mode behind' ahead' ∧ behind'.reverse ++ ahead' = behind.reverse ++ ahead ∧
      ∀ pb ∈ behind', mode.Skips origin (result pb).timestamp := by
  obtain ⟨n, rfl⟩ : ∃ m, n = m + 1 := ⟨n - 1, by omega⟩
  induction behind generalizing lcp ahead n
  case nil =>
    have hk' (hm : mode.flip = .forw) :
        lcp.curvol = lcp.maxvol ∨ L.recs lcp.maxvol ≠ some [] := by
      have := hk (by rw [← mode.flip_flip, hm]; rfl)
      simp only [not_mem_nil, false_and, exists_false, true_and, false_or] at this
      exact this.symm
    obtain ⟨lcp', he, ha⟩ := h.flip.read_end_keep codec hf hk'
    exact ⟨lcp', [], ahead, by simp [Log.resync, he], mode.flip_flip ▸ ha.flip, rfl, nofun⟩
  case cons pb behind hi =>
    have ⟨hp, hc⟩ := forall_mem_cons.mp hc
    have ⟨hpo, ho⟩ := forall_mem_cons.mp ho
    have ⟨hps, hs⟩ := pairwise_cons.mp hs
    obtain ⟨c, m, s, he, ha⟩ := h.flip.read hf hp
    have ha' := mode.flip_flip ▸ ha.flip
    by_cases hsk : mode.Skips origin (result pb).timestamp
    · refine ⟨_, behind, pb :: ahead, by simp [Log.resync, he, hsk], ha', by simp, fun d hd => ?_⟩
      exact .of_le (hps d hd) hsk
    · obtain ⟨n, rfl⟩ : ∃ m, n = m + 1 := ⟨n - 1, by simp at hn; omega⟩
      have hne : ¬(result pb).timestamp - origin = 0 := by omega
      have hk' (hm : mode = .back) : L.recs lcp.maxvol ≠ some [] ∨
          ∃ pb ∈ behind, mode.Skips origin (result pb).timestamp := by
        obtain h | ⟨d, hd, h⟩ | ⟨h, _⟩ := hk hm
        · exact .inl h
        · obtain rfl | hd := mem_cons.mp hd
          · contradiction
          · exact .inr ⟨d, hd, h⟩
        · contradiction
      obtain ⟨lcp', b, a, he', hx⟩ := hi ha' hc hs ho (fun hm => (hk' hm).imp id .inl) n
        (by simpa using hn)
      refine ⟨lcp', b, a, ?_, by simpa using hx⟩
      rw [Log.resync, he]
      simpa [hsk, hne] using he'

theorem Facing.scan_skip (h : L.Facing lcp mode behind (skip ++ ahead))
    (hc : ∀ pb ∈ skip, codec.Reads pb (result pb))
    (hs : ∀ pb ∈ skip, mode.Skips origin (result pb).timestamp) :
    ∃ curvol mfp seen, scan ar codec mode origin lcp (skip.length + n) =
        scan ar codec mode origin { lcp with curvol, mfp, seen } n ∧
      L.Facing { lcp with curvol, mfp, seen } mode (skip.reverse ++ behind) ahead := by
  induction skip generalizing lcp behind
  case nil => exact ⟨_, _, _, by simp, h⟩
  case cons pb skip hi =>
    have ⟨hp, hc⟩ := forall_mem_cons.mp hc
    have ⟨hps, hs⟩ := forall_mem_cons.mp hs
    obtain ⟨c, m, s, he, ha⟩ := h.read hf hp
    obtain ⟨c', m', s', he', ha'⟩ := hi ha hc hs
    refine ⟨c', m', s', ?_, by simpa using ha'⟩
    rw [← he', length_cons, Nat.add_right_comm, scan, he]
    simp [hps]

end Loops

section Asked

-- The metrics that are asked for have values in the record, and they have descriptors.
structure Asked (prof : Profile) (pmidlist : List Nat) (r : Result α) : Prop where
  present : ∀ pmid ∈ pmidlist, ∃ vset ∈ r.vset, vset.pmid = pmid
  known : ∀ pmid ∈ pmidlist, ∃ indom, prof.lookupDesc pmid = .ok indom

def kept (prof : Profile) (vset : ValueSet α) : ValueSet α :=
  match prof.lookupDesc vset.pmid with
  | .ok (some indom) => { vset with vals := vset.vals.map (·.filter (prof.inProfile indom ·.1)) }
  | _ => vset

def selected (prof : Profile) (pmidlist : List Nat) (r : Result α) : Result α :=
  if pmidlist.isEmpty then r
  else { r with vset := pmidlist.filterMap fun pmid =>
    (r.vset.find? (·.pmid = pmid)).map (kept prof) }

variable {prof : Profile} {pmidlist : List Nat} {r : Result α}

theorem filterSet_eq {vset : ValueSet α} (h : prof.lookupDesc vset.pmid = .ok indom) :
    filterSet prof vset = .ok (kept prof vset) := by
  obtain ⟨pmid, vals⟩ := vset
  unfold filterSet kept
  cases indom <;> rcases vals with e | (_ | ⟨v, vals⟩)
  all_goals simp_all [Except.map, pure, Except.pure, bind, Except.bind]

theorem mapM_filterSet (h : Asked prof pmidlist r) :
    (pmidlist.map fun pmid => (r.vset.find? (·.pmid = pmid)).getD ⟨pmid, .ok []⟩).mapM
        (filterSet prof) =
      .ok (pmidlist.filterMap fun pmid => (r.vset.find? (·.pmid = pmid)).map (kept prof)) := by
  obtain ⟨hp, hk⟩ := h
  induction pmidlist
  case nil => rfl
  case cons pmid pmidlist hi =>
    have ⟨hp, hp'⟩ := forall_mem_cons.mp hp
    have ⟨hk, hk'⟩ := forall_mem_cons.mp hk
    obtain ⟨vset, hv⟩ : ∃ vset, r.vset.find? (·.pmid = pmid) = some vset := by
      obtain ⟨v, hv, he⟩ := hp
      exact Option.isSome_iff_exists.mp (find?_isSome.mpr ⟨v, hv, by simpa using he⟩)
    obtain ⟨indom, hk⟩ := hk
    have he : vset.pmid = pmid := by simpa using find?_some hv
    simp [hv, filterSet_eq (he ▸ hk), hi hp' hk', bind, Except.bind, pure, Except.pure]

theorem Asked.cherryPick (h : Asked prof pmidlist r) (hn : pmidlist ≠ []) :
    ∃ r', cherryPick pmidlist r = some r' ∧
      filterProfile prof r' = .ok (selected prof pmidlist r) := by
  obtain ⟨pmid, l, rfl⟩ := exists_cons_of_ne_nil hn
  have hp : ¬∀ p ∈ pmid :: l, (r.vset.find? (·.pmid = p)).isNone := by
    intro hp
    obtain ⟨v, hv, he⟩ := h.present pmid (by simp)
    have := hp pmid (by simp)
    simp at this
    exact this v hv he
  refine ⟨_, by rw [Log.cherryPick, if_neg fun h => hp h.left], ?_⟩
  rw [filterProfile, mapM_filterSet h]
  rfl

end Asked

section Fetch

variable {prof : Profile} {pmidlist : List Nat} {ctx : Context} {pb : Pdu}

-- The records are read one after the other.
def Ordered (result : Pdu → Result α) (mode : Mode) (pbs : List Pdu) : Prop :=
  pbs.Pairwise fun pb₁ pb₂ => mode.Le (result pb₁).timestamp (result pb₂).timestamp

instance : Decidable (Ordered result mode pbs) :=
  inferInstanceAs (Decidable (List.Pairwise _ _))

def wanted (result : Pdu → Result α) (mode : Mode) (origin : Int) (pbs : List Pdu) : List Pdu :=
  pbs.filter fun pb => ¬mode.Skips origin (result pb).timestamp

theorem wanted_split (origin : Int) (h : Ordered result mode pbs) :
    ∃ skip, pbs = skip ++ wanted result mode origin pbs ∧
      ∀ pb ∈ skip, mode.Skips origin (result pb).timestamp := by
  induction pbs
  case nil => exact ⟨[], rfl, nofun⟩
  case cons pb pbs hi =>
    have ⟨hp, h⟩ := pairwise_cons.mp h
    obtain ⟨skip, he, hs⟩ := hi h
    by_cases hsk : mode.Skips origin (result pb).timestamp
    · exact ⟨pb :: skip, by simpa [wanted, hsk] using he, forall_mem_cons.mpr ⟨hsk, hs⟩⟩
    · refine ⟨[], ?_, nofun⟩
      have hall : ∀ d ∈ pbs, ¬mode.Skips origin (result d).timestamp :=
        fun d hd hd' => hsk (.of_le (hp d hd) hd')
      symm
      simpa [wanted, hsk] using hall

theorem wanted_append (h : ∀ pb ∈ behind, mode.Skips origin (result pb).timestamp) :
    wanted result mode origin (behind ++ ahead) = wanted result mode origin ahead := by
  simpa [wanted] using h

structure Remembers (ctx : Context) : Prop where
  vol : ctx.vol = ctx.lcp.curvol
  offset : ∃ f, ctx.lcp.mfp = some f ∧ ctx.offset = f.pos

theorem Remembers.logFetch (h : Remembers ctx) :
    logFetch ar codec prof pmidlist ctx n = more ar codec prof pmidlist ctx n := by
  obtain ⟨hv, f, hf, ho⟩ := h
  obtain ⟨_, _, ⟨_, _, _, _, _⟩, _, _, _, _⟩ := ctx
  simp only at hv hf ho
  subst hv hf ho
  simp [Log.logFetch, logChangeVol, File.seekSet]

theorem remember_eq (h : ctx.lcp.mfp = some f) :
    ctx.remember = some { ctx with offset := f.pos, vol := ctx.lcp.curvol } := by
  simp [Context.remember, h]

structure Due (L : Layout) (result : Pdu → Result α) (ctx : Context) (behind ahead pbs : List Pdu) :
    Prop where
  remembers : Remembers ctx
  facing : L.Facing ctx.lcp ctx.mode behind ahead
  ordered : Ordered result ctx.mode (behind.reverse ++ ahead)
  serial : ctx.serial = true → pbs = wanted result ctx.mode ctx.origin ahead
  resync : ctx.serial = false →
    pbs = wanted result ctx.mode ctx.origin (behind.reverse ++ ahead) ∧
    (∀ pb ∈ behind, (result pb).timestamp ≠ ctx.origin) ∧
    (ctx.mode = .back → L.recs ctx.lcp.maxvol ≠ some [] ∨
      (∃ pb ∈ behind, ctx.mode.Skips ctx.origin (result pb).timestamp) ∨
      behind = [] ∧ ctx.lcp.curvol = ctx.lcp.maxvol)

theorem Due.not_skips (h : L.Due result ctx behind ahead (pb :: pbs)) :
    ¬ctx.mode.Skips ctx.origin (result pb).timestamp := by
  have hm := mem_cons_self (a := pb) (l := pbs)
  cases hs : ctx.serial
  case true =>
    rw [h.serial hs] at hm
    simpa using (mem_filter.mp hm).right
  case false =>
    rw [(h.resync hs).left] at hm
    simpa using (mem_filter.mp hm).right

theorem more_ok {r : Result α} (he : search ar codec ctx n = some (lcp, .ok r))
    (hm : lcp.mfp = some f) (ha : Asked prof pmidlist r) :
    more ar codec prof pmidlist ctx (n + 1) = some ({ ctx with
      lcp, serial := true, origin := r.timestamp, offset := f.pos, vol := lcp.curvol
    }, .ok (selected prof pmidlist r)) := by
  cases hp : pmidlist.isEmpty
  case true => simp [more, he, Context.remember, hm, hp, selected]
  case false =>
    have hn : pmidlist ≠ [] := by simpa using hp
    obtain ⟨r', hr, hx⟩ := ha.cherryPick hn
    have hv : r.vset ≠ [] := by
      obtain ⟨pmid, l, rfl⟩ := exists_cons_of_ne_nil hn
      obtain ⟨v, hv, -⟩ := ha.present pmid (by simp)
      exact ne_nil_of_mem hv
    simp [more, he, Context.remember, hm, hp, hv, hr, hx]

variable (hf : L.Fits ar)

include hf

theorem Due.sync (h : L.Due result ctx behind ahead pbs)
    (hc : ∀ pb ∈ behind.reverse ++ ahead, codec.Reads pb (result pb)) (hn : behind.length < n) :
    ∃ lcp behind' ahead', sync ar codec ctx n = some (lcp, none) ∧
      L.Facing lcp ctx.mode behind' ahead' ∧ behind'.reverse ++ ahead' = behind.reverse ++ ahead ∧
      pbs = wanted result ctx.mode ctx.origin ahead' := by
  cases hs : ctx.serial
  case true => exact ⟨_, _, _, by simp [Log.sync, hs], h.facing, rfl, h.serial hs⟩
  case false =>
    obtain ⟨hp, ho, hk⟩ := h.resync hs
    have hb : behind.Pairwise fun pb₁ pb₂ =>
        ctx.mode.Le (result pb₂).timestamp (result pb₁).timestamp :=
      pairwise_reverse.mp (pairwise_append.mp h.ordered).left
    obtain ⟨lcp, b, a, he, hx, hw, hsk⟩ := h.facing.resync hf
      (fun pb hm => hc pb (by simp [hm])) hb ho hk hn
    refine ⟨lcp, b, a, by simp [Log.sync, hs, he], hx, hw, ?_⟩
    rw [hp, ← hw, wanted_append fun pb hm => hsk pb (by simpa using hm)]

theorem Due.search (h : L.Due result ctx behind ahead pbs)
    (hc : ∀ pb ∈ behind.reverse ++ ahead, codec.Reads pb (result pb))
    (hn : behind.length + ahead.length < n) :
    ∃ lcp behind' m, search ar codec ctx n = scan ar codec ctx.mode ctx.origin lcp (m + 1) ∧
      L.Facing lcp ctx.mode behind' pbs ∧ behind'.reverse ++ pbs = behind.reverse ++ ahead := by
  obtain ⟨lcp, b, a, hs, hx, hw, rfl⟩ := h.sync hf hc (show behind.length < n by omega)
  have ho : Ordered result ctx.mode (b.reverse ++ a) := hw ▸ h.ordered
  obtain ⟨skip, hsk, hskip⟩ := wanted_split ctx.origin
    (pairwise_append.mp ho).right.left
  have hl := congrArg length hw
  have hl' := congrArg length hsk
  simp only [length_append, length_reverse] at hl hl'
  obtain ⟨m, rfl⟩ : ∃ m, n = skip.length + (m + 1) := ⟨n - skip.length - 1, by omega⟩
  rw [hsk] at hx
  have hc' pb (hm : pb ∈ skip) : codec.Reads pb (result pb) := by
    refine hc pb (hw ▸ ?_)
    rw [hsk]
    simp [hm]
  obtain ⟨c, mf, sn, he, hx'⟩ := hx.scan_skip hf hc' hskip
  refine ⟨_, _, m, by rw [Log.search, hs, ← he]; rfl, hx', ?_⟩
  rw [reverse_append, reverse_reverse, append_assoc, ← hsk, hw]

theorem Due.logFetch_cons (h : L.Due result ctx behind ahead (pb :: pbs))
    (hc : ∀ pb ∈ behind.reverse ++ ahead, codec.Reads pb (result pb))
    (ha : Asked prof pmidlist (result pb)) (hn : behind.length + ahead.length + 1 < n) :
    ∃ ctx' behind', logFetch ar codec prof pmidlist ctx n =
        some (ctx', .ok (selected prof pmidlist (result pb))) ∧
      L.Due result ctx' behind' pbs pbs ∧ behind'.reverse ++ pbs = behind.reverse ++ ahead := by
  obtain ⟨n, rfl⟩ : ∃ m, n = m + 1 := ⟨n - 1, by omega⟩
  obtain ⟨lcp, b, m, he, hx, hw⟩ := h.search hf hc (show behind.length + ahead.length < n by omega)
  have ho : Ordered result ctx.mode (b.reverse ++ pb :: pbs) := hw ▸ h.ordered
  have hp := hc pb (hw ▸ by simp)
  obtain ⟨c, mf, sn, hr, hx'⟩ := hx.read hf hp
  obtain ⟨f, hm⟩ := hx'.mfp
  have hnp := h.not_skips
  have he' : Log.search ar codec ctx n =
      some ({ lcp with curvol := c, mfp := mf, seen := sn }, .ok (result pb)) := by
    rw [he, scan, hr]
    simp [hnp]
  have hle := (pairwise_cons.mp (pairwise_append.mp ho).right.left).left
  rw [h.remembers.logFetch]
  refine ⟨_, pb :: b, more_ok he' hm ha, ?_, by simpa using hw⟩
  refine ⟨⟨rfl, f, hm, rfl⟩, hx', by simpa using ho, fun _ => .symm ?_, nofun⟩
  simpa [wanted, Mode.not_skips_iff] using hle

theorem Due.logFetch_nil (prof : Profile) (pmidlist : List Nat)
    (h : L.Due result ctx behind ahead [])
    (hc : ∀ pb ∈ behind.reverse ++ ahead, codec.Reads pb (result pb))
    (hn : behind.length + ahead.length + 1 < n) :
    ∃ ctx', logFetch ar codec prof pmidlist ctx n = some (ctx', .error pmErrEol) := by
  obtain ⟨n, rfl⟩ : ∃ m, n = m + 1 := ⟨n - 1, by omega⟩
  obtain ⟨lcp, b, m, he, hx, hw⟩ := h.search hf hc (show behind.length + ahead.length < n by omega)
  obtain ⟨lcp', f, hr, hm⟩ := hx.read_end codec hf
  rw [h.remembers.logFetch]
  have he' : Log.search ar codec ctx n = some (lcp', .error pmErrEol) := by
    rw [he, scan, hr]
    rfl
  simp [more, he', Context.remember, hm]

theorem Due.fetchMany (h : L.Due result ctx behind ahead pbs)
    (hc : ∀ pb ∈ behind.reverse ++ ahead, codec.Reads pb (result pb))
    (ha : ∀ pb ∈ pbs, Asked prof pmidlist (result pb)) (hn : behind.length + ahead.length + 1 < n) :
    ∃ ctx', fetchMany ar codec prof pmidlist n ctx (pbs.length + 1) =
      some (ctx', pbs.map (.ok <| selected prof pmidlist <| result ·) ++ [.error pmErrEol]) := by
  induction pbs generalizing ctx behind ahead
  case nil =>
    obtain ⟨ctx', he⟩ := h.logFetch_nil hf prof pmidlist hc hn
    exact ⟨ctx', by simp [Log.fetchMany, he]⟩
  case cons pb pbs hi =>
    have ⟨hp, ha⟩ := forall_mem_cons.mp ha
    obtain ⟨ctx₁, b, he, hd, hw⟩ := h.logFetch_cons hf hc hp hn
    have hl := congrArg length hw
    simp only [length_append, length_reverse] at hl
    obtain ⟨ctx', hx⟩ := hi hd (hw ▸ hc) ha (by omega)
    rw [length_cons, Log.fetchMany, he]
    simp [hx]

end Fetch

end Layout

end Log
