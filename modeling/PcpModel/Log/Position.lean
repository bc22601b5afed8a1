import PcpModel.Log.Enumerate

namespace Log

open Stdio Option Pcp

namespace Layout

variable {α : Type} {L : Layout} {ar : Archive} {lcp : LogCtl} {mode : Mode}
  {result : Pdu → Result α}

def Points (L : Layout) (minvol maxvol : Int) (e : Ti) (before after : List Pdu) : Prop :=
  ∃ done todo, L.recs e.vol = some (done ++ todo) ∧ e.log = (L.position e.vol done todo).pos ∧
    before = L.span minvol e.vol ++ done ∧ after = todo ++ L.span (e.vol + 1) (maxvol + 1)

-- An entry refers to the start or the end of a record that has its stamp.
structure Indexed (L : Layout) (result : Pdu → Result α) (minvol maxvol : Int) (ti : List Ti) :
    Prop where
  sorted : ti.Pairwise (·.stamp ≤ ·.stamp)
  lower : ∀ e ∈ ti, minvol ≤ e.vol
  upper : ∀ e ∈ ti, e.vol ≤ maxvol
  points : ∀ e ∈ ti, ∃ before pb after, (result pb).timestamp = e.stamp ∧
    (L.Points minvol maxvol e before (pb :: after) ∨
      L.Points minvol maxvol e (before ++ [pb]) after)

section Search

theorem At.sees (h : L.At lcp before after) : L.Sees lcp.seen := by
  obtain ⟨_, _, ho, _⟩ := h.split
  exact ho.seen

theorem At.set_seen (h : L.At lcp before after) (hs : L.Sees seen) :
    L.At { lcp with seen } before after := by
  obtain ⟨hl, hu, hr, done, todo, ho, hb, ha⟩ := h
  exact ⟨hl, hu, hr, done, todo, ⟨ho.mfp, ho.recs, hs⟩, hb, ha⟩

structure Looked (L : Layout) (minvol maxvol : Int) (pbs : List Pdu) (e : Ti) : Prop where
  lower : minvol ≤ e.vol
  log : e.vol = maxvol → e.log ≤ (volume (L.label maxvol) pbs).length

theorem Points.log_le (h : L.Points minvol maxvol e before after)
    (hp : L.recs e.vol = some pbs) : e.log ≤ (volume (L.label e.vol) pbs).length := by
  obtain ⟨done, todo, hr, hl, -⟩ := h
  obtain rfl : pbs = done ++ todo := some.inj (hp.symm.trans hr)
  have := @header_length L e.vol
  rw [hl, volume_eq, position_pos, List.length_append, records_append, List.length_append]
  rw [header] at this
  omega

theorem Indexed.looked (h : L.Indexed result minvol maxvol ti) (hp : L.recs maxvol = some pbs)
    (he : e ∈ ti) : L.Looked minvol maxvol pbs e where
  lower := h.lower e he
  log hv := by
    subst hv
    obtain ⟨_, _, _, -, h | h⟩ := h.points e he <;> exact h.log_le hp

variable (hf : L.Fits ar) (origin : Int) (i : Nat) (ti : List Ti)

include hf

theorem lastSize_eq (hseen : L.Sees lcp.seen) (hp : L.recs lcp.maxvol = some pbs)
    (hs : ∀ n, size = some n → n = (volume (L.label lcp.maxvol) pbs).length) :
    ∃ seen, lastSize ar lcp size = ({ lcp with seen }, (volume (L.label lcp.maxvol) pbs).length) ∧
      L.Sees seen := by
  cases size
  case some n => exact ⟨lcp.seen, by simp [lastSize, hs n rfl], hseen⟩
  case none =>
    obtain ⟨seen, sts, he, h₀, hs'⟩ := hf.logChkLabel hseen hp
    refine ⟨seen, ?_, hs'⟩
    have hd : volume (L.label lcp.maxvol) pbs = L.header lcp.maxvol ++ records pbs := volume_eq
    simp [lastSize, logPeek, hf.data _ _ hp, hd, he, not_lt.mpr h₀]

theorem truncated_eq (hseen : L.Sees lcp.seen) (hp : L.recs lcp.maxvol = some pbs)
    (he : L.Looked lcp.minvol lcp.maxvol pbs e)
    (hs : ∀ n, size = some n → n = (volume (L.label lcp.maxvol) pbs).length) :
    ∃ seen size', truncated ar e lcp size = ({ lcp with seen }, size', false) ∧ L.Sees seen ∧
      ∀ n, size' = some n → n = (volume (L.label lcp.maxvol) pbs).length := by
  by_cases hv : e.vol = lcp.maxvol
  · obtain ⟨seen, hz, hs'⟩ := lastSize_eq hf hseen hp hs
    refine ⟨seen, some _, ?_, hs', fun n h => (some.inj h).symm⟩
    simp only [truncated, hv, if_true, hz]
    simpa using he.log hv
  · exact ⟨lcp.seen, size, by simp only [truncated, hv, if_false], hseen, hs⟩

theorem searchTi_append (hseen : L.Sees lcp.seen) (hp : L.recs lcp.maxvol = some pbs)
    (he : ∀ e ∈ pre, L.Looked lcp.minvol lcp.maxvol pbs e)
    (hs : ∀ n, size = some n → n = (volume (L.label lcp.maxvol) pbs).length)
    (hlt : ∀ e ∈ pre, e.stamp < origin) :
    ∃ seen size', searchTi ar origin lcp size i (pre ++ ti) =
        searchTi ar origin { lcp with seen } size' (i + pre.length) ti ∧ L.Sees seen ∧
      ∀ n, size' = some n → n = (volume (L.label lcp.maxvol) pbs).length := by
  induction pre generalizing lcp size i
  case nil => exact ⟨lcp.seen, size, rfl, hseen, hs⟩
  case cons e pre hi =>
    have ⟨he, he'⟩ := List.forall_mem_cons.mp he
    have ⟨hlt, hlt'⟩ := List.forall_mem_cons.mp hlt
    obtain ⟨seen, size', hx, hseen, hs⟩ := truncated_eq hf hseen hp he hs
    obtain ⟨seen', size'', hx', hseen', hs'⟩ := hi (i + 1)
      (show L.Sees ({ lcp with seen } : LogCtl).seen from hseen) hp he' hs hlt'
    refine ⟨seen', size'', ?_, hseen', hs'⟩
    have h₁ : ¬e.stamp - origin > 0 := by omega
    have h₂ : ¬e.stamp - origin = 0 := by omega
    simp only [List.cons_append, searchTi, not_lt.mpr he.lower, hx, h₁, h₂, if_false,
      Bool.false_eq_true]
    rw [hx', List.length_cons, Nat.add_assoc i 1, Nat.add_comm 1]

-- The entries before the origin are passed. The entry that follows decides how the search ends.
theorem searchTi_eq (hseen : L.Sees lcp.seen) (hp : L.recs lcp.maxvol = some pbs)
    (he : ∀ e ∈ pre ++ ti, L.Looked lcp.minvol lcp.maxvol pbs e)
    (hlt : ∀ e ∈ pre, e.stamp < origin) (hge : ∀ e ∈ ti.head?, origin ≤ e.stamp) :
    ∃ seen, searchTi ar origin lcp none 0 (pre ++ ti) = ⟨{ lcp with seen }, pre.length, false,
        ti.head?.any (·.stamp = origin)⟩ ∧ L.Sees seen := by
  have hs₀ n (h : none = some n) : n = (volume (L.label lcp.maxvol) pbs).length := nomatch h
  obtain ⟨seen, size, hx, hseen, hs⟩ := searchTi_append hf origin 0 ti hseen hp
    (fun e h => he e (List.mem_append_left _ h)) hs₀ hlt
  rw [hx, Nat.zero_add]
  cases ti
  case nil => exact ⟨seen, rfl, hseen⟩
  case cons e ti =>
    have hl := he e (by simp)
    obtain ⟨seen', size', hx', hseen', -⟩ := truncated_eq hf
      (show L.Sees ({ lcp with seen } : LogCtl).seen from hseen) hp hl hs
    refine ⟨seen', ?_, hseen'⟩
    have hge := hge e rfl
    simp only [searchTi, not_lt.mpr hl.lower, hx', if_false, Bool.false_eq_true]
    by_cases h : e.stamp = origin
    · simp [h]
    · rw [if_pos (by omega)]
      simp [h]

end Search

section Seek

variable {ctx : Context}

theorem entries_eq (mode : Mode) (h : ti[j]? = some e) : ∃ rest, entries mode j ti = e :: rest := by
  obtain ⟨hj, he⟩ := List.getElem?_eq_some_iff.mp h
  cases mode
  case forw => exact ⟨ti.drop (j + 1), by rw [entries, List.drop_eq_getElem_cons hj, he]⟩
  case back =>
    refine ⟨(ti.take j).reverse, ?_⟩
    rw [entries, List.take_succ_eq_append_getElem hj, he, List.reverse_append]
    rfl

theorem Points.records (h : L.Points minvol maxvol e before after) (hl : minvol ≤ e.vol)
    (hu : e.vol ≤ maxvol) : before ++ after = L.span minvol (maxvol + 1) := by
  obtain ⟨done, todo, hr, -, rfl, rfl⟩ := h
  rw [span_append (c := maxvol + 1) hl (by omega), span_cons (a := e.vol) (by omega), hr]
  simp

theorem position_seek (h : done ++ todo = done' ++ todo') :
    (L.position v done todo).seekSet (L.position v done' todo').pos = L.position v done' todo' := by
  refine File.between_seekSet (by simp [position]) ?_
  rw [List.append_assoc, List.append_assoc, ← records_append, ← records_append, h]

theorem At.seek (hf : L.Fits ar) (h : L.At lcp before after) (hr : L.recs v = some (done ++ todo))
    (hl : lcp.minvol ≤ v) (hu : v ≤ lcp.maxvol) :
    ∃ f seen sts, logChangeVol ar lcp v = ({ lcp with curvol := v, mfp := some f, seen }, sts) ∧
      0 ≤ sts ∧ f.seekSet (L.position v done todo).pos = L.position v done todo ∧
      L.At { lcp with curvol := v, mfp := some (L.position v done todo), seen }
        (L.span lcp.minvol v ++ done) (todo ++ L.span (v + 1) (lcp.maxvol + 1)) := by
  have hs := h.sees
  have hat {seen} (hs : L.Sees seen) :
      L.At { lcp with curvol := v, mfp := some (L.position v done todo), seen }
        (L.span lcp.minvol v ++ done) (todo ++ L.span (v + 1) (lcp.maxvol + 1)) :=
    ⟨hl, hu, h.recs, done, todo, ⟨rfl, hr, hs⟩, rfl, rfl⟩
  by_cases hc : lcp.curvol = v
  · obtain ⟨done', todo', ho, -⟩ := h.split
    refine ⟨L.position v done' todo', lcp.seen, 0, ?_, le_rfl, position_seek ?_, hat hs⟩
    · rw [logChangeVol, if_pos hc, ← hc, ← ho.mfp]
    · exact some.inj (ho.recs.symm.trans (hc ▸ hr))
  · obtain ⟨seen, sts, he, h₀, hs'⟩ := hf.changeVol_good hs hc hr
    exact ⟨_, seen, sts, he, h₀, position_seek rfl, hat hs'⟩

theorem seekTi_eq (hf : L.Fits ar) (h : L.At ctx.lcp before after) (he : ctx.ti[j]? = some e)
    (hp : L.Points ctx.lcp.minvol ctx.lcp.maxvol e before' after') (hl : ctx.lcp.minvol ≤ e.vol)
    (hu : e.vol ≤ ctx.lcp.maxvol) (mode : Mode) :
    ∃ curvol mfp seen, seekTi ar ctx mode j =
        some ({ ctx with lcp := { ctx.lcp with curvol, mfp, seen } }, true) ∧
      L.At { ctx.lcp with curvol, mfp, seen } before' after' := by
  obtain ⟨rest, hr⟩ := entries_eq mode he
  obtain ⟨done, todo, hd, ho, rfl, rfl⟩ := hp
  obtain ⟨f, seen, sts, hx, h₀, hs, ha⟩ := h.seek hf hd hl hu
  refine ⟨e.vol, some (L.position e.vol done todo), seen, ?_, ha⟩
  simp only [seekTi, hr, volSkip, reduceCtorEq, if_false, hl, hu, and_self, if_true, hx, h₀,
    bind_eq_bind, bind_some, ho, hs]
  rfl

end Seek

section SetTime

-- The entry of the index that is chosen, and whether the records can be read from there on.
def choose (mode : Mode) (origin : Int) (ti : List Ti) : Option (Ti × Bool) :=
  match (ti.takeWhile (·.stamp < origin)).getLast?, (ti.dropWhile (·.stamp < origin)).head? with
  | none, none => none
  | some lo, none => some (lo, mode ≠ .back)
  | none, some hi => some (hi, hi.stamp = origin → mode ≠ .back)
  | some lo, some hi =>
    if hi.stamp = origin then some (hi, mode ≠ .back)
    else if timevalSub hi.stamp origin ≤ timevalSub origin lo.stamp then some (hi, mode ≠ .forw)
    else some (lo, mode ≠ .back)

-- No record that is to be returned lies behind the position.
structure Clear (L : Layout) (result : Pdu → Result α) (mode : Mode) (origin maxvol : Int)
    (serial : Bool) (behind : List Pdu) : Prop where
  passed : serial = true → ∀ pb ∈ behind, mode.Skips origin (result pb).timestamp
  exact : serial = false → ∀ pb ∈ behind, (result pb).timestamp ≠ origin
  last : serial = false → mode = .back →
    L.recs maxvol ≠ some [] ∨ ∃ pb ∈ behind, mode.Skips origin (result pb).timestamp

def Allows (L : Layout) (result : Pdu → Result α) (minvol maxvol : Int) (mode : Mode) (origin : Int)
    (ti : List Ti) : Prop :=
  ∀ e serial, choose mode origin ti = some (e, serial) → ∃ before after,
    L.Points minvol maxvol e before after ∧
    L.Clear result mode origin maxvol serial (mode.behind before after)

variable {ctx : Context} {before after : List Pdu}

theorem Clear.mono (h : L.Clear result mode origin maxvol true behind)
    (hm : ∀ pb ∈ behind', pb ∈ behind) : L.Clear result mode origin maxvol' true behind' where
  passed hs pb hp := h.passed hs pb (hm pb hp)
  exact := nofun
  last := nofun

theorem Ordered.order (h : Ordered result .forw pbs) : Ordered result mode (mode.order pbs) := by
  cases mode
  case forw => exact h
  case back => exact List.pairwise_reverse.mpr h

theorem due_of_clear (h : L.At ctx.lcp before after) (hr : Remembers ctx)
    (ho : Ordered result .forw (before ++ after))
    (hc : L.Clear result ctx.mode ctx.origin ctx.lcp.maxvol ctx.serial
      (ctx.mode.behind before after)) :
    L.Due result ctx (ctx.mode.behind before after) (ctx.mode.ahead before after)
      (wanted result ctx.mode ctx.origin (ctx.mode.order (before ++ after))) where
  remembers := hr
  facing := h.facing ctx.mode
  ordered := ctx.mode.behind_append_ahead before after ▸ ho.order
  serial hs := by
    rw [← Mode.behind_append_ahead, wanted_append fun pb hm => hc.passed hs pb (by simpa using hm)]
  resync hs := by
    refine ⟨by rw [Mode.behind_append_ahead], hc.exact hs, fun hm => ?_⟩
    obtain h | h := hc.last hs hm
    · exact .inl h
    · exact .inr (.inl h)

def Ready (L : Layout) (result : Pdu → Result α) (ctx : Context) (mode : Mode) (origin : Int)
    (recs : List Pdu) : Prop :=
  ∃ behind ahead, L.Due result ctx behind ahead (wanted result mode origin (mode.order recs)) ∧
    behind.reverse ++ ahead = mode.order recs

theorem remember_ready (h : L.At ctx.lcp before after)
    (ho : Ordered result .forw (before ++ after))
    (hc : L.Clear result ctx.mode ctx.origin ctx.lcp.maxvol ctx.serial
      (ctx.mode.behind before after)) :
    ∃ ctx', ctx.remember = some ctx' ∧
      L.Ready result ctx' ctx.mode ctx.origin (before ++ after) := by
  obtain ⟨f, hm⟩ := (h.facing .forw).mfp
  have hr : Remembers { ctx with offset := f.pos, vol := ctx.lcp.curvol } := ⟨rfl, f, hm, rfl⟩
  exact ⟨_, remember_eq hm, _, _, due_of_clear h hr ho hc,
    ctx.mode.behind_append_ahead before after⟩

theorem ends_ready (ctx : Context) (h : L.At lcp before after)
    (hb : ctx.mode.behind before after = [])
    (ho : Ordered result .forw (before ++ after))
    (hl : ctx.mode = .back → lcp.curvol = lcp.maxvol) :
    ∃ ctx', Context.remember { ctx with lcp } = some ctx' ∧
      L.Ready result ctx' ctx.mode ctx.origin (before ++ after) := by
  obtain ⟨f, hm⟩ := (h.facing .forw).mfp
  have hx := h.facing ctx.mode
  have hw := ctx.mode.behind_append_ahead before after
  rw [hb] at hx hw
  refine ⟨_, remember_eq hm, [], _, ⟨⟨rfl, f, hm, rfl⟩, hx, hw ▸ ho.order, ?_, ?_⟩, hw⟩
  · intro
    rw [← hw]
    rfl
  · intro
    exact ⟨by rw [hw], nofun, fun hm => .inr (.inr ⟨rfl, hl hm⟩)⟩

variable (hf : L.Fits ar)

include hf

-- Going back by one record does not bring more records behind the position.
theorem backUp_eq (codec : Codec (Result α)) (h : L.At ctx.lcp before after)
    (hc : ∀ pb ∈ before ++ after, codec.Reads pb (result pb)) :
    ∃ lcp before' after', backUp ar codec ctx = some { ctx with lcp } ∧
      L.At lcp before' after' ∧ before' ++ after' = before ++ after ∧
      ∀ pb ∈ before', pb ∈ before := by
  cases List.eq_nil_or_concat before
  case inl hb =>
    subst hb
    obtain ⟨lcp, he, ha⟩ := h.read_back_end .next codec hf
    exact ⟨lcp, [], after, by simp [backUp, he], ha, rfl, by simp⟩
  case inr hb =>
    obtain ⟨b, pb, rfl⟩ := hb
    rw [List.concat_eq_append] at h hc ⊢
    obtain ⟨c, m, s, he, ha⟩ := h.read_back .next hf (hc pb (by simp))
    exact ⟨_, b, pb :: after, by simp [backUp, he], ha, by simp, fun d hd => by simp [hd]⟩

theorem seek_chosen {e : Ti} (h : L.At ctx.lcp before after)
    (hx : L.Indexed result ctx.lcp.minvol ctx.lcp.maxvol ctx.ti)
    (ha : L.Allows result ctx.lcp.minvol ctx.lcp.maxvol ctx.mode ctx.origin ctx.ti)
    (hch : choose ctx.mode ctx.origin ctx.ti = some (e, serial)) (he : ctx.ti[j]? = some e)
    (mode : Mode) :
    ∃ lcp before' after', seekTi ar ctx mode j = some ({ ctx with lcp }, true) ∧
      L.At lcp before' after' ∧ before' ++ after' = before ++ after ∧
      L.Clear result ctx.mode ctx.origin lcp.maxvol serial (ctx.mode.behind before' after') := by
  have hm := List.mem_of_getElem? he
  obtain ⟨b, a, hp, hcl⟩ := ha e serial hch
  obtain ⟨c, m, s, hs, ha⟩ := seekTi_eq hf h he hp (hx.lower e hm) (hx.upper e hm) mode
  refine ⟨_, b, a, hs, ha, ?_, hcl⟩
  rw [hp.records (hx.lower e hm) (hx.upper e hm), h.records]

section Index

variable {codec : Codec (Result α)} (h : L.At ctx.lcp before after)
  (ho : Ordered result .forw (before ++ after))
  (hc : ∀ pb ∈ before ++ after, codec.Reads pb (result pb))
  (hx : L.Indexed result ctx.lcp.minvol ctx.lcp.maxvol ctx.ti)
  (ha : L.Allows result ctx.lcp.minvol ctx.lcp.maxvol ctx.mode ctx.origin ctx.ti)
  (hlo : ctx.ti.takeWhile (·.stamp < ctx.origin) = pre)
  (hhi : ctx.ti.dropWhile (·.stamp < ctx.origin) = post)

include h ho hx ha

theorem chosen_ready {e : Ti} (mode : Mode)
    (hch : choose ctx.mode ctx.origin ctx.ti = some (e, serial)) (he : ctx.ti[j]? = some e) :
    ∃ lcp ctx', seekTi ar ctx mode j = some ({ ctx with lcp }, true) ∧
      Context.remember { ctx with lcp, serial } = some ctx' ∧
      L.Ready result ctx' ctx.mode ctx.origin (before ++ after) := by
  obtain ⟨lcp, b, a, hsk, hat, hba, hcl⟩ := seek_chosen hf h hx ha hch he mode
  obtain ⟨ctx', hr, hrd⟩ := remember_ready
    (show L.At ({ ctx with lcp, serial } : Context).lcp b a from hat) (hba ▸ ho) hcl
  exact ⟨lcp, ctx', hsk, hr, hba ▸ hrd⟩

include hlo hhi

omit ho h hx ha hf in
theorem ti_eq : ctx.ti = pre ++ post := by
  rw [← hlo, ← hhi, List.takeWhile_append_dropWhile]

theorem seekIndex_last (hp : pre = l ++ [lo]) (hq : post = []) :
    ∃ ctx', seekIndex ar codec ctx pre.length false false = some ctx' ∧
      L.Ready result ctx' ctx.mode ctx.origin (before ++ after) := by
  have hti := ti_eq hlo hhi
  subst hp hq
  have hch : choose ctx.mode ctx.origin ctx.ti = some (lo, decide (ctx.mode ≠ .back)) := by
    simp [choose, hlo, hhi]
  have hl : (l ++ [lo]).length = ctx.ti.length := by simp [hti]
  obtain ⟨lcp, ctx', hsk, hr, hrd⟩ := chosen_ready hf h ho hx ha (j := ctx.ti.length - 1) .back hch
    (by simp [hti])
  refine ⟨ctx', ?_, hrd⟩
  have h₁ : ¬(l ++ [lo]).length < 1 := by simp
  rw [seekIndex, if_neg (by simp), if_neg h₁, if_pos hl, hsk]
  exact hr

theorem seekIndex_exact (hq : post = hi :: l) (he : hi.stamp = ctx.origin) :
    ∃ ctx', seekIndex ar codec ctx pre.length false true = some ctx' ∧
      L.Ready result ctx' ctx.mode ctx.origin (before ++ after) := by
  have hti := ti_eq hlo hhi
  subst hq
  have hch : choose ctx.mode ctx.origin ctx.ti = some (hi, decide (ctx.mode ≠ .back)) := by
    simp only [choose, hlo, hhi]
    cases pre.getLast? <;> simp [he]
  obtain ⟨lcp, ctx', hsk, hr, hrd⟩ := chosen_ready hf h ho hx ha (j := pre.length) ctx.mode hch
    (by simp [hti])
  refine ⟨ctx', ?_, hrd⟩
  rw [seekIndex, hsk]
  exact hr

theorem seekIndex_first (hp : pre = []) (hq : post = hi :: l) (he : hi.stamp ≠ ctx.origin)
    (hs : ctx.serial = true) :
    ∃ ctx', seekIndex ar codec ctx pre.length false false = some ctx' ∧
      L.Ready result ctx' ctx.mode ctx.origin (before ++ after) := by
  have hti := ti_eq hlo hhi
  subst hp hq
  have hch : choose ctx.mode ctx.origin ctx.ti = some (hi, ctx.serial) := by
    simp [choose, hlo, hhi, he, hs]
  obtain ⟨lcp, ctx', hsk, hr, hrd⟩ := chosen_ready hf h ho hx ha (j := 0) .forw hch (by simp [hti])
  refine ⟨ctx', ?_, hrd⟩
  rw [seekIndex, if_neg (by simp), if_pos (by simp), hsk]
  exact hr

include hc

theorem seekIndex_between (hp : pre = l' ++ [lo]) (hq : post = hi :: l) (he : hi.stamp ≠ ctx.origin)
    (hs : ctx.serial = true) :
    ∃ ctx', seekIndex ar codec ctx pre.length false false = some ctx' ∧
      L.Ready result ctx' ctx.mode ctx.origin (before ++ after) := by
  have hti := ti_eq hlo hhi
  subst hp hq
  have hj : ctx.ti[(l' ++ [lo]).length]? = some hi := by simp [hti]
  have hj' : ctx.ti[(l' ++ [lo]).length - 1]? = some lo := by simp [hti]
  have h₁ : ¬(l' ++ [lo]).length < 1 := by simp
  have h₂ : (l' ++ [lo]).length ≠ ctx.ti.length := by simp [hti]
  rw [seekIndex, if_neg (by simp), if_neg h₁, if_neg h₂, hj, hj']
  by_cases hd : timevalSub hi.stamp ctx.origin ≤ timevalSub ctx.origin lo.stamp
  · have hch : choose ctx.mode ctx.origin ctx.ti = some (hi, decide (ctx.mode ≠ .forw)) := by
      simp [choose, hlo, hhi, he, hd]
    obtain ⟨lcp, ctx', hsk, hr, hrd⟩ := chosen_ready hf h ho hx ha ctx.mode hch hj
    refine ⟨ctx', ?_, hrd⟩
    simp only [bind_eq_bind, bind_some, hd, Bool.false_eq_true, not_false_eq_true,
      and_self, if_true, hsk]
    exact hr
  · have hch : choose ctx.mode ctx.origin ctx.ti = some (lo, decide (ctx.mode ≠ .back)) := by
      simp [choose, hlo, hhi, he, hd]
    simp only [bind_eq_bind, bind_some, hd, false_and, if_false]
    by_cases hm : ctx.mode = .back
    · obtain ⟨lcp, ctx', hsk, hr, hrd⟩ := chosen_ready hf h ho hx ha ctx.mode hch hj'
      refine ⟨ctx', ?_, hrd⟩
      simp only [hsk, bind_some, if_true]
      simpa [hm] using hr
    · have hm' : ctx.mode = .forw := by cases h : ctx.mode <;> simp_all
      obtain ⟨lcp, b, a, hsk, hat, hba, hcl⟩ := seek_chosen hf h hx ha hch hj' ctx.mode
      obtain ⟨lcp', b', a', hup, hat', hba', hmem⟩ := backUp_eq hf codec
        (show L.At ({ ctx with lcp } : Context).lcp b a from hat) (hba ▸ hc)
      have hcl' : L.Clear result ctx.mode ctx.origin lcp'.maxvol ctx.serial
          (ctx.mode.behind b' a') := by
        rw [decide_eq_true hm] at hcl
        rw [hs]
        refine hcl.mono ?_
        simpa [hm', Mode.behind] using hmem
      have hba'' := hba'.trans hba
      obtain ⟨ctx', hr, hrd⟩ := remember_ready
        (show L.At ({ ctx with lcp := lcp' } : Context).lcp b' a' from hat') (hba'' ▸ ho) hcl'
      refine ⟨ctx', ?_, hba'' ▸ hrd⟩
      simp only [hsk, bind_some, if_true]
      split
      case h_1 => rw [hup]; exact hr
      case h_2 hm₁ => exact absurd hm₁ hm

theorem seekIndex_ready (hn : ctx.ti ≠ []) (hs : ctx.serial = true) :
    ∃ ctx', seekIndex ar codec ctx pre.length false (post.head?.any (·.stamp = ctx.origin)) =
        some ctx' ∧
      L.Ready result ctx' ctx.mode ctx.origin (before ++ after) := by
  cases hq : post
  case nil =>
    cases List.eq_nil_or_concat pre
    case inl hp => simp [ti_eq hlo hhi, hp, hq] at hn
    case inr hp =>
      obtain ⟨l, lo, hp⟩ := hp
      exact seekIndex_last hf h ho hx ha hlo hhi (hp.trans (List.concat_eq_append ..)) hq
  case cons hi l =>
    by_cases he : hi.stamp = ctx.origin
    · simpa [he] using seekIndex_exact hf h ho hx ha hlo hhi hq he
    · have hb : (some hi).any (·.stamp = ctx.origin) = false := by simp [he]
      rw [List.head?_cons, hb]
      cases List.eq_nil_or_concat pre
      case inl hp => exact seekIndex_first hf h ho hx ha hlo hhi hp hq he hs
      case inr hp =>
        obtain ⟨l', lo, hp⟩ := hp
        exact seekIndex_between hf h ho hc hx ha hlo hhi (hp.trans (List.concat_eq_append ..)) hq he
          hs

end Index

theorem seekEnds_ready (h : L.At ctx.lcp before after)
    (ho : Ordered result .forw (before ++ after)) :
    ∃ ctx', seekEnds ar ctx = some ctx' ∧
      L.Ready result ctx' ctx.mode ctx.origin (before ++ after) := by
  have hmm := h.minvol.trans h.maxvol
  have hrec := h.records
  unfold seekEnds
  split
  case h_1 hm =>
    obtain ⟨pbs, hr⟩ := ne_none_iff_exists'.mp (h.recs _ le_rfl hmm)
    obtain ⟨f, seen, sts, hx, -, hs, ha⟩ := h.seek hf (show _ = some ([] ++ pbs) from hr) le_rfl hmm
    have hw := ha.records
    rw [← hrec] at hw
    have hb : ctx.mode.behind (L.span ctx.lcp.minvol ctx.lcp.minvol ++ [])
        (pbs ++ L.span (ctx.lcp.minvol + 1) (ctx.lcp.maxvol + 1)) = [] := by
      simp [hm, Mode.behind, span_eq_nil]
    obtain ⟨ctx', hr, hrd⟩ := ends_ready ctx ha hb (hw ▸ ho) (by simp [hm])
    refine ⟨ctx', ?_, hw ▸ hrd⟩
    rw [position_pos, records_nil, List.length_nil, Nat.add_zero] at hs
    simp only [hx, bind_eq_bind, bind_some, hs]
    exact hr
  case h_2 hm =>
    obtain ⟨pbs, hr⟩ := ne_none_iff_exists'.mp (h.recs _ hmm le_rfl)
    obtain ⟨f, seen, sts, hx, -, hs, ha⟩ := h.seek hf (show _ = some (pbs ++ []) by simpa using hr)
      hmm le_rfl
    have hw := ha.records
    rw [← hrec] at hw
    have hb : ctx.mode.behind (L.span ctx.lcp.minvol ctx.lcp.maxvol ++ pbs)
        ([] ++ L.span (ctx.lcp.maxvol + 1) (ctx.lcp.maxvol + 1)) = [] := by
      simp [hm, Mode.behind, span_eq_nil]
    obtain ⟨ctx', hr, hrd⟩ := ends_ready ctx ha hb (hw ▸ ho) (by simp)
    refine ⟨ctx', ?_, hw ▸ hrd⟩
    have hend : f.seekEnd = L.position ctx.lcp.maxvol pbs [] := File.seekEnd_of_seekSet hs
    simp only [hx, bind_eq_bind, bind_some, hend]
    exact hr

theorem logSetTime_ready (codec : Codec (Result α)) (h : L.At ctx.lcp before after)
    (ho : Ordered result .forw (before ++ after))
    (hc : ∀ pb ∈ before ++ after, codec.Reads pb (result pb))
    (hx : L.Indexed result ctx.lcp.minvol ctx.lcp.maxvol ctx.ti)
    (ha : L.Allows result ctx.lcp.minvol ctx.lcp.maxvol ctx.mode ctx.origin ctx.ti) :
    ∃ ctx', logSetTime ar codec ctx = some ctx' ∧
      L.Ready result ctx' ctx.mode ctx.origin (before ++ after) := by
  by_cases hn : ctx.ti = []
  · rw [logSetTime, if_neg (not_not.mpr hn)]
    exact seekEnds_ready hf h ho
  obtain ⟨pbs, hp⟩ := ne_none_iff_exists'.mp
    (h.recs ctx.lcp.maxvol (h.minvol.trans h.maxvol) le_rfl)
  have hlt e (hm : e ∈ ctx.ti.takeWhile (·.stamp < ctx.origin)) : e.stamp < ctx.origin := by
    simpa using List.all_eq_true.mp List.all_takeWhile e hm
  have hge e (hm : e ∈ (ctx.ti.dropWhile (·.stamp < ctx.origin)).head?) : ctx.origin ≤ e.stamp := by
    have := List.head?_dropWhile_not (p := (·.stamp < ctx.origin)) ctx.ti
    simpa [mem_def.mp hm] using this
  have hlook e (hm : e ∈ ctx.ti.takeWhile (·.stamp < ctx.origin) ++
      ctx.ti.dropWhile (·.stamp < ctx.origin)) : L.Looked ctx.lcp.minvol ctx.lcp.maxvol pbs e := by
    rw [List.takeWhile_append_dropWhile] at hm
    exact hx.looked hp hm
  obtain ⟨seen, hs, hseen⟩ := searchTi_eq hf ctx.origin _ h.sees hp hlook hlt hge
  rw [List.takeWhile_append_dropWhile] at hs
  rw [logSetTime, if_pos hn, hs]
  exact seekIndex_ready hf (show L.At ({ ctx with
    lcp := { ctx.lcp with seen }, serial := true } : Context).lcp before after
      from h.set_seen hseen)
    ho hc hx ha rfl rfl hn rfl

-- After the time has been set, fetching returns the records from there on, one after the other.
theorem logSetTime_fetchMany {codec : Codec (Result α)} {prof : Profile} {pmidlist : List Nat}
    (ctx : Context) (h : L.At ctx.lcp before after)
    (hc : ∀ pb ∈ before ++ after, codec.Reads pb (result pb))
    (hp : ∀ pb ∈ before ++ after, Asked prof pmidlist (result pb))
    (ho : Ordered result .forw (before ++ after))
    (hx : L.Indexed result ctx.lcp.minvol ctx.lcp.maxvol ctx.ti)
    (ha : L.Allows result ctx.lcp.minvol ctx.lcp.maxvol ctx.mode ctx.origin ctx.ti)
    (hn : (before ++ after).length + 1 < n) :
    let recs := wanted result ctx.mode ctx.origin (ctx.mode.order (before ++ after))
    ∃ ctx₁ ctx₂, logSetTime ar codec ctx = some ctx₁ ∧
      fetchMany ar codec prof pmidlist n ctx₁ (recs.length + 1) =
        some (ctx₂, recs.map (.ok <| selected prof pmidlist <| result ·) ++ [.error pmErrEol]) := by
  obtain ⟨ctx₁, he, b, a, hd, hw⟩ := logSetTime_ready hf codec h ho hc hx ha
  have hl : b.length + a.length = (before ++ after).length := by
    simpa using congrArg List.length hw
  obtain ⟨ctx₂, hx⟩ := hd.fetchMany hf (fun pb hm => hc pb (Mode.mem_order.mp (hw ▸ hm)))
    (fun pb hm => hp pb (Mode.mem_order.mp (List.mem_filter.mp hm).left)) (hl ▸ hn)
  exact ⟨ctx₁, ctx₂, he, hx⟩

end SetTime

def stampCodec : Codec (Result Unit) where
  check _ := true
  decode data := some ⟨(data.headD 0).toNat, []⟩

def stampResult (pb : Pdu) : Result Unit :=
  ⟨(pb.data.headD 0).toNat, []⟩

def stampRecord (stamp : UInt8) : Pdu :=
  ⟨[stamp], by simp⟩

theorem logSetTime_fetchMany_resync :
    let L := ofVolumes [some [stampRecord 10, stampRecord 20], some [], some [stampRecord 30]]
    let lcp := ⟨0, 2, 0, some (L.position 0 [] [stampRecord 10, stampRecord 20]), []⟩
    let prof := ⟨fun _ => .ok none, fun _ _ => true⟩
    ∃ ctx₁ ctx₂, logSetTime L.archive stampCodec
        ⟨.forw, 25, lcp, [⟨10, 0, 132⟩, ⟨30, 2, 141⟩], true, 0, 132⟩ = some ctx₁ ∧
      fetchMany L.archive stampCodec prof [] 5 ctx₁ 2 =
        some (ctx₂, [.ok ⟨30, []⟩, .error pmErrEol]) := by
  intro L lcp prof
  have hf : L.Fits L.archive := archive_fits (by decide)
  have hr (v : Int) (h₀ : 0 ≤ v) (hv : v ≤ 2) : L.recs v ≠ none := by
    obtain rfl | rfl | rfl : v = 0 ∨ v = 1 ∨ v = 2 := by omega
    all_goals nofun
  have h : L.At lcp [] [stampRecord 10, stampRecord 20, stampRecord 30] :=
    ⟨by decide, by decide, hr, [], [stampRecord 10, stampRecord 20], ⟨rfl, rfl, nofun⟩, rfl, rfl⟩
  have h₁ : L.Points 0 2 ⟨10, 0, 132⟩ [] [stampRecord 10, stampRecord 20, stampRecord 30] :=
    ⟨[], [stampRecord 10, stampRecord 20], rfl, rfl, rfl, rfl⟩
  have h₂ : L.Points 0 2 ⟨30, 2, 141⟩ [stampRecord 10, stampRecord 20, stampRecord 30] [] :=
    ⟨[stampRecord 30], [], rfl, rfl, rfl, rfl⟩
  have hx : L.Indexed stampResult 0 2 [⟨10, 0, 132⟩, ⟨30, 2, 141⟩] := by
    refine ⟨by decide, by decide, by decide, ?_⟩
    simp only [List.forall_mem_cons]
    exact ⟨⟨_, _, _, rfl, .inl h₁⟩, ⟨[stampRecord 10, stampRecord 20], _, _, rfl, .inr h₂⟩, nofun⟩
  have ha : L.Allows stampResult 0 2 .forw 25 [⟨10, 0, 132⟩, ⟨30, 2, 141⟩] := by
    intro e serial hc
    cases hc.symm.trans (show _ = some (⟨30, 2, 141⟩, false) by decide +kernel)
    exact ⟨_, _, h₂, nofun, fun _ => by decide, nofun⟩
  have hp pb : Asked prof [] (stampResult pb) := ⟨fun _ => nofun, fun _ => nofun⟩
  exact logSetTime_fetchMany hf ⟨.forw, 25, lcp, _, true, 0, 132⟩ h (fun pb _ => ⟨rfl, rfl⟩)
    (fun pb _ => hp pb) (by decide) hx ha (by decide)

-- The entry refers to the end of the record, which is skipped.
theorem logSetTime_exact_skips :
    let L := ofVolumes [some [stampRecord 10, stampRecord 20, stampRecord 30]]
    let prof := ⟨fun _ => .ok none, fun _ _ => true⟩
    L.Indexed stampResult 0 0 [⟨20, 0, 150⟩] ∧
    (wanted stampResult .forw 20 (L.span 0 1)).head? = some (stampRecord 20) ∧
    ∃ ctx₁ ctx₂ r, logSetTime L.archive stampCodec
        ⟨.forw, 20, logOpen L.archive 0 0, [⟨20, 0, 150⟩], true, 0, 132⟩ = some ctx₁ ∧
      logFetch L.archive stampCodec prof [] ctx₁ 5 = some (ctx₂, .ok r) ∧ r.timestamp = 30 := by
  intro L prof
  have hp : L.Points 0 0 ⟨20, 0, 150⟩ [stampRecord 10, stampRecord 20] [stampRecord 30] :=
    ⟨[stampRecord 10, stampRecord 20], [stampRecord 30], rfl, rfl, rfl, rfl⟩
  refine ⟨⟨by simp, by simp, by simp, ?_⟩, rfl, ?_⟩
  · rw [List.forall_mem_singleton]
    exact ⟨[stampRecord 10], _, _, rfl, .inr hp⟩
  · obtain ⟨⟨ctx₂, r⟩, he, hr⟩ := map_eq_some_iff.mp <|
      show ((logSetTime L.archive stampCodec
          ⟨.forw, 20, logOpen L.archive 0 0, [⟨20, 0, 150⟩], true, 0, 132⟩).bind
        (logFetch L.archive stampCodec prof [] · 5)).map (·.2.toOption.map (·.timestamp)) =
          some (some 30) by decide +kernel
    obtain ⟨ctx₁, h₁, h₂⟩ := bind_eq_some_iff.mp he
    cases r
    case error => simp [Except.toOption] at hr
    case ok r => exact ⟨ctx₁, ctx₂, r, h₁, h₂, by simpa [Except.toOption] using hr⟩

end Layout

end Log
