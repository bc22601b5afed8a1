import PcpModel.Log.Volume

namespace Log

open Stdio List Option Pcp

namespace Layout

variable {ρ : Type} {L : Layout} {ar : Archive} {codec : Codec ρ} {lcp : LogCtl} {r : ρ}

-- The stream is on the current volume, between two records.
structure On (L : Layout) (lcp : LogCtl) (done todo : List Pdu) : Prop where
  mfp : lcp.mfp = some (L.position lcp.curvol done todo)
  recs : L.recs lcp.curvol = some (done ++ todo)
  seen : L.Sees lcp.seen

theorem position_read : (L.position v done (pb :: todo)).read 4 =
    (htonl (pb.data.length + 8),
      .between v (L.header v ++ records done ++ htonl (pb.data.length + 8))
      (pb.data ++ (htonl (pb.data.length + 8) ++ records todo))) := by
  rw [position, records_cons, Pdu.record, append_assoc, File.between_read htonl_length,
    append_assoc pb.data]

theorem position_seekCur : (L.position v (done ++ [pb]) todo).seekCur (-4) =
    .between v (L.header v ++ records done ++ htonl (pb.data.length + 8) ++ pb.data)
      (htonl (pb.data.length + 8) ++ records todo) := by
  have h : L.header v ++ records (done ++ [pb]) = L.header v ++ records done ++
      htonl (pb.data.length + 8) ++ pb.data ++ htonl (pb.data.length + 8) := by
    simp [Pdu.record]
  rw [position, h, File.between_seekCur (by simp)]

theorem readAgain_forw (hc : codec.Reads pb r) :
    readAgain ar codec .forw option lcp offset (L.position v done (pb :: todo)) =
      some ({ lcp with mfp := some (L.position v (done ++ [pb]) todo) }, .ok r) := by
  have hr := hc.forw option offset (v := v) (p := L.header v ++ records done) (q := records todo)
  simp only [readAgain, position_read, htonl_length, ne_eq, not_true_eq_false,
    pb.ntohl_head, hr]
  simp [position]

theorem readAgain_back (hc : codec.Reads pb r) :
    readAgain ar codec .back option lcp (L.position v (done ++ [pb]) todo).pos
        ((L.position v (done ++ [pb]) todo).seekCur (-4)) =
      some ({ lcp with mfp := some (L.position v done (pb :: todo)) }, .ok r) := by
  have ho : pb.data.length ≤ (L.position v (done ++ [pb]) todo).pos := by
    simp [position, Pdu.record]
    omega
  have hr := hc.back option (v := v) (p := L.header v ++ records done) (q := records todo) ho
  have hp : L.header v ++ records done ++ htonl (pb.data.length + 8) ++ pb.data ++
      htonl (pb.data.length + 8) = L.header v ++ records done ++ pb.record := by
    simp [Pdu.record]
  simp only [readAgain, position_seekCur, File.between_read htonl_length, htonl_length, ne_eq,
    not_true_eq_false, pb.ntohl_head, hp, hr]
  simp [position]

theorem On.read_forw (h : L.On lcp done (pb :: todo)) (hc : codec.Reads pb r) :
    logRead ar codec .forw option lcp =
      some ({ lcp with mfp := some (L.position lcp.curvol (done ++ [pb]) todo) }, .ok r) := by
  simp [logRead, h.mfp, readAgain_forw hc]

theorem On.read_back (h : L.On lcp (done ++ [pb]) todo) (hc : codec.Reads pb r) :
    logRead ar codec .back option lcp =
      some ({ lcp with mfp := some (L.position lcp.curvol done (pb :: todo)) }, .ok r) := by
  have hp : ¬(L.position lcp.curvol (done ++ [pb]) todo).pos ≤ labelSize := by
    simp only [position_pos, records_append, length_append]
    have := @records_pos pb []
    omega
  simp [logRead, h.mfp, hp, readAgain_back hc]

theorem On.forw (h : L.On lcp done (pb :: todo)) :
    L.On { lcp with mfp := some (L.position lcp.curvol (done ++ [pb]) todo) } (done ++ [pb]) todo :=
  ⟨rfl, by simpa using h.recs, h.seen⟩

theorem On.back (h : L.On lcp (done ++ [pb]) todo) :
    L.On { lcp with mfp := some (L.position lcp.curvol done (pb :: todo)) } done (pb :: todo) :=
  ⟨rfl, by simpa using h.recs, h.seen⟩

def Void (L : Layout) (v : Int) : Prop :=
  L.recs v = none ∨ L.recs v = some []

structure Tried (L : Layout) (lcp : LogCtl) (v : Int) (f : File Int) : Prop where
  seen : L.Sees lcp.seen
  good : L.recs v ≠ none → lcp.curvol = v ∧ lcp.mfp = some f
  bad : L.recs v = none → lcp.curvol ≠ v ∧ ∀ f, lcp.mfp = some f → f.name = v

theorem nextHead_void (offset n : Nat) (hf : L.Fits ar) (hs : L.Sees lcp.seen)
    (hc : lcp.curvol < vol) (hv : L.Void vol) :
    ∃ curvol mfp seen, nextHead ar offset lcp vol (n + 1) =
        nextHead ar offset { lcp with curvol, mfp, seen } (vol + 1) n ∧ curvol < vol + 1 ∧
      L.Tried { lcp with curvol, mfp, seen } vol ((L.position vol [] []).seekSet offset) := by
  obtain hr | hr := hv
  · obtain ⟨seen, mfp, sts, he, h₀, hs', hm⟩ := hf.changeVol_bad hs hc.ne hr
    exact ⟨lcp.curvol, mfp, seen, by simp [nextHead, he, h₀], by omega, hs', absurd hr,
      fun _ => ⟨hc.ne, hm⟩⟩
  · obtain ⟨seen, sts, he, h₀, hs'⟩ := hf.changeVol_good hs hc.ne hr
    have hp : (L.position vol [] []).read 4 = ([], L.position vol [] []) := File.between_read_end
    exact ⟨vol, _, seen, by simp [nextHead, he, not_lt.mpr h₀, hp], by omega, hs',
      fun _ => ⟨rfl, rfl⟩, fun hr' => absurd hr' (by simp [hr])⟩

theorem nextHead_some (offset : Nat) {n : Nat} (hf : L.Fits ar) (hs : L.Sees lcp.seen)
    (hc : lcp.curvol < vol) (hv : vol ≤ v) (hn : v < vol + n) (hr : L.recs v = some (pb :: pbs))
    (hu : ∀ u, vol ≤ u → u < v → L.Void u) :
    ∃ seen, nextHead ar offset lcp vol n = some ({ lcp with
        seen, curvol := v
        mfp := some (.between v (L.header v ++ htonl (pb.data.length + 8))
          (pb.data ++ (htonl (pb.data.length + 8) ++ records pbs)))
      }, some ↑(pb.data.length + 8)) ∧ L.Sees seen := by
  induction n generalizing lcp vol
  case zero => omega
  case succ n hi =>
    obtain rfl | hlt := hv.eq_or_lt
    · obtain ⟨seen, sts, he, h₀, hs'⟩ := hf.changeVol_good hs hc.ne hr
      refine ⟨seen, ?_, hs'⟩
      have hp : L.header vol ++ records [] = L.header vol := by simp
      simp only [nextHead, he, not_lt.mpr h₀, if_false, bind_eq_bind, bind_some,
        position_read, htonl_length, ne_eq, not_true_eq_false, pb.ntohl_head, hp]
      rfl
    · obtain ⟨_, _, _, he, hc', ht⟩ := nextHead_void offset n hf hs hc (hu vol le_rfl hlt)
      rw [he]
      exact hi ht.seen hc' hlt (by omega) fun u h₁ => hu u (by omega)

theorem nextHead_none (offset : Nat) {n : Nat} (hf : L.Fits ar) (hs : L.Sees lcp.seen)
    (hc : lcp.curvol < vol) (hu : ∀ u, vol ≤ u → u ≤ vol + n → L.Void u) :
    ∃ curvol mfp seen, nextHead ar offset lcp vol (n + 1) =
        some ({ lcp with curvol, mfp, seen }, none) ∧
      L.Tried { lcp with curvol, mfp, seen } (vol + n)
        ((L.position (vol + n) [] []).seekSet offset) := by
  induction n generalizing lcp vol
  case zero =>
    obtain ⟨c, m, s, he, -, ht⟩ := nextHead_void offset 0 hf hs hc (hu vol le_rfl (by omega))
    exact ⟨c, m, s, he, by simpa using ht⟩
  case succ n hi =>
    obtain ⟨_, _, _, he, hc', ht⟩ :=
      nextHead_void offset (n + 1) hf hs hc (hu vol le_rfl (by omega))
    rw [he, Nat.cast_succ, add_comm (n : Int), ← add_assoc]
    exact hi ht.seen hc' fun u h₁ h₂ => hu u (by omega) (by omega)

theorem prevEnd_void (n : Nat) (hf : L.Fits ar) (hs : L.Sees lcp.seen) (hc : vol < lcp.curvol)
    (hv : L.Void vol) :
    ∃ curvol mfp seen, prevEnd ar lcp vol (n + 1) =
        prevEnd ar { lcp with curvol, mfp, seen } (vol - 1) n ∧ vol - 1 < curvol ∧
      L.Tried { lcp with curvol, mfp, seen } vol (L.position vol [] []) := by
  obtain hr | hr := hv
  · obtain ⟨seen, mfp, sts, he, h₀, hs', hm⟩ := hf.changeVol_bad hs hc.ne' hr
    exact ⟨lcp.curvol, mfp, seen, by simp [prevEnd, he, h₀], by omega, hs', absurd hr,
      fun _ => ⟨hc.ne', hm⟩⟩
  · obtain ⟨seen, sts, he, h₀, hs'⟩ := hf.changeVol_good hs hc.ne' hr
    have hp : (L.position vol [] []).seekEnd = L.position vol [] [] := by
      simp [position, File.between_seekEnd]
    exact ⟨vol, _, seen, by simp [prevEnd, he, not_lt.mpr h₀, hp, position_pos], by omega, hs',
      fun _ => ⟨rfl, rfl⟩, fun hr' => absurd hr' (by simp [hr])⟩

theorem prevEnd_some {n : Nat} (hf : L.Fits ar) (hs : L.Sees lcp.seen) (hc : vol < lcp.curvol)
    (hv : v ≤ vol) (hn : vol - n < v) (hr : L.recs v = some (pbs ++ [pb]))
    (hu : ∀ u, v < u → u ≤ vol → L.Void u) :
    ∃ seen, prevEnd ar lcp vol n = some ({ lcp with
        seen, curvol := v, mfp := some (L.position v (pbs ++ [pb]) [])
      }, some (L.position v (pbs ++ [pb]) [])) ∧ L.Sees seen := by
  induction n generalizing lcp vol
  case zero => omega
  case succ n hi =>
    obtain rfl | hlt := hv.eq_or_lt
    · obtain ⟨seen, sts, he, h₀, hs'⟩ := hf.changeVol_good hs hc.ne' hr
      refine ⟨seen, ?_, hs'⟩
      have hp : (L.position v [] (pbs ++ [pb])).seekEnd = L.position v (pbs ++ [pb]) [] := by
        simp [position, File.between_seekEnd]
      have hl : ¬(L.position v (pbs ++ [pb]) []).pos ≤ labelSize := by
        simp only [position_pos, records_append, length_append]
        have := @records_pos pb []
        omega
      simp [prevEnd, he, not_lt.mpr h₀, hp, hl]
    · obtain ⟨_, _, _, he, hc', ht⟩ := prevEnd_void n hf hs hc (hu vol hlt le_rfl)
      rw [he]
      exact hi ht.seen hc' (by omega) (by omega) fun u h₁ h₂ => hu u h₁ (by omega)

theorem prevEnd_none {n : Nat} (hf : L.Fits ar) (hs : L.Sees lcp.seen) (hc : vol < lcp.curvol)
    (hu : ∀ u, vol - n ≤ u → u ≤ vol → L.Void u) :
    ∃ curvol mfp seen, prevEnd ar lcp vol (n + 1) = some ({ lcp with curvol, mfp, seen }, none) ∧
      L.Tried { lcp with curvol, mfp, seen } (vol - n) (L.position (vol - n) [] []) := by
  induction n generalizing lcp vol
  case zero =>
    obtain ⟨c, m, s, he, -, ht⟩ := prevEnd_void 0 hf hs hc (hu vol (by omega) le_rfl)
    exact ⟨c, m, s, he, by simpa using ht⟩
  case succ n hi =>
    obtain ⟨_, _, _, he, hc', ht⟩ := prevEnd_void (n + 1) hf hs hc (hu vol (by omega) le_rfl)
    rw [he, Nat.cast_succ, add_comm (n : Int), ← sub_sub]
    exact hi ht.seen hc' fun u h₁ h₂ => hu u (by omega) (by omega)

section Volumes

variable (option : ReadOption)

theorem position_seekSet : (L.position v done todo).seekSet (L.position v done todo).pos =
    L.position v done todo :=
  rfl

theorem On.read_forw_roll (h : L.On lcp done []) :
    logRead ar codec .forw option lcp =
      (nextHead ar (L.position lcp.curvol done []).pos lcp (lcp.curvol + 1)
        (lcp.maxvol - lcp.curvol).toNat).bind fun
        | (lcp', none) => some (lcp', .error pmErrEol)
        | (lcp', some head) => lcp'.mfp.bind fun f =>
          let (f, r) := readRecord codec .forw option (L.position lcp.curvol done []).pos head f
          some ({ lcp' with mfp := some f }, r) := by
  have hp : (L.position lcp.curvol done []).read 4 = ([], L.position lcp.curvol done []) :=
    File.between_read_end
  simp only [logRead, readAgain, h.mfp, hp, bind_eq_bind, bind_some, length_nil,
    ne_eq, OfNat.zero_ne_ofNat, not_false_eq_true, position_seekSet]
  rw [← h.mfp]
  rfl

theorem On.read_forw_next (hf : L.Fits ar) (h : L.On lcp done []) (hv : lcp.curvol < v)
    (hm : v ≤ lcp.maxvol) (hr : L.recs v = some (pb :: pbs))
    (hu : ∀ u, lcp.curvol < u → u < v → L.Void u) (hc : codec.Reads pb r) :
    ∃ seen, logRead ar codec .forw option lcp = some ({ lcp with
        seen, curvol := v, mfp := some (L.position v [pb] pbs)
      }, .ok r) ∧ L.Sees seen := by
  have ⟨seen, he, hs⟩ := nextHead_some (L.position lcp.curvol done []).pos
    (n := (lcp.maxvol - lcp.curvol).toNat) hf h.seen (show lcp.curvol < lcp.curvol + 1 by omega)
    (by omega) (by omega) hr fun u h₁ => hu u (by omega)
  refine ⟨seen, ?_, hs⟩
  have hx := hc.forw option (L.position lcp.curvol done []).pos (v := v) (p := L.header v)
    (q := records pbs)
  simp only [h.read_forw_roll option, he, bind_some, Nat.cast_add, Nat.cast_ofNat, hx]
  simp [position]

theorem On.read_forw_last (h : L.On lcp done []) (hm : lcp.maxvol ≤ lcp.curvol) :
    logRead ar codec .forw option lcp = some (lcp, .error pmErrEol) := by
  have hn : (lcp.maxvol - lcp.curvol).toNat = 0 := by omega
  simp [h.read_forw_roll option, hn, nextHead]

theorem On.read_forw_end (codec : Codec ρ) (hf : L.Fits ar) (h : L.On lcp done [])
    (hm : lcp.curvol < lcp.maxvol) (hu : ∀ u, lcp.curvol < u → u ≤ lcp.maxvol → L.Void u) :
    ∃ curvol mfp seen, logRead ar codec .forw option lcp =
        some ({ lcp with curvol, mfp, seen }, .error pmErrEol) ∧
      L.Tried { lcp with curvol, mfp, seen } lcp.maxvol
        ((L.position lcp.maxvol [] []).seekSet (L.position lcp.curvol done []).pos) := by
  have hn : (lcp.maxvol - lcp.curvol).toNat = (lcp.maxvol - lcp.curvol - 1).toNat + 1 := by omega
  have hl : lcp.curvol + 1 + ↑(lcp.maxvol - lcp.curvol - 1).toNat = lcp.maxvol := by omega
  have ⟨c, m, s, he, ht⟩ := nextHead_none (L.position lcp.curvol done []).pos
    (n := (lcp.maxvol - lcp.curvol - 1).toNat) hf h.seen
    (show lcp.curvol < lcp.curvol + 1 by omega) fun u h₁ h₂ => hu u (by omega) (by omega)
  rw [hl] at ht
  exact ⟨c, m, s, by rw [h.read_forw_roll option, hn, he]; rfl, ht⟩

theorem On.read_back_roll (h : L.On lcp [] todo) :
    logRead ar codec .back option lcp =
      (prevEnd ar lcp (lcp.curvol - 1) (lcp.curvol - lcp.minvol).toNat).bind fun
        | (lcp, none) => some (lcp, .error pmErrEol)
        | (lcp, some f) => readAgain ar codec .back option lcp f.pos (f.seekCur (-4)) := by
  simp only [logRead, h.mfp, bind_eq_bind, bind_some, position_pos, records_nil,
    length_nil, add_zero, le_refl, if_true]
  rfl

theorem On.read_back_prev (hf : L.Fits ar) (h : L.On lcp [] todo) (hv : v < lcp.curvol)
    (hm : lcp.minvol ≤ v) (hr : L.recs v = some (pbs ++ [pb]))
    (hu : ∀ u, v < u → u < lcp.curvol → L.Void u) (hc : codec.Reads pb r) :
    ∃ seen, logRead ar codec .back option lcp = some ({ lcp with
        seen, curvol := v, mfp := some (L.position v pbs [pb])
      }, .ok r) ∧ L.Sees seen := by
  have ⟨seen, he, hs⟩ := prevEnd_some (n := (lcp.curvol - lcp.minvol).toNat) hf h.seen
    (show lcp.curvol - 1 < lcp.curvol by omega) (by omega) (by omega) hr
    fun u h₁ h₂ => hu u h₁ (by omega)
  refine ⟨seen, ?_, hs⟩
  simp [h.read_back_roll option, he, readAgain_back hc]

theorem On.read_back_first (h : L.On lcp [] todo) (hm : lcp.curvol ≤ lcp.minvol) :
    logRead ar codec .back option lcp = some (lcp, .error pmErrEol) := by
  have hn : (lcp.curvol - lcp.minvol).toNat = 0 := by omega
  simp [h.read_back_roll option, hn, prevEnd]

theorem On.read_back_start (codec : Codec ρ) (hf : L.Fits ar) (h : L.On lcp [] todo)
    (hm : lcp.minvol < lcp.curvol) (hu : ∀ u, lcp.minvol ≤ u → u < lcp.curvol → L.Void u) :
    ∃ curvol mfp seen, logRead ar codec .back option lcp =
        some ({ lcp with curvol, mfp, seen }, .error pmErrEol) ∧
      L.Tried { lcp with curvol, mfp, seen } lcp.minvol (L.position lcp.minvol [] []) := by
  have hn : (lcp.curvol - lcp.minvol).toNat = (lcp.curvol - lcp.minvol - 1).toNat + 1 := by omega
  have hl : lcp.curvol - 1 - ↑(lcp.curvol - lcp.minvol - 1).toNat = lcp.minvol := by omega
  have ⟨c, m, s, he, ht⟩ := prevEnd_none (n := (lcp.curvol - lcp.minvol - 1).toNat) hf h.seen
    (show lcp.curvol - 1 < lcp.curvol by omega) fun u h₁ h₂ => hu u (by omega) (by omega)
  rw [hl] at ht
  exact ⟨c, m, s, by rw [h.read_back_roll option, hn, he]; rfl, ht⟩

end Volumes

end Layout

end Log
