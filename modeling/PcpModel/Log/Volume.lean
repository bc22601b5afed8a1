import PcpModel.Log.Basic

namespace Log

open Stdio List CInt

def Pdu.record (pb : Pdu) : List UInt8 :=
  htonl (pb.data.length + 8) ++ (pb.data ++ htonl (pb.data.length + 8))

def records (pbs : List Pdu) : List UInt8 :=
  pbs.flatMap (·.record)

@[simp]
theorem records_nil : records [] = [] :=
  rfl

@[simp]
theorem records_cons : records (pb :: pbs) = pb.record ++ records pbs :=
  rfl

@[simp]
theorem records_append : records (pbs ++ pbs') = records pbs ++ records pbs' :=
  flatMap_append

theorem records_pos : 0 < (records (pb :: pbs)).length := by
  simp only [records_cons, Pdu.record, length_append, htonl_length]
  omega

theorem logPutResult_init (h : lcp.state = .init) :
    logPutResult lcp pb = { lcp with mfp := lcp.mfp ++ pb.record } := by
  have hs := pb.small
  have hh : int (pb.len - 12 + 8) = pb.data.length + 8 := by
    rw [Pdu.len, int_eq (by omega) (by simp only [intMax]; omega)]
    omega
  have hz : int ((pb.data.length + 8 : Int) - 4) = pb.data.length + 4 := by
    rw [int_eq (by omega) (by simp only [intMax]; omega)]
    omega
  have ht : ((htonl (pb.data.length + 8 : Int)) ++ pb.data).take (pb.data.length + 4 : Int).toNat =
      htonl (pb.data.length + 8) ++ pb.data := by
    apply take_of_length_le
    simp only [length_append, htonl_length]
    omega
  simp [logPutResult, h, hh, hz, ht, Pdu.record]

theorem foldl_logPutResult (h : lcp.state = .init) :
    (pbs.foldl logPutResult lcp).mfp = lcp.mfp ++ records pbs := by
  induction pbs generalizing lcp
  case nil => simp
  case cons pb pbs hi =>
    rw [foldl_cons, logPutResult_init h, hi (by exact h), records_cons, append_assoc]

def volume (lp : Label) (pbs : List Pdu) : List UInt8 :=
  (pbs.foldl logPutResult ⟨.init, lp, [], [], logWriteLabel lp⟩).mfp

theorem volume_eq {lp : Label} : volume lp pbs = logWriteLabel lp ++ records pbs :=
  foldl_logPutResult rfl

section Record

variable {ρ : Type} {codec : Codec ρ} {r : ρ}

-- The record is a result that can be decoded.
structure Codec.Reads (codec : Codec ρ) (pb : Pdu) (r : ρ) : Prop where
  check : codec.check pb.data
  decode : codec.decode pb.data = some r

theorem Pdu.rlen (pb : Pdu) : int ((pb.data.length + 8 : Int) - 8) = pb.data.length := by
  have := pb.small
  rw [int_eq (by omega) (by simp only [intMax]; omega)]
  omega

theorem Pdu.ntohl_head (pb : Pdu) : ntohl (htonl (pb.data.length + 8)) = pb.data.length + 8 := by
  have := pb.small
  exact ntohl_htonl (by omega) (by simp only [intMax]; omega)

theorem Codec.Reads.forw (h : codec.Reads pb r) (option : ReadOption) (offset : Nat) :
    readRecord codec .forw option offset (pb.data.length + 8)
      (.between v (p ++ htonl (pb.data.length + 8))
        (pb.data ++ (htonl (pb.data.length + 8) ++ q))) =
      (.between v (p ++ pb.record) q, .ok r) := by
  have hn : ¬(pb.data.length : Int) < 0 := by omega
  simp only [readRecord, pb.rlen, hn, if_false, Int.toNat_natCast, reduceCtorEq, false_and,
    File.between_read rfl, File.between_read htonl_length, pb.ntohl_head, h.check,
    h.decode, not_true_eq_false]
  simp [Pdu.record]

theorem Codec.Reads.back (h : codec.Reads pb r) (option : ReadOption)
    (ho : pb.data.length ≤ offset) :
    readRecord codec .back option offset (pb.data.length + 8)
      (.between v (p ++ pb.record) q) = (.between v p (pb.record ++ q), .ok r) := by
  have hn : ¬((pb.data.length : Int) < 0 ∨ (pb.data.length : Int) > offset) := by omega
  have h₁ : (File.between v (p ++ pb.record) q).seekCur (-(4 + pb.data.length)) =
      .between v (p ++ htonl (pb.data.length + 8))
        (pb.data ++ (htonl (pb.data.length + 8) ++ q)) := by
    rw [Pdu.record, ← append_assoc, File.between_seekCur (by simp; omega), append_assoc]
  have h₂ : (File.between v (p ++ htonl (pb.data.length + 8) ++ pb.data)
      (htonl (pb.data.length + 8) ++ q)).seekCur (-(pb.data.length + 4)) =
      .between v p (pb.record ++ q) := by
    rw [append_assoc, File.between_seekCur (by simp; omega), Pdu.record]
    simp only [append_assoc]
  have h₃ : (File.between v p (pb.record ++ q)).read 4 =
      (htonl (pb.data.length + 8), .between v (p ++ htonl (pb.data.length + 8))
        (pb.data ++ htonl (pb.data.length + 8) ++ q)) := by
    rw [Pdu.record, append_assoc, File.between_read htonl_length]
  have h₄ : (File.between v (p ++ htonl (pb.data.length + 8))
      (pb.data ++ htonl (pb.data.length + 8) ++ q)).seekCur (-4) =
      .between v p (pb.record ++ q) := by
    rw [File.between_seekCur (by simp), Pdu.record]
    simp only [append_assoc]
  simp only [readRecord, pb.rlen, true_and, hn, if_false, if_true, Int.toNat_natCast, h₁,
    File.between_read rfl, h₂, h₃, h₄, htonl_length, pb.ntohl_head, h.check, h.decode, ne_eq,
    not_true_eq_false, and_false]

end Record

-- There is nothing to be read from a volume if it is missing or if its label is bad.
structure Layout where
  label : Int → Label
  recs : Int → Option (List Pdu)

namespace Layout

variable (L : Layout)

def header (v : Int) : List UInt8 :=
  logWriteLabel (L.label v)

structure Labelled (v : Int) : Prop where
  magic : (L.label v).magic = pmLogMagic + pmLogVers02
  vol : (L.label v).vol = v
  lower : 0 ≤ v
  upper : v ≤ CInt.intMax

-- The element of `l_seen` for a volume with a bad label happens to be 0.
structure Fits (ar : Archive) : Prop where
  label : ∀ v pbs, L.recs v = some pbs → L.Labelled v
  data : ∀ v pbs, L.recs v = some pbs → ar.file v = some (volume (L.label v) pbs)
  bad : ∀ v data, L.recs v = none → ar.file v = some data → (readLabel ⟨v, data, 0⟩ v).2 < 0
  junk : ∀ v, L.recs v = none → ar.junk v = false

def position (v : Int) (done todo : List Pdu) : File Int :=
  .between v (L.header v ++ records done) (records todo)

-- Only volumes with good labels have been seen.
def Sees (seen : List Bool) : Prop :=
  ∀ v ≥ 0, seen.getD v.toNat false → L.recs v ≠ none

variable {L : Layout} {ar : Archive}

@[simp]
theorem header_length : (L.header v).length = labelSize := by
  simp [header, logWriteLabel, Label.bytes, labelSize]

theorem position_pos : (L.position v done todo).pos = labelSize + (records done).length := by
  simp [position]

theorem Labelled.readLabel (h : L.Labelled v) :
    readLabel ⟨v, L.header v ++ q, 0⟩ v = (.between v (L.header v) q, 2) := by
  have h₀ : (⟨v, L.header v ++ q, 0⟩ : File Int).seekSet 0 =
      .between v [] (htonl labelSize ++ ((L.label v).bytes ++ (htonl labelSize ++ q))) := by
    simp [File.seekSet, File.between, header, logWriteLabel]
  have h₁ : ntohl (htonl labelSize) = labelSize := by decide
  have h₂ : (L.label v).bytes.length = 124 := by simp [Label.bytes]
  have h₃ : (uint (ntohl ((L.label v).bytes.take 4))).toNat = pmLogMagic + pmLogVers02 := by
    have ht : (L.label v).bytes.take 4 = htonl (L.label v).magic := rfl
    rw [ht, h.magic]
    decide
  have h₄ : ntohl (((L.label v).bytes.drop 16).take 4) = v := by
    have ht : ((L.label v).bytes.drop 16).take 4 = htonl (L.label v).vol := rfl
    rw [ht, h.vol, ntohl_htonl (by have := h.lower; omega) h.upper]
  have h₅ : (pmLogMagic + pmLogVers02) &&& 0xffffff00 = pmLogMagic := by decide
  have h₆ : (pmLogMagic + pmLogVers02) &&& 0xff = pmLogVers02 := by decide
  simp only [Log.readLabel, h₀, File.between_read htonl_length,
    File.between_read h₂, h₂, h₃, h₄, h₆, ne_eq, not_true_eq_false]
  rfl

theorem readLabel_name : (readLabel f v).1.name = f.name := by
  have h {c : Prop} [Decidable c] {r r' : File Int × Int} (hr : r.1.name = f.name)
      (hr' : r'.1.name = f.name) : (if c then r else r').1.name = f.name := by
    split <;> assumption
  exact h rfl <| h rfl <| h rfl <| h rfl rfl

theorem getD_growSeen (h : (growSeen junk seen v).getD i false) :
    seen.getD i false ∨ i = v.toNat ∧ 0 ≤ v ∧ junk := by
  unfold growSeen at h
  split at h
  case isFalse => exact .inl h
  case isTrue hv =>
    grind

theorem Fits.sees_grow (hf : L.Fits ar) (hs : L.Sees seen) :
    L.Sees (growSeen (ar.junk v) seen v) := by
  intro u hu hg hn
  obtain hg | ⟨hi, hv, hj⟩ := getD_growSeen hg
  · exact hs u hu hg hn
  · obtain rfl : u = v := by omega
    simp [hf.junk u hn] at hj

theorem Sees.set (hs : L.Sees seen) (hr : L.recs v ≠ none) (hv : 0 ≤ v) :
    L.Sees (seen.set v.toNat true) := by
  intro u hu hg
  by_cases h : u = v
  · exact h ▸ hr
  · rw [getD_eq_getElem?_getD, getElem?_set_ne (by omega)] at hg
    exact hs u hu (by rwa [getD_eq_getElem?_getD])

section ChangeVol

variable {lcp : LogCtl}

theorem Fits.logChkLabel (hf : L.Fits ar) (hs : L.Sees seen) (hr : L.recs v = some pbs) :
    ∃ seen' sts, logChkLabel ar seen ⟨v, L.header v ++ records pbs, 0⟩ v =
      (seen', L.position v [] pbs, sts) ∧ 0 ≤ sts ∧ L.Sees seen' := by
  have hl := hf.label v pbs hr
  unfold Log.logChkLabel
  split
  case isTrue =>
    refine ⟨seen, 0, ?_, le_rfl, hs⟩
    simp [File.seekSet, position, File.between]
  case isFalse =>
    have hg := (hf.sees_grow hs (v := v)).set (by simp [hr]) hl.lower
    refine ⟨_, 2, ?_, by decide, hg⟩
    simp [hl.readLabel, hl.lower, position]

theorem Fits.changeVol_good (hf : L.Fits ar) (hs : L.Sees lcp.seen) (hc : lcp.curvol ≠ v)
    (hr : L.recs v = some pbs) :
    ∃ seen sts, logChangeVol ar lcp v =
      ({ lcp with seen, mfp := some (L.position v [] pbs), curvol := v }, sts) ∧
      0 ≤ sts ∧ L.Sees seen := by
  have ⟨seen, sts, he, h₀, hs'⟩ := hf.logChkLabel hs hr
  refine ⟨seen, sts, ?_, h₀, hs'⟩
  have hd : ar.file v = some (L.header v ++ records pbs) := by rw [hf.data v pbs hr, volume_eq]; rfl
  simp [logChangeVol, hc, hd, he, not_lt.mpr h₀]

theorem Fits.changeVol_bad (hf : L.Fits ar) (hs : L.Sees lcp.seen) (hc : lcp.curvol ≠ v)
    (hr : L.recs v = none) :
    ∃ seen mfp sts, logChangeVol ar lcp v = ({ lcp with seen, mfp }, sts) ∧
      sts < 0 ∧ L.Sees seen ∧ ∀ f, mfp = some f → f.name = v := by
  unfold logChangeVol
  rw [if_neg hc]
  cases hd : ar.file v
  case none => exact ⟨lcp.seen, none, _, rfl, by decide, hs, nofun⟩
  case some data =>
    have hb := hf.bad v data hr hd
    have hn : ¬(v ≥ 0 ∧ lcp.seen.getD v.toNat false) := fun ⟨h₀, hg⟩ => hs v h₀ hg hr
    have hx : ¬((readLabel ⟨v, data, 0⟩ v).2 ≥ 0 ∧ v ≥ 0) := by omega
    refine ⟨_, _, _, by simp only [Log.logChkLabel, hn, if_false, hx, hb]; rfl, hb,
      hf.sees_grow hs, ?_⟩
    rintro f ⟨⟩
    exact readLabel_name

end ChangeVol

def ofVolumes (vols : List (Option (List Pdu))) : Layout where
  label v := ⟨pmLogMagic + pmLogVers02, 1, 0, 0, v, .replicate 64 0, .replicate 40 0⟩
  recs v := if 0 ≤ v then vols.getD v.toNat none else none

def archive (L : Layout) : Archive where
  file v := (L.recs v).map (volume (L.label v))
  junk _ := false

theorem archive_fits (h : vols.length ≤ intMax) :
    (ofVolumes vols).Fits (ofVolumes vols).archive where
  label v pbs hr := by
    have ⟨h₀, hv⟩ : 0 ≤ v ∧ vols.getD v.toNat none ≠ none := by
      simp only [ofVolumes] at hr
      split at hr
      case isTrue h₀ => exact ⟨h₀, by rw [hr]; simp⟩
      case isFalse => contradiction
    refine ⟨rfl, rfl, h₀, ?_⟩
    by_contra hn
    have hn : vols[v.toNat]? = none := getElem?_eq_none (by omega)
    simp [hn] at hv
  data v pbs hr := by simp [archive, hr]
  bad v data hr := by simp [archive, hr]
  junk _ _ := rfl

end Layout

end Log
