import PcpModel.AF.Queue
import PcpModel.Library.Double

-- Times relative to an archive and time windows (rtime.c).
namespace Rtime

open CInt

open Pcp (Timeval)

open Double (rnd)

abbrev Text := List Char

def isSpace (c : Char) : Bool :=
  c = ' ' ∨ ('\t' ≤ c ∧ c ≤ '\r')

-- A negative scale is a divisor.
def intTab : List (Text × Int) :=
  [("millisecond".toList, -1000), ("second".toList, 1), ("minute".toList, 60),
    ("hour".toList, 3600), ("day".toList, 86400), ("msec".toList, -1000), ("sec".toList, 1),
    ("min".toList, 60), ("hr".toList, 3600), (['s'], 1), (['m'], 60), (['h'], 3600), (['d'], 86400)]

-- A trailing 's' is ignored.
def scale (word : Text) : Option Int :=
  if word = [] then
    some 1
  else
    let word := word.map Char.toLower
    let word := if word.length > 1 ∧ word.getLast? = some 's' then word.dropLast else word
    (intTab.find? (·.1 = word)).map (·.2)

def scaled (d : ℚ) (k : Int) : ℚ :=
  if k < 0 then rnd (d / (-k : Int)) else rnd (d * k)

-- `strtod` finds a number and how many characters follow its first one, and `ctime` is what
-- __pmParseCtime and __pmConvertTime make of an absolute time.
structure Libc where
  strtod : Text → Option (ℚ × Nat)
  ctime : Text → Timeval → Option Timeval
  normal : ctime scan start = some t → t.Normal ∨ t.usec = start.usec

inductive Offset
  | plus
  | neg

-- __pmConvertTime
def convertTime (origin : Timeval) (tm : Timeval) : Offset → Timeval
  | .plus =>
    let usec := origin.usec + tm.usec
    if usec > 1000000 then
      ⟨origin.sec + 1 + tm.sec, usec - 1000000⟩
    else
      ⟨origin.sec + tm.sec, usec⟩
  | .neg =>
    if origin.usec < tm.usec then
      ⟨origin.sec - 1 - tm.sec, origin.usec + 1000000 - tm.usec⟩
    else
      ⟨origin.sec - tm.sec, origin.usec - tm.usec⟩

-- tvcmp(a, b) < 0
def Before (a b : Timeval) : Prop :=
  a.sec < b.sec ∨ (a.sec = b.sec ∧ a.usec < b.usec)

instance : Decidable (Before a b) :=
  inferInstanceAs (Decidable (_ ∨ _))

def forwards (first t : Timeval) : Timeval :=
  if Before t first then first else t

def backwards (last t : Timeval) : Timeval :=
  if Before last t then last else t

structure Switches where
  start : Option Text
  finish : Option Text
  align : Option Text
  offset : Option Text

structure Window where
  start : Timeval
  finish : Timeval
  offset : Timeval
  sts : Bool
  deriving DecidableEq

inductive Failure
  | rejected
  | divided
  deriving DecidableEq

def ofTotal (n : Int) : Timeval :=
  ⟨n.tdiv 1000000, n.tmod 1000000⟩

def align (delta t : Int) : Int :=
  let blign := t.tdiv delta * delta
  if blign < t then blign + delta else blign

def moveBack (finish : Timeval) (delta blign : Int) : Int :=
  if blign > finish.total then blign - delta else blign

-- The aligned time and whether it is in the bounds. Otherwise the time stays as it is.
def alignIn (delta : Option Int) (move : Int → Int → Int) (t lo hi : Timeval) : Timeval × Bool :=
  match delta with
  | none => (t, true)
  | some delta =>
    let a := ofTotal (move delta (align delta t.total))
    if ¬Before a lo ∧ ¬Before hi a then (a, true) else (t, false)

section

variable (lib : Libc)

-- Where the loop has stopped, and the sum of the components before.
def components : (fuel : Nat) → Text → ℚ → Text × ℚ
  | 0, scan, sec => (scan, sec)
  | fuel + 1, scan, sec =>
    if scan = [] then
      (scan, sec)
    else
      let scan := scan.dropWhile isSpace
      match lib.strtod scan with
      | none => (scan, sec)
      | some (d, n) =>
        let d := rnd d
        if d < 0 ∨ d > CInt.intMax then
          (scan, sec)
        else
          let scan := (scan.drop (n + 1)).dropWhile isSpace
          let word := scan.takeWhile Char.isAlpha
          match scale word with
          | none => (scan, sec)
          | some k => components fuel (scan.drop word.length) (rnd (sec + scaled d k))

-- pmParseInterval
def parseInterval (spec : Text) : Option Timeval :=
  if spec = [] then
    none
  else
    let (scan, sec) := components lib spec.length spec 0
    if scan ≠ [] then none else some ⟨⌊sec⌋, ⌊rnd (1000000 * rnd (sec - ⌊sec⌋))⌋⟩

-- __pmParseTime
def parseTime (string : Text) (start finish : Timeval) : Option Timeval :=
  let scan := string.dropWhile isSpace
  let tm (spec : Text) := (parseInterval lib spec).map fun t => ⟨CInt.int t.sec, t.usec⟩
  if scan.head? = some '@' then
    lib.ctime scan.tail start
  else if finish.sec < CInt.intMax ∧ scan.head? = some '-' then
    (tm scan.tail).map (convertTime finish · .neg)
  else
    (tm (if scan.head? = some '+' then scan.tail else scan)).map (convertTime start · .plus)

def parsed (sw : Option Text) (parse : Text → Option α) (default : α) : Except Failure α :=
  match sw with
  | none => .ok default
  | some spec => (parse spec).elim (.error .rejected) .ok

-- The alignment, by which the times are divided.
def interval : Option Text → Except Failure (Option Int)
  | none => .ok none
  | some spec =>
    match parseInterval lib spec with
    | none => .error .rejected
    | some t => if t.total = 0 then .error .divided else .ok (some t.total)

-- The last part of `pmParseTimeWindow`, in which -O is looked at.
def placeOffset (sw : Option Text) (delta : Option Int) (start finish : Timeval) (sts : Bool) :
    Except Failure Window :=
  match sw with
  | none => .ok { start, finish, offset := start, sts }
  | some spec =>
    match parseTime lib spec start finish with
    | none => .error .rejected
    | some offset =>
      let offset := if Before offset start then start else backwards finish offset
      let (offset, sts') := alignIn delta (moveBack finish) offset start finish
      .ok { start, finish, offset, sts := sts && sts' }

-- An archive that is still growing has no end.
def limit (logEnd : Timeval) : Timeval :=
  if logEnd.sec = CInt.intMax then ⟨logEnd.sec, 999999⟩ else logEnd

def pmParseTimeWindow (sw : Switches) (logStart logEnd : Timeval) : Except Failure Window := do
  let finish := limit logEnd
  let start ← parsed sw.start (parseTime lib · logStart finish) logStart
  let start := forwards logStart start
  let delta ← interval lib sw.align
  let (start, sts) := alignIn delta (fun _ blign => blign) start logStart logEnd
  let finish ← parsed sw.finish (parseTime lib · start finish) finish
  let finish := backwards logEnd finish
  placeOffset lib sw.offset delta start finish sts

end

variable {lib : Libc} {a b t lo hi : Timeval} {delta : Option Int}

theorem convertTime_neg : convertTime a b .neg = a.tsubReal b := by
  simp only [convertTime, Timeval.tsubReal]
  all_goals grind

theorem scaled_nonneg (h : 0 ≤ d) : 0 ≤ scaled d k := by
  rw [scaled]
  split <;> apply Double.rnd_nonneg
  · exact div_nonneg h (Int.cast_nonneg (by omega))
  · exact mul_nonneg h (Int.cast_nonneg (by omega))

theorem components_nonneg (h : 0 ≤ sec) : 0 ≤ (components lib fuel scan sec).2 := by
  fun_induction components lib fuel scan sec
  case case6 hd _ _ k hk hi =>
    have := not_or.mp hd
    exact hi (Double.rnd_nonneg (add_nonneg h (scaled_nonneg (not_lt.mp this.left))))
  all_goals exact h

def Near (t : Timeval) : Prop :=
  0 ≤ t.usec ∧ t.usec ≤ 1000000

theorem parseInterval_near (h : parseInterval lib spec = some tm) : Near tm ∧ 0 ≤ tm.sec := by
  simp only [parseInterval] at h
  split at h
  · contradiction
  · split at h
    · contradiction
    · cases h
      have hs : 0 ≤ (components lib spec.length spec 0).2 := components_nonneg (le_refl 0)
      generalize (components lib spec.length spec 0).2 = sec at hs ⊢
      have hf : 0 ≤ sec - ⌊sec⌋ := Int.fract_nonneg sec
      have h₁ : rnd (sec - ⌊sec⌋) ≤ rnd 1 := Double.rnd_mono hf (Int.fract_lt_one sec).le
      have hn : 0 ≤ 1000000 * rnd (sec - ⌊sec⌋) := mul_nonneg (by norm_num) (Double.rnd_nonneg hf)
      have h₂ : rnd (1000000 * rnd (sec - ⌊sec⌋)) ≤ rnd 1000000 := by
        refine Double.rnd_mono hn ?_
        rw [show rnd 1 = 1 by decide +kernel] at h₁
        linarith
      rw [show rnd 1000000 = 1000000 by decide +kernel] at h₂
      have hu : ⌊rnd (1000000 * rnd (sec - ⌊sec⌋))⌋ ≤ 1000000 :=
        Int.floor_le_iff.mpr (by push_cast; linarith)
      exact ⟨⟨Int.floor_nonneg.mpr (Double.rnd_nonneg hn), hu⟩, Int.floor_nonneg.mpr hs⟩

theorem eq_of_total (ha : a.Normal) (hb : b.Normal) (h : a.total = b.total) : a = b := by
  obtain ⟨_, _⟩ := a
  obtain ⟨_, _⟩ := b
  simp only [Timeval.Normal, Timeval.total, Timeval.mk.injEq] at *
  omega

theorem parseTime_plus (h : parseInterval lib spec = some tm) :
    parseTime lib ('+' :: spec) start finish = some (start.tadd ⟨int tm.sec, tm.usec⟩) := by
  have hs : isSpace '+' = false := by decide
  simp [parseTime, hs, h, convertTime, Timeval.tadd]

theorem parseTime_neg (h : parseInterval lib spec = some tm) (he : finish.sec < intMax) :
    parseTime lib ('-' :: spec) start finish =
      some (finish.tsubReal ⟨int tm.sec, tm.usec⟩) := by
  have hs : isSpace '-' = false := by decide
  simp [parseTime, hs, h, he, convertTime_neg]

structure Exact (origin tm sum diff : Timeval) : Prop where
  normal_sum : sum.Normal
  normal_diff : diff.Normal
  total_sum : sum.total = origin.total + tm.total
  total_diff : diff.total = origin.total - tm.total
  restored : convertTime sum tm .neg = origin

-- The sum may not be normal, and only the lower bits of the seconds are added.
theorem parseTime_exact (ho : origin.Normal) (he : origin.sec < CInt.intMax)
    (h : parseInterval lib spec = some tm) (hn : tm.Normal) :
    (∃ sum diff, parseTime lib ('+' :: spec) origin finish = some sum ∧
      parseTime lib ('-' :: spec) start origin = some diff ∧ Exact origin tm sum diff) ↔
    origin.usec + tm.usec ≠ 1000000 ∧ tm.sec ≤ CInt.intMax := by
  have h₀ := (parseInterval_near h).right
  rw [parseTime_plus h, parseTime_neg h he]
  constructor
  · rintro ⟨_, _, ⟨⟩, ⟨⟩, hs, -, ht, -, -⟩
    rw [Timeval.tadd_total] at ht
    have hi : int tm.sec = tm.sec := by
      simp only [Timeval.total] at ht
      omega
    refine ⟨fun hu => ?_, hi ▸ (int_bounds _).right⟩
    simp [Timeval.tadd, Timeval.Normal, hu] at hs
  · rintro ⟨hu, hm⟩
    rw [int_eq (by omega) hm]
    refine ⟨_, _, rfl, rfl, ho.tadd hn hu, ho.tsubReal hn, by simp, by simp, ?_⟩
    rw [convertTime_neg]
    exact eq_of_total ((ho.tadd hn hu).tsubReal hn) ho (by simp)

theorem ofTotal_total : (ofTotal n).total = n :=
  Int.tdiv_mul_add_tmod ..

theorem ofTotal_usec : (ofTotal n).usec < 1000000 :=
  Int.tmod_lt_of_pos _ (by decide)

theorem align_isLeast (hd : 0 < d) : IsLeast {m | d ∣ m ∧ n ≤ m} (align d n) := by
  have ht := Int.tdiv_mul_add_tmod n d
  have hl := Int.tmod_lt_of_pos n hd
  have hg := Int.lt_tmod_of_pos n hd
  refine ⟨⟨?_, ?_⟩, ?_⟩
  · simp only [align]
    split
    · exact Int.dvd_add (Int.dvd_mul_left ..) (Int.dvd_refl _)
    · exact Int.dvd_mul_left ..
  · simp only [align]
    split <;> omega
  · rintro m ⟨⟨k, rfl⟩, hm⟩
    simp only [align]
    split
    · have : n.tdiv d < k := by nlinarith
      nlinarith
    · have : n.tdiv d - 1 < k := by nlinarith
      nlinarith

theorem parseTime_near (hs : Near start) (hf : Near finish)
    (h : parseTime lib string start finish = some t) : Near t := by
  simp only [parseTime] at h
  split at h
  · obtain hn | he := lib.normal h
    · exact hn.imp_right le_of_lt
    · rwa [Near, he]
  · split at h <;>
    · simp only [Option.map_map, Option.map_eq_some_iff, Function.comp] at h
      obtain ⟨tm, htm, rfl⟩ := h
      have hn := (parseInterval_near htm).left
      simp only [convertTime, Near] at *
      split <;> dsimp only <;> omega

theorem parsed_near (hs : Near start) (hf : Near finish) (hd : Near d)
    (h : parsed sw (parseTime lib · start finish) d = .ok t) : Near t := by
  simp only [parsed] at h
  split at h
  · cases h
    exact hd
  · cases hp : parseTime lib _ start finish <;> rw [hp] at h <;> cases h
    exact parseTime_near hs hf hp

theorem total_le (ha : a.usec ≤ 1000000) (hb : 0 ≤ b.usec) (h : ¬Before b a) :
    a.total ≤ b.total := by
  simp only [Before, Timeval.total] at *
  omega

theorem near_forwards (ha : Near a) (hb : Near b) : Near (forwards a b) := by
  rw [forwards]
  split <;> assumption

theorem near_backwards (ha : Near a) (hb : Near b) : Near (backwards a b) := by
  rw [backwards]
  split <;> assumption

theorem le_forwards (ha : Near a) (hb : Near b) : a.total ≤ (forwards a b).total := by
  rw [forwards]
  split
  · exact le_refl _
  · exact total_le ha.right hb.left ‹_›

theorem backwards_le (ha : Near a) (hb : Near b) : (backwards a b).total ≤ a.total := by
  rw [backwards]
  split
  · exact le_refl _
  · exact total_le hb.right ha.left ‹_›

theorem le_of_ofTotal (h₀ : 0 ≤ lo.sec) (hn : Near lo) (h : ¬Before (ofTotal n) lo) :
    lo.total ≤ n := by
  have ht := ofTotal_total (n := n)
  have hu : -1000000 < (ofTotal n).usec := Int.lt_tmod_of_pos n (by decide)
  have hp : 0 ≤ n → 0 ≤ (ofTotal n).usec := Int.tmod_nonneg _
  simp only [Before, Near, Timeval.total] at *
  omega

theorem not_before (ha : 0 ≤ a.usec) (hb : b.usec ≤ 1000000) (h : a.total ≤ b.total)
    (hn : b.usec < 1000000 ∨ a.total < b.total) : ¬Before b a := by
  simp only [Before, Timeval.total] at *
  omega

theorem alignIn_start (hd : 0 < d) (hl : Near lo) (hh : hi.Normal) (h₀ : 0 ≤ t.total)
    (ht : lo.total ≤ t.total) (hm : IsLeast {m | d ∣ m ∧ t.total ≤ m} m) :
    alignIn (some d) (fun _ b => b) t lo hi =
      if m ≤ hi.total then (ofTotal m, true) else (t, false) := by
  have hu : 0 ≤ (ofTotal m).usec := Int.tmod_nonneg _ (h₀.trans hm.left.right)
  have hg : ¬Before (ofTotal m) lo :=
    not_before hl.left ofTotal_usec.le (ofTotal_total ▸ ht.trans hm.left.right) (.inl ofTotal_usec)
  have hb : ¬Before hi (ofTotal m) ↔ m ≤ hi.total := by
    refine ⟨fun h => ?_, fun h => ?_⟩
    · simpa [ofTotal_total] using total_le ofTotal_usec.le hh.left h
    · exact not_before hu hh.right.le (ofTotal_total ▸ h) (.inl hh.right)
  simp [alignIn, (align_isLeast hd).unique hm, hg, hb]

-- In the last case the offset is moved back to the multiple before.
theorem alignIn_offset (hd : 0 < d) (hl : Near lo) (hh : Near hi) (h₀ : 0 ≤ lo.sec)
    (ht : lo.total ≤ t.total ∨ hi.total ≤ t.total)
    (hn : IsLeast {m | d ∣ m ∧ t.total ≤ m} n) :
    let r := alignIn (some d) (moveBack hi) t lo hi
    (r = (ofTotal n, true) ∧ lo.total ≤ n ∧ n ≤ hi.total) ∨ (r = (t, false) ∧ hi.total ≤ n) ∨
      (r = (ofTotal (n - d), true) ∧ hi.total < n ∧ lo.total ≤ n - d ∧ n - d ≤ hi.total) := by
  intro r
  simp only [r, alignIn, (align_isLeast hd).unique hn]
  split
  case isTrue hb =>
    have hg := le_of_ofTotal h₀ hl hb.left
    have hu := total_le ofTotal_usec.le hh.left hb.right
    simp only [ofTotal_total, moveBack] at hg hu ⊢
    by_cases hm : n > hi.total
    · simp only [hm, if_true] at hg hu ⊢
      exact .inr (.inr ⟨trivial, trivial, hg, hu⟩)
    · simp only [hm, if_false] at hg hu ⊢
      exact .inl ⟨trivial, hg, hu⟩
  case isFalse hb =>
    refine .inr (.inl ⟨rfl, not_lt.mp fun hm => hb ?_⟩)
    have htn : t.total ≤ n := hn.left.right
    have hu : 0 ≤ (ofTotal n).usec := by
      refine Int.tmod_nonneg _ ?_
      simp only [Near, Timeval.total] at *
      omega
    rw [moveBack, if_neg (by omega)]
    constructor
    · exact not_before hl.left ofTotal_usec.le (by rw [ofTotal_total]; omega) (.inl ofTotal_usec)
    · exact not_before hu hh.right (by rw [ofTotal_total]; omega) (by rw [ofTotal_total]; omega)

-- The multiple before is in the window, as the start is one.
theorem alignIn_back (hd : 0 < d) (hl : Near lo) (hh : Near hi) (h₀ : 0 ≤ lo.total)
    (hm : d ∣ lo.total) (ht : lo.total ≤ t.total ∧ t.total ≤ hi.total)
    (hn : IsLeast {m | d ∣ m ∧ t.total ≤ m} n) (hg : hi.total < n) :
    (alignIn (some d) (moveBack hi) t lo hi).2 = true := by
  have hb : lo.total ≤ n - d := by
    have := Int.le_of_dvd (by omega) (Int.dvd_sub hn.left.left hm)
    omega
  have hf : n - d < t.total := by
    refine not_le.mp fun h => ?_
    have := hn.right ⟨Int.dvd_sub hn.left.left (Int.dvd_refl d), h⟩
    omega
  have hu : 0 ≤ (ofTotal (n - d)).usec := Int.tmod_nonneg _ (h₀.trans hb)
  rw [alignIn, (align_isLeast hd).unique hn, moveBack, if_pos hg, if_pos]
  constructor
  · exact not_before hl.left ofTotal_usec.le (ofTotal_total ▸ hb) (.inl ofTotal_usec)
  · exact not_before hu hh.right (by rw [ofTotal_total]; omega) (by rw [ofTotal_total]; omega)

namespace Switches

section

variable (lib : Libc) (sw : Switches) (logStart logEnd : Timeval)

-- The start that is asked for, and the end and the offset for a start, before they are aligned.
def Starts (start : Timeval) : Prop :=
  ∃ t, parsed sw.start (parseTime lib · logStart (limit logEnd)) logStart = .ok t ∧
    start = forwards logStart t

def Ends (start finish : Timeval) : Prop :=
  ∃ t, parsed sw.finish (parseTime lib · start (limit logEnd)) (limit logEnd) = .ok t ∧
    finish = backwards logEnd t

def Offsets (start finish offset : Timeval) : Prop :=
  match sw.offset with
  | none => offset = start
  | some spec => ∃ t, parseTime lib spec start finish = some t ∧
    offset = if Before t start then start else backwards finish t

-- The times are to be multiples of `d`.
def Every (d : Int) : Prop :=
  ∃ spec tm, sw.align = some spec ∧ parseInterval lib spec = some tm ∧ tm.total = d

-- If the start can be aligned, there is a multiple between the offset and the end.
def Alignable (d : Int) : Prop :=
  ∀ s m e o, sw.Starts lib logStart logEnd s → IsLeast {m | d ∣ m ∧ s.total ≤ m} m →
    m ≤ logEnd.total → sw.Ends lib logEnd (ofTotal m) e → m ≤ e.total →
    sw.Offsets lib (ofTotal m) e o → ∃ n, d ∣ n ∧ o.total ≤ n ∧ n ≤ e.total

-- A time is not aligned only if there is no multiple before the end, and this is reported.
structure Aligned (w : Window) (d : Int) (s o : Timeval) : Prop where
  start : ∀ m, IsLeast {m | d ∣ m ∧ s.total ≤ m} m →
    w.start.total = m ∨ (w.start = s ∧ w.sts = false ∧ logEnd.total < m)
  offset : ∀ n, IsLeast {n | d ∣ n ∧ o.total ≤ n} n →
    w.offset.total = n ∨ (w.sts = false ∧ w.finish.total ≤ n)

structure Right (w : Window) : Prop where
  first : logStart.total ≤ w.start.total
  last : w.finish.total ≤ logEnd.total
  inside : w.start.total ≤ w.finish.total →
    w.start.total ≤ w.offset.total ∧ w.offset.total ≤ w.finish.total
  ends : sw.Ends lib logEnd w.start w.finish
  unaligned : sw.align = none → w.sts = true ∧
    sw.Starts lib logStart logEnd w.start ∧ sw.Offsets lib w.start w.finish w.offset
  aligned : ∀ d, sw.Every lib d → ∃ s o, sw.Starts lib logStart logEnd s ∧
    sw.Offsets lib w.start w.finish o ∧ Aligned logEnd w d s o

end

variable {sw : Switches} {start finish s s' e e' o o' : Timeval}

theorem Starts.unique (h : sw.Starts lib logStart logEnd s)
    (h' : sw.Starts lib logStart logEnd s') : s = s' := by
  grind [Starts]

theorem Ends.unique (h : sw.Ends lib logEnd start e) (h' : sw.Ends lib logEnd start e') :
    e = e' := by
  grind [Ends]

theorem Offsets.unique (h : sw.Offsets lib start e o) (h' : sw.Offsets lib start e o') :
    o = o' := by
  cases ho : sw.offset <;> simp only [Offsets, ho] at h h' <;> grind

theorem interval_eq_none : interval lib sw.align = .ok none ↔ sw.align = none := by
  cases sw.align <;> grind [interval]

theorem interval_eq_divided : interval lib sw.align = .error .divided ↔ sw.Every lib 0 := by
  cases ha : sw.align <;> grind [interval, Every]

theorem interval_eq_some : interval lib sw.align = .ok (some d) ↔ sw.Every lib d ∧ d ≠ 0 := by
  cases ha : sw.align <;> grind [interval, Every]

theorem Every.unique (h : sw.Every lib d) (h' : sw.Every lib d') : d = d' := by
  grind [Every]

theorem Every.nonneg (h : sw.Every lib d) : 0 ≤ d := by
  obtain ⟨_, tm, -, htm, rfl⟩ := h
  have ⟨hn, h₀⟩ := parseInterval_near htm
  simp only [Near, Timeval.total] at *
  omega

theorem near_limit (h : Near logEnd) : Near (limit logEnd) := by
  rw [limit]
  split
  · simp [Near]
  · exact h

theorem Starts.near (hs : Near logStart) (he : Near logEnd) (h₀ : 0 ≤ logStart.sec)
    (h : sw.Starts lib logStart logEnd s) :
    Near s ∧ 0 ≤ s.sec ∧ logStart.total ≤ s.total := by
  obtain ⟨t, ht, rfl⟩ := h
  have hn := parsed_near hs (near_limit he) hs ht
  refine ⟨near_forwards hs hn, ?_, le_forwards hs hn⟩
  rw [forwards]
  split
  · exact h₀
  · simp only [Before] at *
    omega

theorem Ends.near (hs : Near start) (he : Near logEnd) (h : sw.Ends lib logEnd start e) :
    Near e ∧ e.total ≤ logEnd.total := by
  obtain ⟨t, ht, rfl⟩ := h
  have hn := parsed_near hs (near_limit he) (near_limit he) ht
  exact ⟨near_backwards he hn, backwards_le he hn⟩

theorem Offsets.inside (hs : Near start) (he : Near e) (h : sw.Offsets lib start e o) :
    (start.total ≤ e.total → start.total ≤ o.total ∧ o.total ≤ e.total) ∧
      (start.total ≤ o.total ∨ e.total ≤ o.total) := by
  rw [Offsets] at h
  split at h
  · cases h
    exact ⟨fun hl => ⟨le_refl _, hl⟩, .inl (le_refl _)⟩
  · obtain ⟨t, ht, rfl⟩ := h
    have hn := parseTime_near hs he ht
    split
    case isTrue => exact ⟨fun hl => ⟨le_refl _, hl⟩, .inl (le_refl _)⟩
    case isFalse hb =>
      have hl := total_le hs.right hn.left hb
      have := backwards_le he hn
      rw [backwards] at *
      split at this <;> grind

-- What an accepted window is made of.
theorem window_cases (hi : interval lib sw.align = .ok delta)
    (h : pmParseTimeWindow lib sw logStart logEnd = .ok w) :
    ∃ s o, sw.Starts lib logStart logEnd s ∧ sw.Ends lib logEnd w.start w.finish ∧
      sw.Offsets lib w.start w.finish o ∧
      let r := alignIn delta (fun _ b => b) s logStart logEnd
      let q := alignIn delta (moveBack w.finish) o w.start w.finish
      w.start = r.1 ∧ ((sw.offset = none ∧ w.offset = o ∧ w.sts = r.2) ∨
        (w.offset = q.1 ∧ w.sts = (r.2 && q.2))) := by
  simp only [pmParseTimeWindow, bind, Except.bind, hi] at h
  split at h
  · cases h
  case h_2 t ht =>
    split at h
    · cases h
    case h_2 e he =>
      simp only [placeOffset] at h
      split at h
      case h_1 ho =>
        cases h
        exact ⟨_, _, ⟨t, ht, rfl⟩, ⟨e, he, rfl⟩, by simp [Offsets, ho], rfl, .inl ⟨ho, rfl, rfl⟩⟩
      case h_2 spec ho =>
        split at h
        · cases h
        case h_2 o hp =>
          cases h
          refine ⟨_, _, ⟨t, ht, rfl⟩, ⟨e, he, rfl⟩, ?_, rfl, .inr ⟨rfl, rfl⟩⟩
          simp only [Offsets, ho]
          exact ⟨o, hp, rfl⟩

end Switches

open Switches

section

variable {sw : Switches} {logStart logEnd : Timeval}

variable (hs : logStart.Normal) (he : logEnd.Normal) (h₀ : 0 ≤ logStart.sec)

include hs he h₀

theorem right_none (ha : sw.align = none)
    (h : pmParseTimeWindow lib sw logStart logEnd = .ok w) :
    sw.Right lib logStart logEnd w := by
  have hs' : Near logStart := hs.imp_right le_of_lt
  have he' : Near logEnd := he.imp_right le_of_lt
  obtain ⟨s, o, hst, hen, hof, hw, ho⟩ := window_cases (interval_eq_none.mpr ha) h
  simp only [alignIn, Bool.and_self] at hw ho
  replace ho : w.offset = o ∧ w.sts = true := ho.elim And.right id
  obtain ⟨hn, -, hl⟩ := hst.near hs' he' h₀
  cases hw
  have ⟨hn', hl'⟩ := hen.near hn he'
  refine ⟨hl, hl', ?_, hen, fun _ => ⟨ho.right, hst, ho.left ▸ hof⟩, ?_⟩
  · exact ho.left ▸ (hof.inside hn hn').left
  · simp [Every, ha]

theorem right_some (hd : sw.Every lib d) (hp : d ≠ 0)
    (h : pmParseTimeWindow lib sw logStart logEnd = .ok w) :
    sw.Right lib logStart logEnd w ↔ sw.Alignable lib logStart logEnd d := by
  have hs' : Near logStart := hs.imp_right le_of_lt
  have he' : Near logEnd := he.imp_right le_of_lt
  have hp : 0 < d := lt_of_le_of_ne hd.nonneg hp.symm
  obtain ⟨s, o, hst, hen, hof, hw, ho⟩ := window_cases (interval_eq_some.mpr ⟨hd, hp.ne'⟩) h
  obtain ⟨hn, hp₀, hl⟩ := hst.near hs' he' h₀
  have ht : 0 ≤ s.total := by
    simp only [Near, Timeval.total] at *
    omega
  have hm := align_isLeast (n := s.total) hp
  have hk := align_isLeast (n := o.total) hp
  have hm₀ : 0 ≤ align d s.total := ht.trans hm.left.right
  rw [alignIn_start hp hs' he ht hl hm] at hw ho
  obtain ⟨hn₁, hp₁, hl₁⟩ : Near w.start ∧ 0 ≤ w.start.sec ∧ logStart.total ≤ w.start.total := by
    rw [hw]
    split
    · exact ⟨⟨Int.tmod_nonneg _ hm₀, ofTotal_usec.le⟩, Int.tdiv_nonneg hm₀ (by decide),
        ofTotal_total ▸ hl.trans hm.left.right⟩
    · exact ⟨hn, hp₀, hl⟩
  obtain ⟨hn₂, hl₂⟩ := hen.near hn₁ he'
  obtain ⟨hin, hor⟩ := hof.inside hn₁ hn₂
  constructor
  case mp =>
    intro hr s' m e o' hst' hm' hle hen' hme hof'
    cases hst.unique hst'
    cases hm.unique hm'
    simp only [hle, if_true] at hw ho
    rw [← hw] at hen' hof'
    cases hen.unique hen'
    cases hof.unique hof'
    have hlo : w.start.total = align d s.total := by rw [hw, ofTotal_total]
    refine not_forall_not.mp fun hno => ?_
    have hg : w.finish.total < align d o.total :=
      not_le.mp fun h => hno _ ⟨hk.left.left, hk.left.right, h⟩
    have hsts : w.sts = true := by
      obtain ⟨-, -, ho⟩ | ⟨-, ho⟩ := ho
      · exact ho
      · rw [ho, alignIn_back hp hn₁ hn₂ (by omega) (hlo ▸ hm.left.left) (hin (by omega)) hk hg]
        rfl
    obtain ⟨_, _, -, hof', ha⟩ := hr.aligned d hd
    cases hof.unique hof'
    obtain ha | ⟨ha, -⟩ := ha.offset _ hk
    · have := (hr.inside (by omega)).right
      omega
    · simp [hsts] at ha
  case mpr =>
    intro ha
    have hs₁ : ∀ m, IsLeast {m | d ∣ m ∧ s.total ≤ m} m →
        w.start.total = m ∨ (w.start = s ∧ w.sts = false ∧ logEnd.total < m) := by
      intro m hm'
      cases hm.unique hm'
      split at hw
      case isTrue => exact .inl (hw ▸ ofTotal_total)
      case isFalse hle =>
        simp only [hle, if_false, Bool.false_and] at ho
        exact .inr ⟨hw, ho.elim (·.right.right) And.right, not_le.mp hle⟩
    obtain ⟨hi, ho₁⟩ : (w.start.total ≤ w.finish.total →
          w.start.total ≤ w.offset.total ∧ w.offset.total ≤ w.finish.total) ∧
        ∀ n, IsLeast {n | d ∣ n ∧ o.total ≤ n} n →
          w.offset.total = n ∨ (w.sts = false ∧ w.finish.total ≤ n) := by
      obtain ⟨hno, ho, -⟩ | ⟨ho, hsts⟩ := ho
      · refine ⟨ho ▸ hin, fun n hn => ?_⟩
        obtain rfl : o = w.start := by simpa [Offsets, hno] using hof
        rw [ho]
        obtain h | ⟨h₁, h₂, h₃⟩ := hs₁ _ hm
        · have hl : IsLeast {n | d ∣ n ∧ w.start.total ≤ n} w.start.total :=
            ⟨⟨h ▸ hm.left.left, le_refl _⟩, fun _ h => h.right⟩
          exact .inl (hl.unique hn)
        · rw [h₁] at hn
          cases hm.unique hn
          exact .inr ⟨h₂, by omega⟩
      · obtain ⟨hq, hg⟩ | ⟨hq, hg⟩ | ⟨hq, hg, hb⟩ := alignIn_offset hp hn₁ hn₂ hp₁ hor hk <;>
          rw [hq] at ho hsts
        · rw [ho, ofTotal_total]
          exact ⟨fun _ => hg, fun n hn => .inl (hk.unique hn)⟩
        · exact ⟨ho ▸ hin, fun n hn => .inr ⟨by simp [hsts], hk.unique hn ▸ hg⟩⟩
        · rw [ho, ofTotal_total]
          refine ⟨fun _ => hb, fun n hn => .inr ⟨?_, (hk.unique hn ▸ hg).le⟩⟩
          obtain h | ⟨-, h, -⟩ := hs₁ _ hm
          · have hle : align d s.total ≤ logEnd.total := by omega
            rw [if_pos hle] at hw
            obtain ⟨k, hd, hk', hl⟩ :=
              ha s _ _ _ hst hm hle (hw ▸ hen) (by omega) (hw ▸ hof)
            have := hk.right ⟨hd, hk'⟩
            omega
          · exact h
    refine ⟨hl₁, hl₂, hi, hen, ?_, ?_⟩
    · obtain ⟨_, _, h, -⟩ := hd
      simp [h]
    · intro d' hd'
      cases hd.unique hd'
      exact ⟨s, o, hst, hof, hs₁, ho₁⟩

end

theorem parsed_ne : parsed sw parse d ≠ .error .divided := by
  simp only [parsed]
  split
  · simp
  · cases parse _ <;> simp

theorem interval_of_window (h : pmParseTimeWindow lib sw logStart logEnd ≠ .error .rejected) :
    (interval lib sw.align = .error .divided ∧
      pmParseTimeWindow lib sw logStart logEnd = .error .divided) ∨
    ∃ w delta, pmParseTimeWindow lib sw logStart logEnd = .ok w ∧
      interval lib sw.align = .ok delta := by
  cases hi : interval lib sw.align <;> cases hw : pmParseTimeWindow lib sw logStart logEnd
  all_goals
    rw [hw] at h
    simp only [pmParseTimeWindow, placeOffset, bind, Except.bind, hi] at hw
    grind [parsed_ne, Failure]

def digits : Libc where
  strtod scan :=
    match scan.takeWhile Char.isDigit with
    | [] => none
    | d :: ds => some (ds.foldl (fun n d => 10 * n + d.toNat - 48) (d.toNat - 48 : ℚ), ds.length)
  ctime _ _ := none
  normal h := nomatch h

theorem parseTime_exact_hours :
    ∃ sum diff, parseTime digits ('+' :: "2 hours".toList) ⟨9000, 5⟩ ⟨0, 0⟩ = some sum ∧
      parseTime digits ('-' :: "2 hours".toList) ⟨0, 0⟩ ⟨9000, 5⟩ = some diff ∧
      Exact ⟨9000, 5⟩ ⟨7200, 0⟩ sum diff :=
  (parseTime_exact (by decide) (by decide) (by decide +kernel) (by decide)).mpr (by decide)

theorem parseTime_inexact :
    parseTime digits "+1 500msec".toList ⟨0, 500000⟩ ⟨9, 0⟩ = some ⟨1, 1000000⟩ ∧
    parseTime digits "+25000days".toList ⟨0, 0⟩ ⟨9, 0⟩ = some ⟨-2134967296, 0⟩ := by
  decide +kernel

end Rtime
