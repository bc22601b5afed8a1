import PcpModel.Cache.Load

-- Saving of a cache to its file (`save_cache`), and what `load_cache` reads from such a file.
namespace Cache

open List CInt Nat

-- The conversion "%d" for a number that is not negative.
def decimal (n : Nat) : List UInt8 :=
  (Nat.toDigits 10 n).map fun c => .ofNat c.toNat

def showInt (n : Int) : List UInt8 :=
  if n < 0 then 45 :: decimal n.natAbs else decimal n.toNat

def hexChar (d : Nat) : UInt8 :=
  .ofNat (if d < 10 then 48 + d else 87 + d)

def showByte (b : UInt8) : List UInt8 :=
  [hexChar (b.toNat / 16), hexChar (b.toNat % 16)]

section Save

def Entry.keyText (e : Entry) : List UInt8 :=
  if e.key = [] then [] else 32 :: 91 :: e.key.flatMap showByte ++ [93]

def Entry.text (e : Entry) : List UInt8 :=
  showInt e.inst ++ 32 :: showInt (CInt.int e.stamp) ++ e.keyText ++ 32 :: e.name.bytes

-- Only now do entries that have been active since the cache was saved get a stamp.
def Entry.stamped (now : Int) (e : Entry) : Entry :=
  if e.state ≠ .empty ∧ e.stamp = 0 then { e with stamp := now } else e

variable (h : Hdr)

def Hdr.saved (now : Int) : Hdr :=
  { h with list := h.list.map (·.stamped now) }

def Hdr.live : List Entry :=
  h.list.filter (·.state ≠ .empty)

def Hdr.title : List UInt8 :=
  49 :: 32 :: showInt h.insMode

def Hdr.text : List UInt8 :=
  h.title ++ 10 :: h.live.flatMap fun e => e.text ++ [10]

def saveCache (now : Int) : Hdr × List UInt8 × Int :=
  (h.saved now, (h.saved now).text, (h.saved now).live.length)

end Save

section Number

variable {d n : Nat} {b : UInt8}

theorem toNat_ofNat_byte (h : n < 256) : (UInt8.ofNat n).toNat = n := by
  exact mod_eq_of_lt h

theorem decimal_of_lt (h : n < 10) : decimal n = [.ofNat (48 + n)] := by
  rw [decimal, toDigits_of_lt_base h, map_singleton, toNat_digitChar_of_lt_ten h]

theorem decimal_of_le (h : 10 ≤ n) : decimal n = decimal (n / 10) ++ [.ofNat (48 + n % 10)] := by
  rw [decimal, toDigits_of_base_le (by decide) h, map_append, map_singleton,
    toNat_digitChar_of_lt_ten (mod_lt n (by decide))]
  rfl

theorem digit_ofNat (h : d < 10) : digit (.ofNat (48 + d)) = d := by
  rw [digit, toNat_ofNat_byte (by omega)]
  omega

theorem isDigit_ofNat (h : d < 10) : isDigit (.ofNat (48 + d)) = true := by
  rw [isDigit, decide_eq_true_eq, UInt8.le_iff_toNat_le, UInt8.le_iff_toNat_le,
    toNat_ofNat_byte (by omega)]
  exact ⟨Nat.le_add_right 48 d, Nat.add_le_add_left (Nat.le_of_lt_succ h) 48⟩

theorem isDigit_of_mem_decimal (h : b ∈ decimal n) : isDigit b = true := by
  induction n using Nat.strongRecOn
  case ind n ih =>
    by_cases hn : n < 10
    case pos =>
      rw [decimal_of_lt hn, mem_singleton] at h
      exact h ▸ isDigit_ofNat hn
    case neg =>
      rw [decimal_of_le (not_lt.mp hn), mem_append, mem_singleton] at h
      rcases h with h | rfl
      · exact ih (n / 10) (by omega) h
      · exact isDigit_ofNat (mod_lt n (by decide))

theorem decimal_foldl (hn : n ≤ intMax) :
    (decimal n).foldl (fun n d => int (n * 10 + digit d)) 0 = n := by
  have hi : ∀ k : Nat, k ≤ intMax → int k = k := by
    intro k hk
    exact int_eq (by omega) hk
  induction n using Nat.strongRecOn
  case ind n ih =>
    by_cases hd : n < 10
    case pos =>
      rw [decimal_of_lt hd, foldl_cons, foldl_nil, digit_ofNat hd, zero_mul, zero_add,
        hi n hn]
    case neg =>
      rw [decimal_of_le (not_lt.mp hd), foldl_append, ih (n / 10) (by omega) (by omega),
        foldl_cons, foldl_nil, digit_ofNat (mod_lt n (by decide))]
      have : ((n / 10 : Nat) : Int) * 10 + ((n % 10 : Nat) : Int) = n := by omega
      rw [this, hi n hn]

theorem decimal_ne_nil : decimal n ≠ [] := by
  simp [decimal]

theorem parseInt_decimal (hn : n ≤ intMax) (hb : isDigit b = false) :
    parseInt (decimal n ++ b :: rest) = ((n : Int), b :: rest) := by
  have hd : ∀ d ∈ decimal n, isDigit d = true := fun d => isDigit_of_mem_decimal
  rw [parseInt, takeWhile_append_of_pos hd, dropWhile_append_of_pos hd,
    takeWhile_cons_of_neg (by simp [hb]), dropWhile_cons_of_neg (by simp [hb]),
    append_nil, decimal_foldl hn]

theorem showInt_natCast (n : Nat) : showInt n = decimal n :=
  if_neg (by omega)

end Number

theorem hexDigit_hexChar (h : d < 16) : hexDigit (hexChar d) = some (d : Int) := by
  revert d
  decide

theorem hexChar_ne (h : d < 16) : hexChar d ≠ 0 ∧ hexChar d ≠ 43 ∧ hexChar d ≠ 45 ∧
    hexChar d ≠ 93 ∧ hexChar d ≠ 10 ∧ isSpace (hexChar d) = false := by
  revert d
  decide

theorem scanHex_cons (hs : isSpace a = false) (hp : a ≠ 43) (hm : a ≠ 45) :
    scanHex (a :: b :: rest) =
      (hexDigit a).map fun x => (hexDigit b).elim x (16 * x + ·) := by
  simp [scanHex, hs, hp, hm]

theorem nibbles_lt (b : UInt8) : b.toNat / 16 < 16 ∧ b.toNat % 16 < 16 := by
  have := b.toNat_lt
  omega

theorem scanHex_showByte (b : UInt8) : scanHex (showByte b ++ rest) = some (b.toNat : Int) := by
  obtain ⟨h₁, h₂⟩ := nibbles_lt b
  obtain ⟨-, hp, hm, -, -, hs⟩ := hexChar_ne h₁
  have hb : 16 * ((b.toNat / 16 : Nat) : Int) + (b.toNat % 16 : Nat) = b.toNat := by omega
  rw [showByte, cons_append, cons_append, scanHex_cons hs hp hm, hexDigit_hexChar h₁,
    hexDigit_hexChar h₂, Option.map_some, Option.elim_some, hb]

theorem at_showByte (b : UInt8) : (CStr.at (showByte b ++ rest)).bytes =
    showByte b ++ (CStr.at rest).bytes := by
  obtain ⟨h₁, h₂⟩ := nibbles_lt b
  have h₁ := (hexChar_ne h₁).left
  have h₂ := (hexChar_ne h₂).left
  simp [CStr.at, showByte, h₁, h₂]

theorem parseKey_showByte (tmp : Int) (key : List UInt8) :
    parseKey tmp (key.flatMap showByte ++ rest) key.length = key := by
  induction key generalizing tmp
  case nil => rfl
  case cons b key ih =>
    have hb : ((b.toNat : Int) % 256).toNat = b.toNat := by
      have := b.toNat_lt
      omega
    rw [flatMap_cons, append_assoc, length_cons, parseKey, at_showByte,
      scanHex_showByte, Option.getD_some, hb, UInt8.ofNat_toNat]
    exact congrArg (b :: ·) (ih b.toNat)

-- The digits do not include the bracket that ends them.
theorem mem_showByte {key : List UInt8} (h : c ∈ key.flatMap showByte) :
    c ≠ 0 ∧ c ≠ 93 ∧ c ≠ 10 := by
  obtain ⟨b, -, hc⟩ := mem_flatMap.mp h
  obtain ⟨h₁, h₂⟩ := nibbles_lt b
  simp only [showByte, mem_cons, not_mem_nil, or_false] at hc
  rcases hc with rfl | rfl
  · exact ⟨(hexChar_ne h₁).1, (hexChar_ne h₁).2.2.2.1, (hexChar_ne h₁).2.2.2.2.1⟩
  · exact ⟨(hexChar_ne h₂).1, (hexChar_ne h₂).2.2.2.1, (hexChar_ne h₂).2.2.2.2.1⟩

theorem length_showByte (key : List UInt8) : (key.flatMap showByte).length = 2 * key.length := by
  induction key
  case nil => rfl
  case cons b key ih => simp [showByte, ih]; omega

section Line

def Entry.record (e : Entry) : Record :=
  ⟨e.inst, e.stamp, e.key, e.name⟩

structure Entry.Plain (e : Entry) : Prop where
  inst : e.inst ≤ maxInst
  ne : e.name.bytes ≠ []
  newline : 10 ∉ e.name.bytes
  space : ∀ b ∈ e.name.bytes.head?, isSpace b = false
  length : e.text.length + 1 < bufSize

-- The entries whose fields are told apart when they are read.
structure Entry.Clear (e : Entry) : Prop where
  stamp : 0 ≤ e.stamp ∧ e.stamp ≤ CInt.intMax
  bracket : e.key = [] → e.name.bytes.head? ≠ some 91

variable {e : Entry}

theorem skip_space (hb : isSpace b = false) : (32 :: b :: p).dropWhile isSpace = b :: p := by
  rw [dropWhile_cons_of_pos (by decide), dropWhile_cons_of_neg (by simp [hb])]

theorem decimal_eq_cons (n : Nat) :
    ∃ d ds, decimal n = d :: ds ∧ isSpace d = false ∧ d ≠ 0 := by
  obtain ⟨d, ds, hd⟩ := exists_cons_of_ne_nil (decimal_ne_nil (n := n))
  have hm : isDigit d = true := isDigit_of_mem_decimal (hd ▸ mem_cons_self)
  exact ⟨d, ds, hd, by grind [isDigit, isSpace], by grind [isDigit]⟩

theorem skip_decimal : (32 :: (decimal n ++ p)).dropWhile isSpace = decimal n ++ p := by
  obtain ⟨d, ds, hd, hs, -⟩ := decimal_eq_cons n
  rw [hd, cons_append, skip_space hs]

theorem dropWhile_decimal : (decimal n ++ p).dropWhile isSpace = decimal n ++ p := by
  obtain ⟨d, ds, hd, hs, -⟩ := decimal_eq_cons n
  rw [hd, cons_append, dropWhile_cons_of_neg (by simp [hs])]

theorem atEnd_decimal : atEnd (decimal n ++ p) = false := by
  obtain ⟨d, ds, hd, -, h0⟩ := decimal_eq_cons n
  simp [atEnd, hd, h0]

theorem Entry.Plain.name_eq_cons (hp : e.Plain) :
    ∃ b bs, e.name.bytes = b :: bs ∧ isSpace b = false ∧ b ≠ 0 := by
  obtain ⟨b, bs, hb⟩ := exists_cons_of_ne_nil hp.ne
  have hn := hp.space b (by rw [hb]; rfl)
  exact ⟨b, bs, hb, hn, fun h => e.name.noNul (hb ▸ h ▸ mem_cons_self)⟩

theorem Entry.Plain.skip_name (hp : e.Plain) :
    (32 :: (e.name.bytes ++ p)).dropWhile isSpace = e.name.bytes ++ p ∧
      (e.name.bytes ++ p).dropWhile isSpace = e.name.bytes ++ p ∧
      atEnd (e.name.bytes ++ p) = false := by
  obtain ⟨b, bs, hb, hs, h0⟩ := hp.name_eq_cons
  rw [hb]
  exact ⟨skip_space hs, dropWhile_cons_of_neg (by simp [hs]), by simp [atEnd, h0]⟩

theorem at_append (s : CStr) : CStr.at (s.bytes ++ 0 :: rest) = s := by
  have hs : ∀ b ∈ s.bytes, (decide (b ≠ 0)) = true := by
    intro b hb
    exact decide_eq_true fun h => s.noNul (h ▸ hb)
  rw [CStr.at, CStr.mk.injEq, takeWhile_append_of_pos hs]
  simp

theorem Entry.Clear.showInt (hc : e.Clear) :
    ∃ n : Nat, e.stamp = n ∧ n ≤ intMax ∧ showInt (int e.stamp) = decimal n := by
  obtain ⟨n, hn⟩ := Int.eq_ofNat_of_zero_le hc.stamp.left
  refine ⟨n, hn, hn ▸ hc.stamp.right, ?_⟩
  rw [int_eq (by have := hc.stamp.left; omega) hc.stamp.right, hn]
  exact showInt_natCast n

theorem Entry.text_append (rest : List UInt8) (hc : e.Clear) :
    ∃ n : Nat, e.stamp = n ∧ n ≤ intMax ∧ e.text ++ 0 :: rest =
      decimal e.inst ++ 32 :: (decimal n ++ (e.keyText ++ 32 :: (e.name.bytes ++ 0 :: rest))) := by
  obtain ⟨n, hs, hn, hd⟩ := hc.showInt
  exact ⟨n, hs, hn, by simp [Entry.text, showInt_natCast, hd]⟩

theorem hexText_eq (key p : List UInt8) :
    (key.flatMap showByte ++ 93 :: p).takeWhile (fun b => b ≠ 0 ∧ b ≠ 93) =
      key.flatMap showByte := by
  have hk : ∀ b ∈ key.flatMap showByte, decide (b ≠ 0 ∧ b ≠ 93) = true := by
    intro b hb
    exact decide_eq_true ⟨(mem_showByte hb).left, (mem_showByte hb).right.left⟩
  rw [takeWhile_append_of_pos hk, takeWhile_cons_of_neg (by decide), append_nil]

theorem Entry.keyText_append (hk : e.key ≠ []) :
    e.keyText ++ p = 32 :: 91 :: (e.key.flatMap showByte ++ 93 :: p) := by
  simp [Entry.keyText, hk]

theorem parseLine_text (hp : e.Plain) (hc : e.Clear) :
    parseLine (e.text ++ 0 :: rest) tmp = some (decide (e.key ≠ []), some e.record) := by
  obtain ⟨n, hs, hn, ht⟩ := Entry.text_append rest hc
  obtain ⟨hskip, hname, hend⟩ := hp.skip_name (p := 0 :: rest)
  have hi : (e.inst : Int) ≤ intMax := by
    have := hp.inst
    simp only [maxInst, intMax] at *
    omega
  rw [ht, parseLine]
  simp only [dropWhile_decimal]
  rw [parseInt_decimal hi (by decide)]
  simp only [skip_decimal, atEnd_decimal]
  by_cases hk : e.key = []
  case pos =>
    have hb := hc.bracket hk
    rw [Entry.keyText, if_pos hk, nil_append, parseInt_decimal hn (by decide)]
    have hb : (e.name.bytes ++ 0 :: rest).headD 0 ≠ 91 := by
      obtain ⟨b, bs, h, -⟩ := hp.name_eq_cons
      simpa [h] using hb
    simp only [hskip, hend, if_neg hb, at_append]
    simp [Entry.record, hk, hs]
  case neg =>
    have hd : (e.key.flatMap showByte ++ 93 :: 32 :: (e.name.bytes ++ 0 :: rest)).drop
        (2 * e.key.length) = 93 :: 32 :: (e.name.bytes ++ 0 :: rest) := by
      rw [← length_showByte, drop_left]
    have hl : 2 * e.key.length / 2 = e.key.length := Nat.mul_div_cancel_left _ (by decide)
    rw [Entry.keyText_append hk, parseInt_decimal hn (by decide)]
    simp only [skip_space (b := 91) (by decide), tail_cons, hexText_eq, length_showByte, hl,
      ← drop_drop, hd, drop_succ_cons, drop_zero, hname, hend, parseKey_showByte,
      at_append]
    simp [Entry.record, hs, hk]

end Line

section File

variable {e : Entry}

theorem Entry.notMem_text (hp : e.Plain) (hc : e.Clear) (hb : b = 10 ∨ b = 0) : b ∉ e.text := by
  obtain ⟨n, -, -, hd⟩ := hc.showInt
  have hn (n : Nat) : b ∉ decimal n := by
    intro h
    have := isDigit_of_mem_decimal h
    rcases hb with rfl | rfl <;> contradiction
  have hk : b ∉ e.key.flatMap showByte := by
    intro h
    have := mem_showByte h
    tauto
  have hm : b ∉ e.name.bytes := by
    rcases hb with rfl | rfl
    · exact hp.newline
    · exact e.name.noNul
  have hs : b ≠ 32 ∧ b ≠ 91 ∧ b ≠ 93 := by rcases hb with rfl | rfl <;> decide
  rw [Entry.text, Entry.keyText]
  split <;> simp [showInt_natCast, hd, hn, hk, hm, hs]

theorem fgets_line (hn : 10 ∉ line) (hl : line.length < room) :
    fgets room cur (line ++ 10 :: rest) = (cur ++ line ++ [10]) :: fgets (bufSize - 1) [] rest := by
  induction line generalizing room cur
  case nil => simp [fgets]
  case cons b line ih =>
    obtain ⟨hb, hn⟩ := ne_and_not_mem_of_not_mem_cons hn
    have hr : ¬(b = 10 ∨ room = 1) := by
      rw [length_cons] at hl
      rintro (h | h)
      · exact hb h.symm
      · omega
    rw [cons_append, fgets, if_neg hr, ih hn (by rw [length_cons] at hl; omega)]
    simp

theorem fgets_lines {es : List Entry} (hp : ∀ e ∈ es, e.Plain) (hc : ∀ e ∈ es, e.Clear) :
    fgets (bufSize - 1) [] (es.flatMap fun e => e.text ++ [10]) = es.map (·.text ++ [10]) := by
  induction es
  case nil => rfl
  case cons e es ih =>
    obtain ⟨hpe, hp⟩ := forall_mem_cons.mp hp
    obtain ⟨hce, hc⟩ := forall_mem_cons.mp hc
    have hl := hpe.length
    rw [flatMap_cons, append_assoc, singleton_append,
      fgets_line (Entry.notMem_text hpe hce (.inl rfl)) (by omega), ih hp hc]
    rfl

-- The end of the line is replaced, so that the line is followed by two terminators.
theorem chomp_readLine (buf : List UInt8) (hn : 10 ∉ line) (hz : 0 ∉ line) :
    ∃ rest, chomp (readLine buf (line ++ [10])) = line ++ 0 :: rest := by
  let s : CStr := ⟨line ++ [10], by simp [hz]⟩
  have hr : readLine buf s.bytes = line ++ 10 :: 0 :: buf.drop (line.length + 2) := by
    simp [readLine, s]
  have hi : (readLine buf s.bytes).idxOf 10 = line.length := by
    simp [hr, idxOf_append, hn]
  have hl : (CStr.at (readLine buf s.bytes)).bytes.length = line.length + 1 := by
    rw [readLine, at_append, length_append, length_singleton]
  refine ⟨0 :: buf.drop (line.length + 2), ?_⟩
  rw [chomp, hi, hl, hr]
  simp

theorem parseLines_text {es : List Entry} (hp : ∀ e ∈ es, e.Plain) (hc : ∀ e ∈ es, e.Clear) :
    parseLines tmp key buf (es.map (·.text ++ [10])) = (es.map Entry.record, none) := by
  induction es generalizing key buf
  case nil => rfl
  case cons e es ih =>
    obtain ⟨hpe, hp⟩ := forall_mem_cons.mp hp
    obtain ⟨hce, hc⟩ := forall_mem_cons.mp hc
    obtain ⟨rest, hr⟩ := chomp_readLine buf (Entry.notMem_text hpe hce (.inl rfl))
      (Entry.notMem_text hpe hce (.inr rfl))
    rw [map_cons, parseLines, hr, parseLine_text hpe hce]
    simp only [ih hp hc, map_cons]

theorem loadHeader_title {h : Hdr} (hm : h.insMode = 0 ∨ h.insMode = 1) :
    loadHeader h₀ (readLine buf (h.title ++ [10])) = ({ h₀ with insMode := h.insMode }, true) := by
  have hs (m : Int) (hm : m = 0 ∨ m = 1) : ∃ s : CStr, s.bytes = 49 :: 32 :: showInt m ++ [10] ∧
      scanInt s.bytes = some (1, 32 :: showInt m ++ [10]) ∧
      scanInt (32 :: showInt m ++ [10]) = some (m, [10]) := by
    rcases hm with rfl | rfl
    · exact ⟨⟨[49, 32, 48, 10], by decide⟩, by decide +kernel, by decide +kernel, by decide +kernel⟩
    · exact ⟨⟨[49, 32, 49, 10], by decide⟩, by decide +kernel, by decide +kernel, by decide +kernel⟩
  obtain ⟨s, hb, h₁, h₂⟩ := hs h.insMode hm
  rw [Hdr.title, ← hb, loadHeader, readLine, at_append, h₁]
  simp only [h₂]
  rcases hm with hm | hm <;> simp [hm]

theorem records_text {h : Hdr} (h₀ : Hdr) (buf : List UInt8) (tmp : Int)
    (hm : h.insMode = 0 ∨ h.insMode = 1) (hp : ∀ e ∈ h.live, e.Plain)
    (hc : ∀ e ∈ h.live, e.Clear) :
    File.records ⟨.ok h.text, buf, tmp⟩ h₀ =
      ({ h₀ with insMode := h.insMode }, h.live.map Entry.record,
        (h.live.length : Int), false) := by
  have hl : 10 ∉ h.title ∧ h.title.length < bufSize - 1 := by
    rcases hm with hm | hm <;> rw [Hdr.title, hm] <;> decide +kernel
  simp only [File.records, Hdr.text, fgets_line hl.left hl.right, nil_append,
    loadHeader_title hm, fgets_lines hp hc, parseLines_text hp hc]
  simp

end File

end Cache
