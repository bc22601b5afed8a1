import PcpModel.Pmapi.Text

-- The printers of host specifications with the bytes that they write (spec.c).
namespace Pmapi

open List

def e2big : Int :=
  7

-- Characters that are written next to each other.
structure Write where
  addr : Int
  chars : List Char
  deriving DecidableEq

namespace Write

def Within (w : Write) (size : Int) : Prop :=
  w.chars = [] ∨ 0 ≤ w.addr ∧ w.addr + w.chars.length ≤ size

instance {w : Write} : Decidable (w.Within size) :=
  inferInstanceAs (Decidable (_ ∨ _))

def shift (n : Int) (w : Write) : Write :=
  { w with addr := n + w.addr }

def apply (m : Int → Char) (w : Write) : Int → Char := fun i =>
  if w.addr ≤ i then w.chars.getD (i - w.addr).toNat (m i) else m i

end Write

-- Writes as many characters as there is space for, and a terminator.
def snprintf (off len : Int) (piece : List Char) : Write where
  addr := off
  chars := if CInt.size len = 0 then [] else piece.take ((CInt.size len).toNat - 1) ++ [.ofNat 0]

-- What snprintf returns. It fails if the length of the piece is not an `int`.
def printed (piece : List Char) : Int :=
  if piece.length ≤ CInt.intMax then piece.length else -1

-- `off` is the offset and `len` what remains, but a piece is compared with the whole `size`.
def append (size off len : Int) : List (List Char) → List Write × Option (Int × Int)
  | [] => ([], some (off, len))
  | piece :: pieces =>
    if CInt.size (printed piece) ≥ size then ([snprintf off len piece], none)
    else
      let r := append size (CInt.int (off + printed piece)) (CInt.int (len - printed piece)) pieces
      (snprintf off len piece :: r.1, r.2)

def returned (r : Option (Int × Int)) : Int :=
  r.elim (-e2big) (·.1)

def pmUnparseHostSpec (hosts : List HostSpec) (size : Int) : List Write × Int :=
  let r := append size 0 (CInt.int size) (HostSpec.pieces hosts)
  (r.1, returned r.2)

def protocolPieces (attrs : Attributes) : List (List Char) :=
  (attrs.search .protocol).elim [] fun value => [value.getD [] ++ [':', '/', '/']]

def unparseAttribute (value : Option (List Char)) : Attribute → List Char
  | .protocol => []
  | .compress => ['c', 'o', 'm', 'p', 'r', 'e', 's', 's']
  | .unixsock => ['u', 'n', 'i', 'x', 's', 'o', 'c', 'k']
  | .username => ['u', 's', 'e', 'r', 'n', 'a', 'm', 'e', '='] ++ value.getD []
  | .password => ['p', 'a', 's', 's', 'w', 'o', 'r', 'd', '='] ++ value.getD []
  | .secure => ['s', 'e', 'c', 'u', 'r', 'e', '='] ++ value.getD []

-- The attributes are in the order in which they are walked over.
def attributePieces (first : Bool) : Attributes → List (List Char)
  | [] => []
  | (a, value) :: attrs =>
    if a = .protocol then attributePieces first attrs
    else [if first then '?' else '&'] :: unparseAttribute value a :: attributePieces false attrs

def pmUnparseHostAttrsSpec (hosts : List HostSpec) (attrs : Attributes) (size : Int) :
    List Write × Int :=
  let p := append size 0 (CInt.int size) (protocolPieces attrs)
  match p.2 with
  | none => (p.1, -e2big)
  | some (off, len) =>
    -- The hosts get the space that remains.
    let h := pmUnparseHostSpec hosts (CInt.size len)
    let ws := p.1 ++ h.1.map (·.shift off)
    if CInt.size h.2 ≥ size then (ws, h.2)
    else
      let a := append size (CInt.int (off + h.2)) (CInt.int (len - h.2))
        (attributePieces true attrs)
      (ws ++ a.1, returned a.2)

section Append

variable {size off len : Int} {pieces : List (List Char)}

def total (pieces : List (List Char)) : Int :=
  pieces.flatten.length

@[simp]
theorem total_nil : total [] = 0 :=
  rfl

@[simp]
theorem total_cons : total (piece :: pieces) = piece.length + total pieces := by
  simp [total]

theorem total_nonneg (pieces : List (List Char)) : 0 ≤ total pieces :=
  Int.natCast_nonneg _

def Refused (size len : Int) (pieces : List (List Char)) : Prop :=
  ∃ before piece after, pieces = before ++ piece :: after ∧ total before ≤ len ∧
    size ≤ (piece.length : Int)

theorem not_refused_nil : ¬ Refused size len [] := by
  rintro ⟨before, piece, after, h, -, -⟩
  simp at h

theorem refused_cons : Refused size len (piece :: pieces) ↔
    0 ≤ len ∧ size ≤ (piece.length : Int) ∨ Refused size (len - piece.length) pieces := by
  constructor
  case mp =>
    rintro ⟨before, p, after, h, hl, hp⟩
    cases before
    case nil =>
      rw [nil_append, cons_eq_cons] at h
      exact .inl ⟨hl, h.left ▸ hp⟩
    case cons q before =>
      rw [cons_append, cons_eq_cons] at h
      rw [total_cons, ← h.left] at hl
      exact .inr ⟨before, p, after, h.right, by omega, hp⟩
  case mpr =>
    rintro (⟨hl, hp⟩ | ⟨before, p, after, rfl, hl, hp⟩)
    case inl => exact ⟨[], piece, pieces, rfl, hl, hp⟩
    case inr => exact ⟨piece :: before, p, after, rfl, by rw [total_cons]; omega, hp⟩

theorem Refused.len_nonneg (h : Refused size len pieces) : 0 ≤ len := by
  obtain ⟨before, piece, after, -, hl, -⟩ := h
  have := total_nonneg before
  omega

theorem Refused.le_total (h : Refused size len pieces) : size ≤ total pieces := by
  obtain ⟨before, piece, after, rfl, -, hp⟩ := h
  simp only [total, flatten_append, length_append, flatten_cons]
  omega

theorem refuses_iff (hs : 0 ≤ size) (h : size ≤ CInt.intMax) :
    CInt.size (printed piece) ≥ size ↔ size ≤ (piece.length : Int) := by
  rw [printed, CInt.size]
  by_cases hp : (piece.length : Int) ≤ CInt.intMax
  case pos => rw [if_pos hp]; simp only [CInt.intMax] at *; omega
  case neg => rw [if_neg hp]; simp only [CInt.intMax] at *; omega

theorem snprintf_length (hl : 0 ≤ len) (hu : len ≤ CInt.intMax) :
    ((snprintf off len piece).chars.length : Int) ≤ len := by
  have hs : CInt.size len = len := CInt.size_eq hl (by simp only [CInt.intMax] at hu; omega)
  rw [snprintf, hs]
  by_cases h : len = 0
  case pos => simp [h]
  case neg =>
    rw [if_neg h, length_append, length_take, length_singleton]
    omega

theorem snprintf_within (ho : 0 ≤ off) (hl : -2 ^ 31 ≤ len) (hu : len ≤ CInt.intMax) :
    (snprintf off len piece).Within (off + len) ↔ 0 ≤ len := by
  constructor
  case mp =>
    -- If there is no space then the length becomes very large as a `size_t`.
    intro h
    by_contra hn
    have hs : CInt.size len ≠ 0 := by simp only [CInt.size]; omega
    simp only [snprintf, Write.Within, hs, if_false, append_eq_nil_iff, reduceCtorEq,
      and_false, false_or] at h
    omega
  case mpr =>
    intro h
    exact .inr ⟨ho, Int.add_le_add_left (snprintf_length h hu) off⟩

-- All that is written has to start inside of the space.
theorem snprintf_cons_within (n : Int) (ho : 0 ≤ off) (hl : -2 ^ 31 ≤ len)
    (hu : len ≤ CInt.intMax) :
    (∀ w ∈ snprintf off len piece :: ws, w.Within (off + len)) ↔
      0 ≤ len ∧ ∀ w ∈ ws, w.Within (off + n + (len - n)) := by
  rw [forall_mem_cons, snprintf_within ho hl hu, show off + n + (len - n) = off + len by omega]

section Steps

variable (hs : 0 ≤ size) (hm : size ≤ CInt.intMax) (ho : 0 ≤ off)
include hs hm

theorem append_last (hp : size ≤ (piece.length : Int)) :
    append size off len (piece :: pieces) = ([snprintf off len piece], none) := by
  rw [append, if_pos ((refuses_iff hs hm).mpr hp)]

include ho

theorem append_cons (hp : (piece.length : Int) < size) (he : off + piece.length ≤ CInt.intMax)
    (hl : -2 ^ 31 ≤ len - piece.length) (hu : len ≤ CInt.intMax) :
    append size off len (piece :: pieces) =
      (snprintf off len piece :: (append size (off + piece.length) (len - piece.length) pieces).1,
        (append size (off + piece.length) (len - piece.length) pieces).2) := by
  have ho' : CInt.int (off + piece.length) = off + piece.length := CInt.int_eq (by omega) he
  have hl' : CInt.int (len - piece.length) = len - piece.length := CInt.int_eq hl (by omega)
  rw [append, if_neg (by rw [refuses_iff hs hm]; omega), printed, if_pos (by omega), ho', hl']

theorem append_fits (he : off + len ≤ CInt.intMax) (ht : total pieces ≤ len)
    (hp : ∀ piece ∈ pieces, (piece.length : Int) < size) :
    (append size off len pieces).2 = some (off + total pieces, len - total pieces) ∧
      ∀ w ∈ (append size off len pieces).1, w.Within (off + len) := by
  induction pieces generalizing off len
  case nil => simp [append]
  case cons piece pieces hi =>
    have hn := total_nonneg pieces
    rw [total_cons] at ht
    have hi := hi (by omega)
      (show off + piece.length + (len - piece.length) ≤ CInt.intMax by omega) (by omega)
      fun p hm => hp p (mem_cons_of_mem piece hm)
    rw [append_cons hs hm ho (hp piece (mem_cons_self ..)) (by omega) (by omega) (by omega),
      total_cons, snprintf_cons_within piece.length ho (by omega) (by omega), hi.left,
      Option.some.injEq, Prod.mk.injEq]
    exact ⟨by omega, by omega, hi.right⟩

theorem append_refused (he : off + len ≤ CInt.intMax) (hr : Refused size len pieces) :
    (append size off len pieces).2 = none ∧
      ∀ w ∈ (append size off len pieces).1, w.Within (off + len) := by
  induction pieces generalizing off len
  case nil => exact absurd hr not_refused_nil
  case cons piece pieces hi =>
    have hl := hr.len_nonneg
    by_cases hp : size ≤ (piece.length : Int)
    case pos =>
      rw [append_last hs hm hp, snprintf_cons_within 0 ho (by omega) (by omega)]
      exact ⟨rfl, hl, nofun⟩
    case neg =>
      have hr := (refused_cons.mp hr).resolve_left fun h => hp h.right
      have hl' := hr.len_nonneg
      have hi := hi (show 0 ≤ off + piece.length by omega) (by omega) hr
      rw [append_cons hs hm ho (by omega) (by omega) (by omega) (by omega),
        snprintf_cons_within piece.length ho (by omega) (by omega)]
      exact ⟨hi.left, hl, hi.right⟩

-- If the pieces are not all printed, and nothing is written outside, then one was refused.
theorem append_cases (he : off + total pieces ≤ CInt.intMax) (hu : len ≤ CInt.intMax)
    (hl : -2 ^ 31 ≤ len - total pieces) :
    (∀ w ∈ (append size off len pieces).1, off ≤ w.addr) ∧
    ((append size off len pieces).2 = some (off + total pieces, len - total pieces) ∨
      (append size off len pieces).2 = none ∧
        ((∀ w ∈ (append size off len pieces).1, w.Within (off + len)) →
          Refused size len pieces)) := by
  induction pieces generalizing off len
  case nil => simp [append]
  case cons piece pieces hi =>
    have hn := total_nonneg pieces
    rw [total_cons] at he hl ⊢
    rw [refused_cons]
    by_cases hp : size ≤ (piece.length : Int)
    case pos =>
      rw [append_last hs hm hp, forall_mem_singleton, snprintf_cons_within 0 ho (by omega) hu]
      exact ⟨Int.le_refl off, .inr ⟨rfl, fun hw => .inl ⟨hw.left, hp⟩⟩⟩
    case neg =>
      obtain ⟨ha, hr⟩ := hi (show 0 ≤ off + piece.length by omega) (by omega)
        (show len - piece.length ≤ CInt.intMax by omega) (by omega)
      rw [append_cons hs hm ho (by omega) (by omega) (by omega) hu, forall_mem_cons,
        snprintf_cons_within piece.length ho (by omega) hu, ← add_assoc, ← sub_sub]
      refine ⟨⟨Int.le_refl off, fun w hw => by have := ha w hw; omega⟩, ?_⟩
      exact hr.imp_right fun ⟨hr, hw⟩ => ⟨hr, fun h => .inr (hw h.right)⟩

end Steps

def contents (m : Int → Char) (ws : List Write) : Int → Char :=
  ws.foldl Write.apply m

def Stores (m : Int → Char) (l : List Char) : Prop :=
  ∀ (i : Nat) (h : i < l.length), m i = l[i]

theorem Stores.apply {w : Write} (h : Stores m l) (ha : w.addr = l.length) :
    Stores (w.apply m) (l ++ w.chars) := by
  intro i hi
  rw [Write.apply, ha]
  by_cases hl : i < l.length
  case pos => rw [if_neg (by omega), getElem_append_left hl, h i hl]
  case neg =>
    rw [length_append] at hi
    have hn : ((i : Int) - l.length).toNat = i - l.length := by omega
    rw [if_pos (by omega), getElem_append_right (by omega), hn,
      getD_eq_getElem?_getD, getElem?_eq_getElem (by omega), Option.getD_some]

theorem Stores.left (h : Stores m (l ++ l')) : Stores m l := by
  intro i hi
  rw [h i (by rw [length_append]; omega), getElem_append_left hi]

theorem snprintf_chars (h : (piece.length : Int) < len) (hu : len ≤ CInt.intMax) :
    (snprintf off len piece).chars = piece ++ [.ofNat 0] := by
  have hs : CInt.size len = len :=
    CInt.size_eq (by omega) (by simp only [CInt.intMax] at hu; omega)
  rw [snprintf, if_neg (by omega), take_of_length_le (by omega)]

theorem append_stores (hs : 0 ≤ size) (hm : size ≤ CInt.intMax) (he : off + len ≤ CInt.intMax)
    (ht : total pieces < len) (hp : ∀ piece ∈ pieces, (piece.length : Int) < size)
    (hn : pieces ≠ []) (hb : Stores m before) (ho : off = before.length) :
    Stores (contents m (append size off len pieces).1)
      (before ++ pieces.flatten ++ [.ofNat 0]) := by
  induction pieces generalizing off len m before
  case nil => exact absurd rfl hn
  case cons piece pieces hi =>
    have hn := total_nonneg pieces
    rw [total_cons] at ht
    have ha : Stores ((snprintf off len piece).apply m) _ := .apply hb ho
    rw [snprintf_chars (by omega) (by omega)] at ha
    rw [append_cons hs hm (by omega) (hp piece (mem_cons_self ..)) (by omega) (by omega)
      (by omega), contents]
    by_cases hne : pieces = []
    case pos =>
      subst hne
      simpa [append] using ha
    case neg =>
      rw [← append_assoc] at ha
      have hi := hi (show off + piece.length + (len - piece.length) ≤ CInt.intMax by omega)
        (by omega) (fun p hm => hp p (mem_cons_of_mem piece hm)) hne ha.left
        (by rw [length_append, ho, Nat.cast_add])
      rwa [flatten_cons, ← append_assoc before]

theorem length_le_total (h : piece ∈ pieces) : (piece.length : Int) ≤ total pieces := by
  obtain ⟨before, after, rfl⟩ := append_of_mem h
  simp only [total, flatten_append, length_append, flatten_cons]
  omega

section Start

variable (hs : 0 ≤ size) (hm : size ≤ CInt.intMax)
include hs hm

theorem append_start_fits (h : total pieces < size) :
    (append size 0 (CInt.int size) pieces).2 = some (total pieces, size - total pieces) ∧
      ∀ w ∈ (append size 0 (CInt.int size) pieces).1, w.Within size := by
  rw [CInt.int_eq (by omega) hm]
  have ha := append_fits hs hm (Int.le_refl 0) (by omega) (Int.le_of_lt h)
    fun p hp => Int.lt_of_le_of_lt (length_le_total hp) h
  rwa [Int.zero_add, Int.zero_add] at ha

theorem append_start_refused (h : Refused size size pieces) :
    (append size 0 (CInt.int size) pieces).2 = none ∧
      ∀ w ∈ (append size 0 (CInt.int size) pieces).1, w.Within size := by
  rw [CInt.int_eq (by omega) hm]
  have ha := append_refused hs hm (Int.le_refl 0) (by omega) h
  rwa [Int.zero_add] at ha

variable (ht : total pieces ≤ CInt.intMax)
include ht

theorem append_start_cases :
    (append size 0 (CInt.int size) pieces).2 = some (total pieces, size - total pieces) ∨
      (append size 0 (CInt.int size) pieces).2 = none ∧
        ((∀ w ∈ (append size 0 (CInt.int size) pieces).1, w.Within size) →
          Refused size size pieces) := by
  rw [CInt.int_eq (by omega) hm]
  have ha := append_cases hs hm (Int.le_refl 0) (show 0 + total pieces ≤ CInt.intMax by omega) hm
    (by simp only [CInt.intMax] at ht; omega)
  rw [Int.zero_add, Int.zero_add] at ha
  exact ha.right

end Start

end Append

-- A printer writes only inside of a buffer, and fails if a text does not fit with its terminator.
def Sound (size : Int) (text : List Char) (r : List Write × Int) : Prop :=
  (∀ w ∈ r.1, w.Within size) ∧ (r.2 = -e2big ↔ size < text.length + 1)

section Hosts

variable {hosts : List HostSpec} {size : Int} (hs : 0 ≤ size) (hm : size ≤ CInt.intMax)

-- The text fits, or a piece of it that starts inside of the buffer is refused.
def Printable (hosts : List HostSpec) (size : Int) : Prop :=
  ((text hosts).length : Int) < size ∨ Refused size size (HostSpec.pieces hosts)

include hs hm

theorem pmUnparseHostSpec_fits (h : ((text hosts).length : Int) < size) :
    (pmUnparseHostSpec hosts size).2 = (text hosts).length ∧
      ∀ w ∈ (pmUnparseHostSpec hosts size).1, w.Within size := by
  have ha := append_start_fits hs hm h
  rw [pmUnparseHostSpec, ha.left]
  exact ⟨rfl, ha.right⟩

theorem pmUnparseHostSpec_refused (h : Refused size size (HostSpec.pieces hosts)) :
    (pmUnparseHostSpec hosts size).2 = -e2big ∧
      ∀ w ∈ (pmUnparseHostSpec hosts size).1, w.Within size := by
  have ha := append_start_refused hs hm h
  rw [pmUnparseHostSpec, ha.left]
  exact ⟨rfl, ha.right⟩

theorem refused_of_pmUnparseHostSpec (hl : ((text hosts).length : Int) ≤ CInt.intMax)
    (h : (pmUnparseHostSpec hosts size).2 = -e2big)
    (hw : ∀ w ∈ (pmUnparseHostSpec hosts size).1, w.Within size) :
    Refused size size (HostSpec.pieces hosts) := by
  rcases append_start_cases hs hm hl with hr | ⟨-, hr⟩
  case inl =>
    have hn := total_nonneg (HostSpec.pieces hosts)
    simp only [pmUnparseHostSpec, hr, returned, Option.elim_some, e2big] at h
    omega
  case inr => exact hr hw

theorem pmUnparseHostSpec_sound (h : Printable hosts size) :
    Sound size (text hosts) (pmUnparseHostSpec hosts size) := by
  rcases h with h | h
  case inl =>
    have ha := pmUnparseHostSpec_fits hs hm h
    rw [Sound, e2big]
    exact ⟨ha.right, by omega⟩
  case inr =>
    have ha := pmUnparseHostSpec_refused hs hm h
    have hl : size ≤ (text hosts).length := h.le_total
    exact ⟨ha.right, by omega⟩

theorem printable_of_sound (hl : ((text hosts).length : Int) ≤ CInt.intMax)
    (h : Sound size (text hosts) (pmUnparseHostSpec hosts size)) : Printable hosts size := by
  by_cases ht : ((text hosts).length : Int) < size
  case pos => exact .inl ht
  case neg => exact .inr (refused_of_pmUnparseHostSpec hs hm hl (h.right.mpr (by omega)) h.left)

theorem pmUnparseHostSpec_stores (hn : hosts ≠ []) (h : ((text hosts).length : Int) < size) :
    Stores (contents m (pmUnparseHostSpec hosts size).1) (text hosts ++ [.ofNat 0]) := by
  have hp : HostSpec.pieces hosts ≠ [] := by
    obtain ⟨host, hosts, rfl⟩ := exists_cons_of_ne_nil hn
    simp [HostSpec.pieces]
  rw [pmUnparseHostSpec, CInt.int_eq (by omega) hm]
  exact append_stores hs hm (by omega) h
    (fun p hp => Int.lt_of_le_of_lt (length_le_total hp) h) hp
      (show Stores m [] by simp [Stores]) rfl

end Hosts

end Pmapi
