import PcpModel.Pmapi.Unparse

-- What __pmUnparseHostAttrsSpec writes and returns.
namespace Pmapi

open List CInt HostSpec

variable {hosts : List HostSpec} {attrs : Attributes} {size : Int}

def attrsText (hosts : List HostSpec) (attrs : Attributes) : List Char :=
  (protocolPieces attrs).flatten ++ text hosts ++ (attributePieces true attrs).flatten

-- The hosts are compared with the space behind the protocol.
def RefusedAttrs (hosts : List HostSpec) (attrs : Attributes) (size : Int) : Prop :=
  let p := total (protocolPieces attrs)
  let h := total (HostSpec.pieces hosts)
  Refused size size (protocolPieces attrs) ∨
  Refused (size - p) (size - p) (HostSpec.pieces hosts) ∨
  p + h < size ∧ Refused size (size - p - h) (attributePieces true attrs)

def PrintableAttrs (hosts : List HostSpec) (attrs : Attributes) (size : Int) : Prop :=
  ((attrsText hosts attrs).length : Int) < size ∨ RefusedAttrs hosts attrs size

theorem attrsText_length : ((attrsText hosts attrs).length : Int) =
    total (protocolPieces attrs) + total (pieces hosts) +
      total (attributePieces true attrs) := by
  rw [attrsText, text, length_append, length_append]
  rfl

theorem totals_nonneg (hosts : List HostSpec) (attrs : Attributes) :
    0 ≤ total (protocolPieces attrs) ∧ 0 ≤ total (pieces hosts) ∧
      0 ≤ total (attributePieces true attrs) :=
  ⟨total_nonneg _, total_nonneg _, total_nonneg _⟩

theorem Write.shift_within {w : Write} (hn : 0 ≤ n) (h : w.Within (size - n)) :
    (w.shift n).Within size :=
  h.imp_right fun ⟨ha, hl⟩ => ⟨Int.add_nonneg hn ha, by simp only [Write.shift]; omega⟩

theorem Write.within_of_shift {w : Write} (ha : 0 ≤ w.addr) (h : (w.shift n).Within size) :
    w.Within (size - n) :=
  h.imp_right fun ⟨_, hl⟩ => ⟨ha, by simp only [Write.shift] at hl; omega⟩

theorem protocolPieces_cases (attrs : Attributes) :
    protocolPieces attrs = [] ∨ ∃ piece, protocolPieces attrs = [piece] := by
  rw [protocolPieces]
  cases attrs.search .protocol
  case none => exact .inl rfl
  case some value => exact .inr ⟨_, rfl⟩

theorem attributePieces_cases (first : Bool) (attrs : Attributes) :
    attributePieces first attrs = [] ∨ ∃ c pieces, attributePieces first attrs = [c] :: pieces := by
  induction attrs
  case nil => exact .inl rfl
  case cons a attrs hi =>
    rw [attributePieces]
    split
    case isTrue => exact hi
    case isFalse => exact .inr ⟨_, _, rfl⟩

def printedHosts (hosts : List HostSpec) (attrs : Attributes) (size : Int) : List Write × Int :=
  pmUnparseHostSpec hosts (size - total (protocolPieces attrs))

def frontWrites (hosts : List HostSpec) (attrs : Attributes) (size : Int) : List Write :=
  (append size 0 (CInt.int size) (protocolPieces attrs)).1 ++
    (printedHosts hosts attrs size).1.map (·.shift (total (protocolPieces attrs)))

def attributesAppend (hosts : List HostSpec) (attrs : Attributes) (size : Int) :
    List Write × Option (Int × Int) :=
  append size (total (protocolPieces attrs) + total (HostSpec.pieces hosts))
    (size - total (protocolPieces attrs) - total (HostSpec.pieces hosts))
    (attributePieces true attrs)

variable (hs : 0 ≤ size) (hm : size ≤ CInt.intMax)

theorem pmUnparseHostAttrsSpec_none
    (h : (append size 0 (int size) (protocolPieces attrs)).2 = none) :
    pmUnparseHostAttrsSpec hosts attrs size =
      ((append size 0 (int size) (protocolPieces attrs)).1, -e2big) := by
  rw [pmUnparseHostAttrsSpec]
  simp [h]

include hs hm

theorem pmUnparseHostAttrsSpec_some (hp : total (protocolPieces attrs) ≤ size)
    (h : (append size 0 (CInt.int size) (protocolPieces attrs)).2 =
      some (total (protocolPieces attrs), size - total (protocolPieces attrs))) :
    pmUnparseHostAttrsSpec hosts attrs size =
      if CInt.size (printedHosts hosts attrs size).2 ≥ size then
        (frontWrites hosts attrs size, (printedHosts hosts attrs size).2)
      else
        let a := append size
          (CInt.int (total (protocolPieces attrs) + (printedHosts hosts attrs size).2))
          (CInt.int (size - total (protocolPieces attrs) - (printedHosts hosts attrs size).2))
          (attributePieces true attrs)
        (frontWrites hosts attrs size ++ a.1, returned a.2) := by
  have hn := total_nonneg (protocolPieces attrs)
  have hl : CInt.size (size - total (protocolPieces attrs)) =
      size - total (protocolPieces attrs) :=
    CInt.size_eq (by omega) (by simp only [CInt.intMax] at hm; omega)
  rw [pmUnparseHostAttrsSpec]
  simp only [h, hl]
  rfl

theorem protocol_some (h : ¬ Refused size size (protocolPieces attrs)) :
    (append size 0 (int size) (protocolPieces attrs)).2 =
      some (total (protocolPieces attrs), size - total (protocolPieces attrs)) ∧
    (∀ w ∈ (append size 0 (int size) (protocolPieces attrs)).1, w.Within size) ∧
    (total (protocolPieces attrs) = 0 ∨ total (protocolPieces attrs) < size) := by
  rcases protocolPieces_cases attrs with hp | ⟨piece, hp⟩
  case inl =>
    rw [hp, append, int_eq (by omega) hm, total_nil, Int.sub_zero]
    exact ⟨rfl, by simp, .inl rfl⟩
  case inr =>
    have ht : total (protocolPieces attrs) < size := by
      rw [hp, total_cons, total_nil]
      rw [hp, refused_cons] at h
      omega
    have ha := append_start_fits hs hm ht
    exact ⟨ha.left, ha.right, .inr ht⟩

theorem frontWrites_within (h : ¬ Refused size size (protocolPieces attrs))
    (hh : ∀ w ∈ (printedHosts hosts attrs size).1,
      w.Within (size - total (protocolPieces attrs))) :
    ∀ w ∈ frontWrites hosts attrs size, w.Within size := by
  have hn := total_nonneg (protocolPieces attrs)
  rw [frontWrites, forall_mem_append, forall_mem_map]
  exact ⟨(protocol_some hs hm h).right.left, fun w hw => Write.shift_within hn (hh w hw)⟩

theorem pmUnparseHostAttrsSpec_front
    (h : total (protocolPieces attrs) + total (pieces hosts) < size) :
    pmUnparseHostAttrsSpec hosts attrs size =
      (frontWrites hosts attrs size ++ (attributesAppend hosts attrs size).1,
        returned (attributesAppend hosts attrs size).2) ∧
    ∀ w ∈ frontWrites hosts attrs size, w.Within size := by
  have hn := totals_nonneg hosts attrs
  have hr : ¬ Refused size size (protocolPieces attrs) := fun hr => by
    have := hr.le_total
    omega
  have hf := pmUnparseHostSpec_fits (by omega)
    (by omega) (show ((text hosts).length : Int) < size - total (protocolPieces attrs) by
      change total (pieces hosts) < _; omega)
  have hv : (printedHosts hosts attrs size).2 = total (pieces hosts) := hf.left
  have hs' : CInt.size (total (pieces hosts)) = total (pieces hosts) :=
    CInt.size_eq hn.right.left (by simp only [CInt.intMax] at hm; omega)
  rw [pmUnparseHostAttrsSpec_some hs hm (by omega) (protocol_some hs hm hr).left, hv,
    if_neg (by omega), CInt.int_eq (by omega) (by omega), CInt.int_eq (by omega) (by omega)]
  exact ⟨rfl, frontWrites_within hs hm hr hf.right⟩

theorem attributesAppend_fits
    (h : total (protocolPieces attrs) + total (pieces hosts) +
      total (attributePieces true attrs) < size) :
    (attributesAppend hosts attrs size).2 =
      some (total (protocolPieces attrs) + total (pieces hosts) +
        total (attributePieces true attrs), size - total (protocolPieces attrs) -
        total (pieces hosts) - total (attributePieces true attrs)) ∧
      ∀ w ∈ (attributesAppend hosts attrs size).1, w.Within size := by
  have hn := totals_nonneg hosts attrs
  have hr : (attributesAppend hosts attrs size).2 = _ ∧ _ :=
    append_fits hs hm (by omega) (by omega) (by omega) fun p hp => by
      have := length_le_total hp
      omega
  rwa [show ∀ p h : Int, p + h + (size - p - h) = size by omega] at hr

theorem attributesAppend_refused
    (h : Refused size (size - total (protocolPieces attrs) - total (pieces hosts))
      (attributePieces true attrs)) :
    (attributesAppend hosts attrs size).2 = none ∧
      ∀ w ∈ (attributesAppend hosts attrs size).1, w.Within size := by
  have hn := totals_nonneg hosts attrs
  have hr : (attributesAppend hosts attrs size).2 = _ ∧ _ :=
    append_refused hs hm (by omega) (by omega) h
  rwa [show ∀ p h : Int, p + h + (size - p - h) = size by omega] at hr

theorem pmUnparseHostAttrsSpec_fits (h : ((attrsText hosts attrs).length : Int) < size) :
    (pmUnparseHostAttrsSpec hosts attrs size).2 = (attrsText hosts attrs).length ∧
      ∀ w ∈ (pmUnparseHostAttrsSpec hosts attrs size).1, w.Within size := by
  have hn := totals_nonneg hosts attrs
  rw [attrsText_length] at h ⊢
  have hf := pmUnparseHostAttrsSpec_front hs hm
    (show total (protocolPieces attrs) + total (pieces hosts) < size by omega)
  have hr := attributesAppend_fits hs hm h
  rw [hf.left, hr.left, forall_mem_append]
  exact ⟨rfl, hf.right, hr.right⟩

theorem pmUnparseHostAttrsSpec_refused (h : RefusedAttrs hosts attrs size) :
    (pmUnparseHostAttrsSpec hosts attrs size).2 = -e2big ∧
      ∀ w ∈ (pmUnparseHostAttrsSpec hosts attrs size).1, w.Within size := by
  by_cases hr : Refused size size (protocolPieces attrs)
  case pos =>
    have hn := append_start_refused hs hm hr
    rw [pmUnparseHostAttrsSpec_none hn.left]
    exact ⟨rfl, hn.right⟩
  case neg =>
    rcases h.resolve_left hr with h | ⟨hf, h⟩
    case inl =>
      have hl := h.len_nonneg
      have hp := total_nonneg (protocolPieces attrs)
      have hn := pmUnparseHostSpec_refused hl (by omega) h
      have hv : (printedHosts hosts attrs size).2 = -e2big := hn.left
      have hb : CInt.size (-e2big) ≥ size := by
        simp only [CInt.size, e2big, CInt.intMax] at *
        omega
      rw [pmUnparseHostAttrsSpec_some hs hm (by omega) (protocol_some hs hm hr).left, hv, if_pos hb]
      exact ⟨rfl, frontWrites_within hs hm hr hn.right⟩
    case inr =>
      have hf := pmUnparseHostAttrsSpec_front hs hm hf
      have hr := attributesAppend_refused hs hm h
      rw [hf.left, hr.left, forall_mem_append]
      exact ⟨rfl, hf.right, hr.right⟩

theorem pmUnparseHostAttrsSpec_sound (h : PrintableAttrs hosts attrs size) :
    Sound size (attrsText hosts attrs) (pmUnparseHostAttrsSpec hosts attrs size) := by
  rcases h with h | h
  case inl =>
    have ha := pmUnparseHostAttrsSpec_fits hs hm h
    rw [Sound, e2big]
    exact ⟨ha.right, by omega⟩
  case inr =>
    have ha := pmUnparseHostAttrsSpec_refused hs hm h
    have hl : size ≤ (attrsText hosts attrs).length := by
      have hn := totals_nonneg hosts attrs
      rw [attrsText_length]
      rcases h with h | h | ⟨-, h⟩ <;> have := h.le_total <;> omega
    exact ⟨ha.right, by omega⟩

variable (hl : ((attrsText hosts attrs).length : Int) ≤ CInt.intMax)
include hl

omit hs in
theorem printedHosts_eq (hp : total (protocolPieces attrs) ≤ size)
    (h : (printedHosts hosts attrs size).2 ≠ -e2big) :
    (printedHosts hosts attrs size).2 = total (pieces hosts) := by
  have hn := totals_nonneg hosts attrs
  rw [attrsText_length] at hl
  rw [printedHosts, pmUnparseHostSpec] at h ⊢
  rcases append_start_cases (show 0 ≤ size - total (protocolPieces attrs) by omega) (by omega)
    (show total (pieces hosts) ≤ intMax by omega) with hr | ⟨hr, -⟩
  case inl => rw [hr]; rfl
  case inr => exact absurd (by rw [hr]; rfl) h

theorem refused_of_frontWrites (hp : total (protocolPieces attrs) ≤ size)
    (h : (printedHosts hosts attrs size).2 = -e2big)
    (hw : ∀ w ∈ frontWrites hosts attrs size, w.Within size) :
    Refused (size - total (protocolPieces attrs)) (size - total (protocolPieces attrs))
      (pieces hosts) := by
  have hn := totals_nonneg hosts attrs
  rw [attrsText_length] at hl
  rw [frontWrites, forall_mem_append, forall_mem_map] at hw
  have hi : int (size - total (protocolPieces attrs)) = size - total (protocolPieces attrs) :=
    int_eq (by omega) (by omega)
  refine refused_of_pmUnparseHostSpec (by omega) (by omega) ?_ h fun w hw' => ?_
  case refine_1 => show total (pieces hosts) ≤ intMax; omega
  case refine_2 =>
    refine Write.within_of_shift ?_ (hw.right w hw')
    exact (append_cases (by omega) (by omega) (Int.le_refl 0) (by omega) (by omega)
      (by simp only [intMax] at hl; omega)).left w hw'

theorem refused_of_attributesAppend
    (hf : total (protocolPieces attrs) = 0 ∨ total (protocolPieces attrs) < size)
    (hh : total (pieces hosts) < size)
    (he : returned (attributesAppend hosts attrs size).2 = -e2big)
    (hw : ∀ w ∈ (attributesAppend hosts attrs size).1, w.Within size) :
    total (protocolPieces attrs) + total (pieces hosts) < size ∧
      Refused size (size - total (protocolPieces attrs) - total (pieces hosts))
        (attributePieces true attrs) := by
  have hn := totals_nonneg hosts attrs
  rw [attrsText_length] at hl
  have ha : _ ∧ ((attributesAppend hosts attrs size).2 = _ ∨ _) :=
    append_cases hs hm (by omega) (by omega) (by omega) (by simp only [intMax] at hl; omega)
  rw [show ∀ p h : Int, p + h + (size - p - h) = size by omega] at ha
  rcases ha.right with hr | ⟨-, hr⟩
  case inl =>
    simp only [hr, returned, Option.elim_some, e2big] at he
    omega
  have hr := hr hw
  refine ⟨?_, hr⟩
  -- The separator takes the last byte if it is not refused.
  rcases attributePieces_cases true attrs with hp | ⟨c, pieces, hp⟩
  case inl =>
    rw [hp] at hr
    exact absurd hr not_refused_nil
  case inr =>
    rw [hp, refused_cons, length_singleton] at hr
    rcases hr with hr | hr
    case inl => omega
    case inr =>
      have := hr.len_nonneg
      omega

theorem printableAttrs_of_sound
    (h : Sound size (attrsText hosts attrs) (pmUnparseHostAttrsSpec hosts attrs size)) :
    PrintableAttrs hosts attrs size := by
  have hn := totals_nonneg hosts attrs
  by_cases ht : ((attrsText hosts attrs).length : Int) < size
  case pos => exact .inl ht
  case neg =>
    obtain ⟨hw, he⟩ := h
    have he := he.mpr (by omega)
    by_cases hr : Refused size size (protocolPieces attrs)
    case pos => exact .inr (.inl hr)
    case neg =>
      have hps := protocol_some hs hm hr
      have hle : total (protocolPieces attrs) ≤ size := by omega
      have heq : pmUnparseHostAttrsSpec hosts attrs size = _ :=
        pmUnparseHostAttrsSpec_some hs hm hle hps.left
      by_cases hb : (printedHosts hosts attrs size).2 = -e2big
      case pos =>
        have hb' : CInt.size (-e2big) ≥ size := by
          simp only [CInt.size, e2big, CInt.intMax] at *
          omega
        rw [heq, hb, if_pos hb'] at hw
        exact .inr (.inr (.inl (refused_of_frontWrites hs hm hl hle hb hw)))
      case neg =>
        have hv := printedHosts_eq hm hl hle hb
        rw [attrsText_length] at hl
        have hs' : CInt.size (total (pieces hosts)) = total (pieces hosts) :=
          CInt.size_eq hn.right.left (by simp only [CInt.intMax] at hl; omega)
        rw [heq, hv, hs'] at hw he
        by_cases hc : total (pieces hosts) ≥ size
        case pos =>
          rw [if_pos hc] at he
          omega
        case neg =>
          rw [if_neg hc, CInt.int_eq (by omega) (by omega),
            CInt.int_eq (by simp only [CInt.intMax] at hl; omega) (by omega)] at hw he
          rw [forall_mem_append] at hw
          exact .inr (.inr (.inr (refused_of_attributesAppend hs hm (by rwa [attrsText_length])
            hps.right.right (by omega) he hw.right)))

omit hs hm hl

theorem hostSpecs_safe (spec : List Char) (hosts : List HostSpec) (attrs : Attributes)
    (size : Int) (hs : 0 ≤ size) (hm : size ≤ CInt.intMax) :
    (pmParseHostSpec spec ≠ none ↔ ¬ Trailing spec) ∧
    (pmParseHostAttrsSpec spec ≠ none ↔ ¬ Trailing (parseProtocolSpec spec).snd) ∧
    (Printable hosts size → Sound size (text hosts) (pmUnparseHostSpec hosts size)) ∧
    (((text hosts).length : Int) ≤ CInt.intMax →
      Sound size (text hosts) (pmUnparseHostSpec hosts size) → Printable hosts size) ∧
    (PrintableAttrs hosts attrs size →
      Sound size (attrsText hosts attrs) (pmUnparseHostAttrsSpec hosts attrs size)) ∧
    (((attrsText hosts attrs).length : Int) ≤ CInt.intMax →
      Sound size (attrsText hosts attrs) (pmUnparseHostAttrsSpec hosts attrs size) →
        PrintableAttrs hosts attrs size) ∧
    ((∀ host ∈ hosts, host.Valid) → pmParseHostSpec (text hosts) = some (.ok hosts)) ∧
    (hosts ≠ [] → ((text hosts).length : Int) < size →
      ∀ m, Stores (contents m (pmUnparseHostSpec hosts size).1) (text hosts ++ [.ofNat 0])) := by
  refine ⟨not_congr pmParseHostSpec_none, not_congr pmParseHostAttrsSpec_none,
    pmUnparseHostSpec_sound hs hm, printable_of_sound hs hm, pmUnparseHostAttrsSpec_sound hs hm,
    printableAttrs_of_sound hs hm, pmParseHostSpec_text, ?_⟩
  intro hn ht m
  exact pmUnparseHostSpec_stores hs hm hn ht

theorem hostSpecs_safe_four :
    pmParseHostSpec ['a'] ≠ none ∧
    Sound 4 (text [⟨['a'], [1]⟩]) (pmUnparseHostSpec [⟨['a'], [1]⟩] 4) ∧
    pmParseHostSpec (text [⟨['a'], [1]⟩]) = some (.ok [⟨['a'], [1]⟩]) := by
  have h := hostSpecs_safe ['a'] [⟨['a'], [1]⟩] [] 4 (by decide) (by decide)
  refine ⟨h.left.mpr ?_, h.right.right.left (.inl (by decide)), ?_⟩
  case refine_1 =>
    rintro ⟨p, -, hp, -⟩
    have := congrArg getLast? hp
    simp at this
  case refine_2 =>
    refine h.right.right.right.right.right.right.left fun host hh => ?_
    rw [mem_singleton] at hh
    subst hh
    exact ⟨by simp, by simp, by decide⟩

-- An at sign at the end, a text that is cut without an error, and one that is written beyond.
theorem hostSpecs_overrun :
    pmParseHostSpec ['a', '@'] = none ∧
    ¬ Sound 10 (text [⟨['a', 'b', 'c', 'd', 'e', 'f'], [44321]⟩])
      (pmUnparseHostSpec [⟨['a', 'b', 'c', 'd', 'e', 'f'], [44321]⟩] 10) ∧
    ∃ w ∈ (pmUnparseHostSpec [⟨['a', 'b', 'c', 'd', 'e', 'f'], [44321, 1]⟩] 10).1,
      ¬ w.Within 10 := by
  refine ⟨?_, ?_, ?_⟩
  case refine_1 => exact pmParseHostSpec_none.mpr ⟨['a'], by decide, rfl, [⟨['a'], []⟩], by decide⟩
  case refine_2 =>
    intro h
    have := h.right.mpr (by decide)
    revert this
    decide
  case refine_3 => exact ⟨⟨12, [',', '1', .ofNat 0]⟩, by decide, by decide⟩

end Pmapi
