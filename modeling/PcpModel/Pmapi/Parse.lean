import PcpModel.Pmapi.HostSpec

-- The parsers of host specifications with the positions at which they look (spec.c).
namespace Pmapi

open List Nat Parsed

section Positions

variable (spec : List Char)

def between (start s : Nat) : List Char :=
  (spec.drop start).take (s - start)

abbrev Found :=
  Option (Except SpecError (List HostSpec × Nat))

mutual

def hostLoop (position start s : Nat) (hosts : List HostSpec) : Found :=
  if h : s ≤ spec.length then
    let c := spec[s]?
    if c = some ':' ∨ c = some '@' ∨ c = none ∨ c = some '?' then
      if s = position then some (.ok (hosts, s))
      else if s = start then hostLoop position start (s + 1) hosts
      else if c = some ':' then portLoop position (s + 1) (s + 1) hosts (between spec start s) []
      else if c = some '@' then
        hostLoop position (s + 1) (s + 1) (hosts ++ [⟨between spec start s, []⟩])
      else some (.ok (hosts ++ [⟨between spec start s, []⟩], s))
    else
      hostLoop position start (s + 1) hosts
  else
    none
termination_by spec.length + 1 - s

def portLoop (position start s : Nat) (hosts : List HostSpec) (name : List Char)
    (ports : List Int) : Found :=
  if h : s ≤ spec.length then
    let c := spec[s]?
    if c = some ',' ∨ c = some '@' ∨ c = none ∨ c = some '?' then
      if s - start < 1 then some (.error .missingPort)
      else
        let ports := ports ++ [atoi (between spec start s)]
        if c = some ',' then portLoop position (s + 1) (s + 1) hosts name ports
        else if c = some '@' then hostLoop position (s + 1) (s + 1) (hosts ++ [⟨name, ports⟩])
        else some (.ok (hosts ++ [⟨name, ports⟩], s))
    else if c.any (·.isDigit) then
      portLoop position start (s + 1) hosts name ports
    else
      some (.error .nonNumericPort)
  else
    none
termination_by spec.length + 1 - s

end

def pmParseHostSpec : Option (Except SpecError (List HostSpec)) :=
  (hostLoop spec 0 0 0 []).map (·.bind fun (hosts, s) =>
    if spec[s]? = none then .ok hosts else .error .unexpectedTerminalCharacter)

def addAttribute (start : Nat) (v : Option Nat) (s : Nat) (attrs : Attributes) : Attributes :=
  let name := between spec start (v.elim s (· - 1))
  (lookupAttribute name).elim attrs fun a => (a, v.map (between spec · s)) :: attrs

def attributeLoop (start : Nat) (v : Option Nat) (s : Nat) (attrs : Attributes) :
    Option Attributes :=
  if h : s ≤ spec.length then
    let c := spec[s]?
    if c = none ∨ c = some '&' then
      if c = none ∧ s = start then some attrs
      else if c = none then some (addAttribute spec start v s attrs)
      else attributeLoop (s + 1) none (s + 1) (addAttribute spec start v s attrs)
    else
      attributeLoop start (if c = some '=' then some (s + 1) else v) (s + 1) attrs
  else
    none
termination_by spec.length + 1 - s

def pmParseHostAttrsSpec : Option (Except SpecError (List HostSpec × Attributes)) :=
  let (attrs, rest) := parseProtocolSpec spec
  let position := spec.length - rest.length
  match hostLoop spec position position position [] with
  | none => none
  | some (.error e) => some (.error e)
  | some (.ok (hosts, s)) =>
    -- skip over an attributes delimiter
    if spec[s]? = some '?' then
      (attributeLoop spec (s + 1) none (s + 1) attrs).map fun attrs => .ok (hosts, attrs)
    else if spec[s]? = none then
      (attributeLoop spec s none s attrs).map fun attrs => .ok (hosts, attrs)
    else
      some (.error .unexpectedTerminalCharacter)

end Positions

section Refines

variable {spec pre name digits cs : List Char}

theorem getElem?_between (h : spec = pre ++ name ++ cs) :
    spec[pre.length + name.length]? = cs.head? := by
  rw [h, ← length_append, getElem?_append_right (Nat.le_refl _), Nat.sub_self,
    head?_eq_getElem?]

theorem between_eq (h : spec = pre ++ name ++ cs) :
    between spec pre.length (pre.length + name.length) = name := by
  rw [between, h, append_assoc, drop_left, Nat.add_sub_cancel_left, take_left]

theorem length_between (h : spec = pre ++ name ++ cs) :
    spec.length = pre.length + name.length + cs.length := by
  rw [h, length_append, length_append]

def Parsed.found (n : Nat) (hosts : List HostSpec) (p : Parsed) : Found :=
  p.map (·.map fun (hs, rest) => (hosts ++ hs, n - rest.length))

theorem Parsed.found_add {p : Parsed} :
    (p.add host).found n hosts = p.found n (hosts ++ [host]) := by
  cases p
  case none => rfl
  case some r =>
    cases r
    case error e => rfl
    case ok r => simp [found, add, Except.map]

theorem Parsed.found_ok (h : n = s + rest.length) :
    found n hosts (some (.ok (hs, rest))) = some (.ok (hosts ++ hs, s)) := by
  simp [found, Except.map, h]

theorem Parsed.found_error : found n hosts (some (.error e)) = some (.error e) :=
  rfl

theorem endsHost_iff : endsHost c ↔ c = ':' ∨ c = '@' ∨ c = '?' := by
  simp [endsHost, or_assoc]

theorem endsPort_iff : endsPort c ↔ c = ',' ∨ c = '@' ∨ c = '?' := by
  simp [endsPort, or_assoc]

def HostRefines (spec cs : List Char) : Prop :=
  ∀ pre name hosts position, spec = pre ++ name ++ cs → position ≤ pre.length →
    hostLoop spec position pre.length (pre.length + name.length) hosts =
      (parseHostSpec (pre.length + name.length = position) name cs).found spec.length hosts

def PortRefines (spec cs : List Char) : Prop :=
  ∀ pre digits hosts position name ports, spec = pre ++ digits ++ cs → position < pre.length →
    portLoop spec position pre.length (pre.length + digits.length) hosts name ports =
      (parsePorts name ports digits cs).found spec.length hosts

theorem HostRefines.next (hr : HostRefines spec cs) (h : spec = pre ++ name ++ c :: cs)
    (hp : position ≤ pre.length) :
    hostLoop spec position pre.length (pre.length + name.length + 1) hosts =
      (parseHostSpec false (name ++ [c]) cs).found spec.length hosts := by
  have hr := hr pre (name ++ [c]) hosts position (by simp [h]) hp
  rw [length_append, length_singleton, ← add_assoc] at hr
  rw [hr, decide_eq_false (by omega)]

theorem HostRefines.after (hr : HostRefines spec cs) (h : spec = pre ++ name ++ c :: cs)
    (hp : position ≤ pre.length) :
    hostLoop spec position (pre.length + name.length + 1) (pre.length + name.length + 1) hosts =
      (parseHostSpec false [] cs).found spec.length hosts := by
  have hr := hr (pre ++ name ++ [c]) [] hosts position (by simp [h]) (by simp; omega)
  simp only [length_append, length_singleton, length_nil] at hr
  rw [hr, decide_eq_false (by omega)]

theorem PortRefines.next (hr : PortRefines spec cs) (h : spec = pre ++ digits ++ c :: cs)
    (hp : position < pre.length) :
    portLoop spec position pre.length (pre.length + digits.length + 1) hosts name ports =
      (parsePorts name ports (digits ++ [c]) cs).found spec.length hosts := by
  have hr := hr pre (digits ++ [c]) hosts position name ports (by simp [h]) hp
  rwa [length_append, length_singleton, ← add_assoc] at hr

theorem PortRefines.after (hr : PortRefines spec cs) (h : spec = pre ++ digits ++ c :: cs)
    (hp : position ≤ pre.length) :
    portLoop spec position (pre.length + digits.length + 1) (pre.length + digits.length + 1) hosts
      name ports = (parsePorts name ports [] cs).found spec.length hosts := by
  have hr := hr (pre ++ digits ++ [c]) [] hosts position name ports (by simp [h]) (by simp; omega)
  simpa only [length_append, length_singleton, length_nil] using hr

theorem hostRefines_nil : HostRefines spec [] := by
  intro pre name hosts position h hp
  have hl := length_between h
  have hs : pre.length + name.length = spec.length := hl.symm
  -- The next character would be the one behind the terminator.
  have ho : hostLoop spec position pre.length (pre.length + name.length + 1) hosts = none := by
    rw [hostLoop, dif_neg (by omega)]
  rw [hostLoop, dif_pos (by omega), getElem?_between h, between_eq h, ho, parseHostSpec]
  simp only [head?_nil, reduceCtorEq, or_true, or_false, add_eq_left,
    length_eq_zero_iff, decide_eq_true_eq, apply_ite (found _ _), found_ok hl,
    append_nil]
  rfl

theorem hostRefines_cons (hh : HostRefines spec cs) (hp : PortRefines spec cs) :
    HostRefines spec (c :: cs) := by
  intro pre name hosts position h hle
  have hl := length_between h
  have hs : pre.length + name.length ≤ spec.length := by omega
  rw [hostLoop, dif_pos hs, getElem?_between h, between_eq h, parseHostSpec,
    hh.next h hle, hh.after h hle, hp.after h hle, head?_cons]
  simp only [reduceCtorEq, endsHost_iff, add_eq_left, apply_ite (found _ _), found_add,
    found_ok hl]
  by_cases hn : name = []
  case pos => simp [hn]
  case neg => simp [hn]

theorem portRefines_nil : PortRefines spec [] := by
  intro pre digits hosts position name ports h hp
  have hl := length_between h
  have hs : pre.length + digits.length ≤ spec.length := by omega
  rw [portLoop, dif_pos hs, getElem?_between h, between_eq h, parsePorts]
  simp [apply_ite (found _ _), found_ok hl, found_error]

theorem portRefines_cons (hh : HostRefines spec cs) (hp : PortRefines spec cs) :
    PortRefines spec (c :: cs) := by
  intro pre digits hosts position name ports h hlt
  have hl := length_between h
  have hs : pre.length + digits.length ≤ spec.length := by omega
  rw [portLoop, dif_pos hs, getElem?_between h, between_eq h, parsePorts,
    hp.next h hlt, head?_cons]
  simp [hh.after h (le_of_lt hlt), hp.after h (le_of_lt hlt), endsPort_iff, apply_ite (found _ _),
    found_add, found_ok hl, found_error]

theorem loops_refine (spec cs : List Char) : HostRefines spec cs ∧ PortRefines spec cs := by
  induction cs
  case nil => exact ⟨hostRefines_nil, portRefines_nil⟩
  case cons c cs hi =>
    exact ⟨hostRefines_cons hi.left hi.right, portRefines_cons hi.left hi.right⟩

theorem hostLoop_eq (pre : List Char) :
    hostLoop (pre ++ cs) pre.length pre.length pre.length [] =
      (parseHostSpec true [] cs).found (pre ++ cs).length [] := by
  have h := (loops_refine (pre ++ cs) cs).left pre [] [] pre.length (by simp) (le_refl _)
  simpa using h

end Refines

section Attributes

variable {spec pre seg cs : List Char}

def valueOf (seg : List Char) : List Char :=
  (seg.reverse.takeWhile (· ≠ '=')).reverse

def valueStart (start : Nat) (seg : List Char) : Option Nat :=
  if '=' ∈ seg then some (start + seg.length - (valueOf seg).length) else none

theorem valueStart_nil : valueStart n [] = none :=
  rfl

theorem eq_valueOf (h : '=' ∈ seg) : ∃ name, seg = name ++ '=' :: valueOf seg := by
  obtain ⟨value, name, hs, hn⟩ := eq_append_cons_of_mem (mem_reverse.mpr h)
  have hp : ∀ c ∈ value, decide (c ≠ '=') = true := by
    intro c hc
    rw [decide_eq_true_eq]
    rintro rfl
    exact hn hc
  have hv : valueOf seg = value.reverse := by
    rw [valueOf, hs, takeWhile_append_of_pos hp]
    simp
  exists name.reverse
  rw [hv, ← reverse_inj, hs]
  simp

theorem valueStart_eq (h : seg = name ++ '=' :: valueOf seg) :
    valueStart n seg = some (n + name.length + 1) := by
  have hm : '=' ∈ seg := by rw [h]; simp
  have hl := congrArg length h
  simp only [length_append, length_cons] at hl
  rw [valueStart, if_pos hm, Option.some.injEq]
  omega

theorem valueStart_append :
    valueStart n (seg ++ [c]) =
      if c = '=' then some (n + seg.length + 1) else valueStart n seg := by
  by_cases hc : c = '='
  case pos => simp [valueStart, valueOf, hc, add_assoc]
  case neg =>
    by_cases hm : '=' ∈ seg
    case neg => simp [valueStart, hm, hc, Ne.symm hc]
    case pos =>
      obtain ⟨name, h⟩ := eq_valueOf hm
      have h' : seg ++ [c] = name ++ '=' :: valueOf (seg ++ [c]) := by
        have hv : valueOf (seg ++ [c]) = valueOf seg ++ [c] := by simp [valueOf, hc]
        rw [hv, ← cons_append, ← append_assoc, ← h]
      rw [valueStart_eq h, valueStart_eq h', if_neg hc]

theorem addAttribute_eq (h : spec = pre ++ seg ++ cs) :
    addAttribute spec pre.length (valueStart pre.length seg) (pre.length + seg.length) attrs =
      (parseAttribute seg).elim attrs (· :: attrs) := by
  by_cases hm : '=' ∈ seg
  case neg =>
    rw [addAttribute, valueStart, parseAttribute, if_neg hm, if_neg hm, Option.elim_none,
      between_eq h]
    cases lookupAttribute seg <;> rfl
  case pos =>
    obtain ⟨name, hs⟩ := eq_valueOf hm
    have hl : seg.length = name.length + 1 + (valueOf seg).length := by
      have hl := congrArg length hs
      simp only [length_append, length_cons] at hl
      omega
    have hn : between spec pre.length (pre.length + name.length) = name := by
      refine between_eq (show spec = pre ++ name ++ ('=' :: valueOf seg ++ cs) from ?_)
      rw [h, append_assoc, append_assoc, ← append_assoc name, ← hs]
    have hv : between spec (pre.length + name.length + 1) (pre.length + seg.length) =
        valueOf seg := by
      have hb : spec = (pre ++ name ++ ['=']) ++ valueOf seg ++ cs := by
        rw [h]
        nth_rewrite 1 [hs]
        simp
      have hb := between_eq hb
      simp only [length_append, length_singleton] at hb
      rwa [show pre.length + name.length + 1 + (valueOf seg).length = pre.length + seg.length by
        omega] at hb
    have ht : seg.take (seg.length - (valueOf seg).length - 1) = name := by
      rw [show seg.length - (valueOf seg).length - 1 = name.length by omega]
      nth_rewrite 1 [hs]
      exact take_left
    rw [valueOf] at ht
    rw [addAttribute, valueStart_eq hs, parseAttribute, if_pos hm, ht, Option.elim_some,
      Nat.add_sub_cancel, hn, Option.map_some, hv]
    cases lookupAttribute name <;> rfl

def AttributesRefine (spec cs : List Char) : Prop :=
  ∀ pre seg attrs, spec = pre ++ seg ++ cs → '&' ∉ seg →
    attributeLoop spec pre.length (valueStart pre.length seg) (pre.length + seg.length) attrs =
      some (parseAttributeSpec attrs (seg ++ cs))

theorem attributesRefine_nil : AttributesRefine spec [] := by
  intro pre seg attrs h hs
  have hl := length_between h
  have hle : pre.length + seg.length ≤ spec.length := by omega
  rw [attributeLoop, dif_pos hle, getElem?_between h, addAttribute_eq h, parseAttributeSpec,
    append_nil, splitOn_eq_singleton hs]
  by_cases hn : seg = []
  case pos => subst hn; simp; rfl
  case neg => simp [hn]

theorem attributesRefine_cons (hr : AttributesRefine spec cs) :
    AttributesRefine spec (c :: cs) := by
  intro pre seg attrs h hs
  have hl := length_between h
  have hle : pre.length + seg.length ≤ spec.length := by omega
  rw [attributeLoop, dif_pos hle, getElem?_between h, addAttribute_eq h]
  by_cases hc : c = '&'
  case pos =>
    have hr := hr (pre ++ seg ++ [c]) [] ((parseAttribute seg).elim attrs (· :: attrs))
      (by simp [h]) (by simp)
    simp only [length_append, length_singleton, length_nil,
      valueStart_nil] at hr
    have hsp : (seg ++ c :: cs).splitOn '&' = seg :: cs.splitOn '&' := by
      refine splitOnP_append_cons_of_forall_mem (fun x hx => ?_) c (by simp [hc]) cs
      rw [beq_eq_false_iff_ne]
      rintro rfl
      exact hs hx
    rw [hr, parseAttributeSpec, parseAttributeSpec, hsp]
    simp [hc]
  case neg =>
    have hr := hr pre (seg ++ [c]) attrs (by simp [h]) (by simp [hs, Ne.symm hc])
    simp only [valueStart_append, length_append, ← add_assoc,
      append_assoc] at hr
    simpa [hc] using hr

theorem attributes_refine (spec cs : List Char) : AttributesRefine spec cs := by
  induction cs
  case nil => exact attributesRefine_nil
  case cons c cs hi => exact attributesRefine_cons hi

theorem attributeLoop_eq :
    attributeLoop (pre ++ cs) pre.length none pre.length attrs =
      some (parseAttributeSpec attrs cs) :=
  attributes_refine (pre ++ cs) cs pre [] attrs (by simp) (by simp)

end Attributes

theorem strip_eq (h : strip pre s = some rest) : s = pre ++ rest := by
  rw [strip, Option.ite_none_right_eq_some] at h
  obtain ⟨hp, h⟩ := h
  obtain ⟨t, rfl⟩ := isPrefixOf_iff_prefix.mp hp
  rw [Option.some.injEq, drop_left] at h
  rw [h]

theorem parseProtocolSpec_eq (spec : List Char) :
    ∃ pre, spec = pre ++ (parseProtocolSpec spec).snd := by
  unfold parseProtocolSpec
  split
  case h_1 s h =>
    exists ['p', 'c', 'p', ':'] ++ s.takeWhile (· = '/')
    rw [append_assoc, takeWhile_append_dropWhile]
    exact strip_eq h
  case h_2 h =>
    split
    case h_1 s h =>
      exists ['p', 'c', 'p', 's', ':'] ++ s.takeWhile (· = '/')
      rw [append_assoc, takeWhile_append_dropWhile]
      exact strip_eq h
    case h_2 h => exact ⟨[], rfl⟩

def Parsed.Ends (cs : List Char) (p : Parsed) : Prop :=
  ∀ hosts rest, p = some (.ok (hosts, rest)) → rest <:+ cs

namespace Parsed.Ends

theorem ok : Ends cs (some (.ok (hosts, cs))) := by
  rintro hosts rest ⟨⟩
  exact suffix_rfl

theorem error : Ends cs (some (.error e)) :=
  nofun

theorem add {p : Parsed} (h : p.Ends cs) : (p.add host).Ends cs := by
  intro hosts rest ha
  simp only [Parsed.add, Option.map_eq_some_iff] at ha
  obtain ⟨r, rfl, ha⟩ := ha
  cases r
  case error e => cases ha
  case ok r =>
    cases ha
    exact h r.fst r.snd rfl

theorem cons {p : Parsed} (h : p.Ends cs) : p.Ends (c :: cs) :=
  fun hosts rest hp => (h hosts rest hp).trans (suffix_cons c cs)

end Parsed.Ends

theorem parse_ends (cs : List Char) :
    (∀ first name, (parseHostSpec first name cs).Ends cs) ∧
    (∀ name ports digits, (parsePorts name ports digits cs).Ends cs) := by
  induction cs
  case nil =>
    constructor
    case left =>
      intro first name
      rw [parseHostSpec]
      split
      case isTrue => exact .ok
      case isFalse =>
        split
        case isTrue => nofun
        case isFalse => exact .ok
    case right =>
      intro name ports digits
      rw [parsePorts]
      split
      case isTrue => exact .error
      case isFalse => exact .ok
  case cons c cs hi =>
    obtain ⟨hh, hp⟩ := hi
    constructor
    case left =>
      intro first name
      rw [parseHostSpec]
      repeat' split
      all_goals first | exact .ok | exact (hh _ _).cons | exact (hp _ _ _).cons |
        exact (hh _ _).add.cons
    case right =>
      intro name ports digits
      rw [parsePorts]
      repeat' split
      all_goals first | exact .ok | exact .error | exact (hp _ _ _).cons | exact (hh _ _).add.cons

theorem getElem?_suffix (h : rest <:+ spec) :
    spec[spec.length - rest.length]? = rest.head? := by
  obtain ⟨pre, rfl⟩ := h
  rw [length_append, Nat.add_sub_cancel, getElem?_append_right (Nat.le_refl _),
    Nat.sub_self, head?_eq_getElem?]

theorem attributeLoop_suffix (attrs : Attributes) (h : rest <:+ spec) :
    attributeLoop spec (spec.length - rest.length) none (spec.length - rest.length) attrs =
      some (parseAttributeSpec attrs rest) := by
  obtain ⟨pre, rfl⟩ := h
  rw [length_append, Nat.add_sub_cancel, attributeLoop_eq]

-- The parsers with and without positions agree, also in when they look behind the terminator.
theorem pmParseHostSpec_eq :
    pmParseHostSpec spec = (parseHostSpec true [] spec).map (·.bind fun (hosts, rest) =>
      if rest = [] then .ok hosts else .error .unexpectedTerminalCharacter) := by
  have he := (parse_ends spec).left true []
  rw [pmParseHostSpec, show hostLoop spec 0 0 0 [] = _ from hostLoop_eq []]
  cases hp : parseHostSpec true [] spec
  case none => rfl
  case some r =>
    cases r
    case error e => rfl
    case ok r =>
      have hg := getElem?_suffix (he r.fst r.snd hp)
      simp only [found, Option.map_some, Except.map, Except.bind, hg, nil_append,
        head?_eq_none_iff]

theorem pmParseHostAttrsSpec_eq : pmParseHostAttrsSpec spec = parseHostAttrsSpec spec := by
  obtain ⟨pre, hs⟩ := parseProtocolSpec_eq spec
  rw [pmParseHostAttrsSpec, parseHostAttrsSpec]
  generalize parseProtocolSpec spec = r at hs ⊢
  obtain ⟨attrs, cs⟩ := r
  have he := (parse_ends cs).left true []
  have hl : spec.length - cs.length = pre.length := by simp [hs]
  simp only [hl]
  subst hs
  rw [hostLoop_eq]
  cases hp : parseHostSpec true [] cs
  case none => rfl
  case some r =>
    cases r
    case error e => rfl
    case ok r =>
      obtain ⟨hosts, rest⟩ := r
      have hr : rest <:+ pre ++ cs := (he hosts rest hp).trans (suffix_append pre cs)
      have hg := getElem?_suffix hr
      have ha := attributeLoop_suffix attrs hr
      simp only [found, Option.map_some, Except.map, Except.bind, hg, ha]
      cases rest
      case nil => rfl
      case cons c rest =>
        have hr' : rest <:+ pre ++ cs := (suffix_cons c rest).trans hr
        have ha' := attributeLoop_suffix attrs hr'
        have hle := hr.length_le
        have hn : (pre ++ cs).length - (c :: rest).length + 1 =
            (pre ++ cs).length - rest.length := by
          rw [length_cons] at hle ⊢
          omega
        by_cases hc : c = '?'
        case pos =>
          subst hc
          simp only [head?_cons, hn, ha']
          rfl
        case neg =>
          simp [hc]

end Pmapi
