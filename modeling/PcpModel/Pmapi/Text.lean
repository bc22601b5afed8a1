import PcpModel.Pmapi.Parse

-- Where the parsers of host specifications stop, and what they find in the text of a list of hosts.
namespace Pmapi

open List CInt

def Parsed.Complete (p : Parsed) : Prop :=
  ∃ hosts, p = some (.ok (hosts, []))

@[simp]
theorem Parsed.complete_ok : Parsed.Complete (some (.ok (hosts, rest))) ↔ rest = [] := by
  simp [Parsed.Complete]

@[simp]
theorem Parsed.complete_error : ¬ Parsed.Complete (some (.error e)) := by
  simp [Parsed.Complete]

@[simp]
theorem Parsed.complete_none : ¬ Parsed.Complete none := by
  simp [Parsed.Complete]

@[simp]
theorem Parsed.complete_add {p : Parsed} : (p.add host).Complete ↔ p.Complete := by
  rcases p with _ | (e | ⟨hosts, rest⟩) <;> simp [Parsed.add, Except.map]

@[simp]
theorem Parsed.add_eq_none {p : Parsed} : p.add host = none ↔ p = none :=
  Option.map_eq_none_iff

-- A complete specification is followed by one more at sign.
def Cut (parse : List Char → Parsed) (cs : List Char) : Prop :=
  ∃ p, cs = p ++ ['@'] ∧ (parse p).Complete

theorem cut_nil : ¬ Cut parse [] := by
  simp [Cut]

theorem cut_cons : Cut parse (c :: cs) ↔
    (c = '@' ∧ cs = [] ∧ (parse []).Complete) ∨ Cut (fun p => parse (c :: p)) cs := by
  constructor
  case mp =>
    rintro ⟨p, hp, hh⟩
    cases p
    case nil => simp_all
    case cons d p =>
      rw [cons_append, cons_eq_cons] at hp
      obtain ⟨rfl, hp⟩ := hp
      exact .inr ⟨p, hp, hh⟩
  case mpr =>
    rintro (⟨rfl, rfl, hh⟩ | ⟨p, rfl, hh⟩)
    case inl => exact ⟨[], rfl, hh⟩
    case inr => exact ⟨c :: p, rfl, hh⟩

@[simp]
theorem cut_add : Cut (fun p => (parse p).add host) cs ↔ Cut parse cs := by
  simp [Cut]

@[simp]
theorem not_cut_ok : ¬ Cut (fun p => some (.ok (hosts, c :: p))) cs := by
  simp [Cut]

@[simp]
theorem not_cut_error : ¬ Cut (fun _ => some (.error e)) cs := by
  simp [Cut]

def HostNone (cs : List Char) : Prop :=
  ∀ name, parseHostSpec false name cs = none ↔
    name = [] ∧ cs = [] ∨ Cut (parseHostSpec false name) cs

def PortNone (cs : List Char) : Prop :=
  ∀ name ports digits, parsePorts name ports digits cs = none ↔
    Cut (parsePorts name ports digits) cs

theorem hostNone_nil : HostNone [] := by
  intro name
  simp [parseHostSpec, cut_nil]

theorem portNone_nil : PortNone [] := by
  intro name ports digits
  simp only [parsePorts, cut_nil]
  split <;> simp

theorem hostNone_cons (hh : HostNone cs) (hp : PortNone cs) : HostNone (c :: cs) := by
  intro name
  rw [cut_cons]
  by_cases he : endsHost c
  case neg =>
    have hc : c ≠ '@' := by rintro rfl; exact he rfl
    simp [parseHostSpec, he, hc, hh (name ++ [c])]
  case pos =>
    by_cases hn : name = []
    case pos =>
      subst hn
      simp [parseHostSpec, hh [c]]
    case neg =>
      rcases endsHost_iff.mp he with rfl | rfl | rfl
      case inl => simp [parseHostSpec, he, hn, hp name [] []]
      case inr.inl => simp [parseHostSpec, he, hn, hh []]
      case inr.inr => simp [parseHostSpec, he, hn]

theorem portNone_cons (hh : HostNone cs) (hp : PortNone cs) : PortNone (c :: cs) := by
  intro name ports digits
  rw [cut_cons]
  by_cases he : endsPort c
  case neg =>
    have hc : c ≠ '@' := by rintro rfl; exact he rfl
    by_cases hd : c.isDigit
    case pos => simp [parsePorts, he, hc, hd, hp name ports (digits ++ [c])]
    case neg => simp [parsePorts, he, hc, hd]
  case pos =>
    by_cases hn : digits = []
    case pos => simp [parsePorts, he, hn]
    case neg =>
      rcases endsPort_iff.mp he with rfl | rfl | rfl
      case inl => simp [parsePorts, he, hn, hp name (ports ++ [atoi digits]) []]
      case inr.inl => simp [parsePorts, he, hn, hh []]
      case inr.inr => simp [parsePorts, he, hn]

theorem parse_none (cs : List Char) : HostNone cs ∧ PortNone cs := by
  induction cs
  case nil => exact ⟨hostNone_nil, portNone_nil⟩
  case cons c cs hi => exact ⟨hostNone_cons hi.left hi.right, portNone_cons hi.left hi.right⟩

-- A complete specification that is not empty is followed by an at sign, with which the string ends.
def Trailing (s : List Char) : Prop :=
  ∃ p, p ≠ [] ∧ s = p ++ ['@'] ∧ (parseHostSpec true [] p).Complete

theorem trailing_cons :
    Trailing (c :: cs) ↔ Cut (fun p => parseHostSpec true [] (c :: p)) cs := by
  constructor
  case mp =>
    rintro ⟨p, hn, hp, hh⟩
    obtain ⟨d, p, rfl⟩ := exists_cons_of_ne_nil hn
    rw [cons_append, cons_eq_cons] at hp
    obtain ⟨rfl, hp⟩ := hp
    exact ⟨p, hp, hh⟩
  case mpr =>
    rintro ⟨p, rfl, hh⟩
    exact ⟨c :: p, cons_ne_nil c p, rfl, hh⟩

theorem parseHostSpec_none : parseHostSpec true [] s = none ↔ Trailing s := by
  cases s
  case nil => simp [parseHostSpec, Trailing]
  case cons c cs =>
    rw [trailing_cons]
    by_cases he : endsHost c
    case pos => simp [parseHostSpec, he]
    case neg => simp [parseHostSpec, he, (parse_none cs).left [c]]

theorem pmParseHostSpec_none : pmParseHostSpec spec = none ↔ Trailing spec := by
  rw [pmParseHostSpec_eq, Option.map_eq_none_iff, parseHostSpec_none]

theorem pmParseHostAttrsSpec_none :
    pmParseHostAttrsSpec spec = none ↔ Trailing (parseProtocolSpec spec).snd := by
  rw [pmParseHostAttrsSpec_eq, parseHostAttrsSpec]
  simp only [Option.map_eq_none_iff, parseHostSpec_none]

-- A host whose text can be told apart from what follows it.
structure HostSpec.Valid (host : HostSpec) : Prop where
  name_ne_nil : host.name ≠ []
  name_free : ∀ c ∈ host.name, c ≠ ':' ∧ c ≠ '@' ∧ c ≠ '?'
  ports_le : ∀ port ∈ host.ports, 0 ≤ port ∧ port ≤ CInt.intMax

def text (hosts : List HostSpec) : List Char :=
  (HostSpec.pieces hosts).flatten

def tail (hosts : List HostSpec) : List Char :=
  if hosts = [] then [] else '@' :: text hosts

def following (host : HostSpec) (hosts : List HostSpec) : Parsed :=
  if hosts = [] then some (.ok ([host], [])) else (parseHostSpec false [] (text hosts)).add host

theorem text_cons : text (host :: hosts) =
    host.name ++ ((HostSpec.portPieces ':' host.ports).flatten ++ tail hosts) := by
  by_cases hn : hosts = [] <;> simp [text, tail, HostSpec.pieces, hn]

theorem endsHost_eq_false (h : c ≠ ':' ∧ c ≠ '@' ∧ c ≠ '?') : endsHost c = false := by
  simp [endsHost, h]

theorem endsPort_eq_false (h : c.isDigit) : endsPort c = false := by
  rw [← Bool.not_eq_true, endsPort_iff]
  rintro (rfl | rfl | rfl) <;> exact absurd h (by decide)

theorem parse_append {f : List Char → List Char → β} (front : List Char)
    (h : ∀ c ∈ cs, ∀ front rest, f front (c :: rest) = f (front ++ [c]) rest) :
    f front (cs ++ rest) = f (front ++ cs) rest := by
  induction cs generalizing front
  case nil => simp
  case cons c cs hi =>
    have hi := hi (front ++ [c]) fun d hd => h d (mem_cons_of_mem c hd)
    rw [append_assoc, singleton_append] at hi
    rw [cons_append, h c (mem_cons_self ..), hi]

theorem parseHostSpec_name (front : List Char) (h : ∀ c ∈ name, c ≠ ':' ∧ c ≠ '@' ∧ c ≠ '?') :
    parseHostSpec false front (name ++ rest) = parseHostSpec false (front ++ name) rest := by
  refine parse_append front fun c hc front rest => ?_
  rw [parseHostSpec, endsHost_eq_false (h c hc)]
  rfl

theorem parseHostSpec_first (hn : name ≠ []) (h : ∀ c ∈ name, c ≠ ':' ∧ c ≠ '@' ∧ c ≠ '?') :
    parseHostSpec first [] (name ++ rest) = parseHostSpec false name rest := by
  obtain ⟨c, name, rfl⟩ := exists_cons_of_ne_nil hn
  have hc := endsHost_eq_false (h c (mem_cons_self ..))
  rw [cons_append, parseHostSpec, hc]
  exact parseHostSpec_name [c] fun d hd => h d (mem_cons_of_mem c hd)

theorem parsePorts_digits (front : List Char) (h : ∀ c ∈ digits, c.isDigit) :
    parsePorts name ports front (digits ++ rest) =
      parsePorts name ports (front ++ digits) rest := by
  refine parse_append front fun c hc front rest => ?_
  rw [parsePorts, endsPort_eq_false (h c hc), h c hc]
  rfl

def portDigits (port : Int) : List Char :=
  Nat.toDigits 10 (CInt.uint port).toNat

theorem portDigits_isDigit : ∀ c ∈ portDigits port, c.isDigit :=
  fun _ => Nat.isDigit_of_mem_toDigits (by decide) (by decide)

theorem portDigits_ne_nil : portDigits port ≠ [] :=
  Nat.toDigits_ne_nil

theorem foldl_digits (n : Nat) (h : ∀ c ∈ digits, c.isDigit) :
    digits.foldl (fun (n : Int) c => n * 10 + (c.toNat - '0'.toNat)) n =
      Nat.ofDigitChars 10 digits n := by
  induction digits generalizing n
  case nil => rfl
  case cons c digits hi =>
    have hc : '0'.toNat ≤ c.toNat := by
      have hc := h c (mem_cons_self ..)
      rw [Char.isDigit, Bool.and_eq_true, decide_eq_true_eq] at hc
      exact hc.left
    rw [Nat.ofDigitChars_cons, ← hi _ fun d hd => h d (mem_cons_of_mem c hd),
      Nat.cast_add, Nat.cast_sub hc, mul_comm]
    rfl

theorem atoi_portDigits (h : 0 ≤ port ∧ port ≤ intMax) : atoi (portDigits port) = port := by
  have hu : uint port = port := by
    simp only [uint, intMax] at *
    omega
  have hf : (portDigits port).foldl _ _ = _ := foldl_digits 0 portDigits_isDigit
  rw [portDigits, Nat.ofDigitChars_toDigits (by decide) (by decide), hu, Int.toNat_of_nonneg h.left]
    at hf
  rw [atoi, portDigits, hu, show (0 : Int) = (0 : Nat) from rfl, int_eq]
  all_goals simp only [intMax] at h ⊢; omega

theorem parseHostSpec_tail (hn : name ≠ []) :
    parseHostSpec false name (tail hosts) = following ⟨name, []⟩ hosts := by
  by_cases hh : hosts = []
  case pos => simp [tail, following, hh, parseHostSpec, hn]
  case neg => simp [tail, following, hh, parseHostSpec, hn, endsHost]

theorem parsePorts_tail (hd : digits ≠ []) :
    parsePorts name ports digits (tail hosts) =
      following ⟨name, ports ++ [atoi digits]⟩ hosts := by
  by_cases hh : hosts = []
  case pos => simp [tail, following, hh, parsePorts, hd]
  case neg => simp [tail, following, hh, parsePorts, hd, endsPort]

theorem parsePorts_ports (before : List Int) (hp : 0 ≤ port ∧ port ≤ intMax)
    (h : ∀ port ∈ ports, 0 ≤ port ∧ port ≤ intMax) :
    parsePorts name before []
        (portDigits port ++ ((HostSpec.portPieces ',' ports).flatten ++ tail hosts)) =
      following ⟨name, before ++ port :: ports⟩ hosts := by
  induction ports generalizing before port
  case nil =>
    rw [HostSpec.portPieces, flatten_nil, nil_append,
      parsePorts_digits [] portDigits_isDigit, nil_append, parsePorts_tail portDigits_ne_nil,
      atoi_portDigits hp]
  case cons next ports hi =>
    have hi := hi (before ++ [port]) (h next (mem_cons_self ..))
      fun d hd => h d (mem_cons_of_mem next hd)
    rw [append_assoc, singleton_append] at hi
    rw [parsePorts_digits [] portDigits_isDigit, nil_append, HostSpec.portPieces,
      flatten_cons, cons_append, cons_append, parsePorts, if_neg portDigits_ne_nil,
      atoi_portDigits hp, ← hi, append_assoc]
    rfl

theorem parseHostSpec_cons (h : host.Valid) :
    parseHostSpec first [] (text (host :: hosts)) = following host hosts := by
  rw [text_cons, parseHostSpec_first h.name_ne_nil h.name_free]
  obtain ⟨hn, hf, hp⟩ := h
  obtain ⟨name, ports⟩ := host
  cases ports
  case nil => exact parseHostSpec_tail hn
  case cons port ports =>
    rw [HostSpec.portPieces, flatten_cons, cons_append, cons_append, parseHostSpec,
      if_pos (by decide), if_neg hn, append_assoc]
    exact parsePorts_ports [] (hp port (mem_cons_self ..))
      fun d hd => hp d (mem_cons_of_mem port hd)

theorem parseHostSpec_text (h : ∀ host ∈ hosts, host.Valid) (hn : first = true ∨ hosts ≠ []) :
    parseHostSpec first [] (text hosts) = some (.ok (hosts, [])) := by
  induction hosts generalizing first
  case nil =>
    obtain rfl | hn := hn
    case inl => rfl
    case inr => exact absurd rfl hn
  case cons host hosts hi =>
    rw [parseHostSpec_cons (h host (mem_cons_self ..)), following]
    by_cases hh : hosts = []
    case pos => rw [if_pos hh, hh]
    case neg =>
      rw [if_neg hh, hi (fun d hd => h d (mem_cons_of_mem host hd)) (.inr hh)]
      rfl

theorem pmParseHostSpec_text (h : ∀ host ∈ hosts, host.Valid) :
    pmParseHostSpec (text hosts) = some (.ok hosts) := by
  rw [pmParseHostSpec_eq, parseHostSpec_text h (.inl rfl)]
  rfl

end Pmapi
