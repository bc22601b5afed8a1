import PcpModel.Library.CInt

-- Host specifications (spec.c). A string is the list of its characters in front of the terminator.
namespace Pmapi

@[ext]
structure HostSpec where
  name : List Char
  ports : List Int
  deriving DecidableEq

inductive Attribute
  | protocol
  | compress
  | username
  | password
  | unixsock
  | secure
  deriving DecidableEq

-- The attributes in the order in which they are searched.
abbrev Attributes :=
  List (Attribute × Option (List Char))

def Attributes.search (attrs : Attributes) (a : Attribute) : Option (Option (List Char)) :=
  (attrs.find? (·.1 = a)).map Prod.snd

inductive SpecError
  | missingPort
  | nonNumericPort
  | unexpectedTerminalCharacter
  deriving DecidableEq

def SpecError.text : SpecError → String
  | missingPort => "missing port"
  | nonNumericPort => "non-numeric port"
  | unexpectedTerminalCharacter => "unexpected terminal character"

-- PM_ERR_GENERIC
def SpecError.code (_ : SpecError) : Int :=
  -12345

-- Hosts, and what is left of the string. `none` is a string that is read beyond its end.
abbrev Parsed :=
  Option (Except SpecError (List HostSpec × List Char))

def Parsed.add (host : HostSpec) (p : Parsed) : Parsed :=
  p.map (·.map fun (hosts, rest) => (host :: hosts, rest))

def atoi (digits : List Char) : Int :=
  CInt.int (min (digits.foldl (fun n c => n * 10 + (c.toNat - '0'.toNat)) 0) (2 ^ 63 - 1))

def endsHost (c : Char) : Bool :=
  c = ':' || c = '@' || c = '?'

def endsPort (c : Char) : Bool :=
  c = ',' || c = '@' || c = '?'

mutual

def parseHostSpec (first : Bool) (name : List Char) : List Char → Parsed
  | [] =>
    if first then some (.ok ([], []))
    else if name = [] then none
    else some (.ok ([⟨name, []⟩], []))
  | c :: cs =>
    if endsHost c then
      if first then some (.ok ([], c :: cs))
      -- The character becomes a part of the name.
      else if name = [] then parseHostSpec false [c] cs
      else if c = ':' then parsePorts name [] [] cs
      else if c = '@' then (parseHostSpec false [] cs).add ⟨name, []⟩
      else some (.ok ([⟨name, []⟩], c :: cs))
    else
      parseHostSpec false (name ++ [c]) cs

def parsePorts (name : List Char) (ports : List Int) (digits : List Char) : List Char → Parsed
  | [] =>
    if digits = [] then some (.error .missingPort)
    else some (.ok ([⟨name, ports ++ [atoi digits]⟩], []))
  | c :: cs =>
    if endsPort c then
      if digits = [] then some (.error .missingPort)
      else if c = ',' then parsePorts name (ports ++ [atoi digits]) [] cs
      else if c = '@' then (parseHostSpec false [] cs).add ⟨name, ports ++ [atoi digits]⟩
      else some (.ok ([⟨name, ports ++ [atoi digits]⟩], c :: cs))
    else if c.isDigit then
      parsePorts name ports (digits ++ [c]) cs
    else
      some (.error .nonNumericPort)

end

def strip (pre s : List Char) : Option (List Char) :=
  if pre.isPrefixOf s then some (s.drop pre.length) else none

def parseProtocolSpec (s : List Char) : Attributes × List Char :=
  match strip ['p', 'c', 'p', ':'] s with
  | some s => ([(.protocol, some ['p', 'c', 'p'])], s.dropWhile (· = '/'))
  | none =>
    match strip ['p', 'c', 'p', 's', ':'] s with
    | some s => ([(.protocol, some ['p', 'c', 'p', 's'])], s.dropWhile (· = '/'))
    | none => ([], s)

def lookupAttribute (name : List Char) : Option Attribute :=
  if name = ['c', 'o', 'm', 'p', 'r', 'e', 's', 's'] then some .compress
  else if name = ['u', 's', 'e', 'r'] ∨ name = ['u', 's', 'e', 'r', 'n', 'a', 'm', 'e'] then
    some .username
  else if name = ['p', 'a', 's', 's'] ∨ name = ['p', 'a', 's', 's', 'w', 'o', 'r', 'd'] then
    some .password
  else if name = ['u', 'n', 'i', 'x'] ∨ name = ['u', 'n', 'i', 'x', 's', 'o', 'c', 'k'] then
    some .unixsock
  else if name = ['s', 'e', 'c', 'u', 'r', 'e'] then some .secure
  else none

-- One attribute. Its value is behind the last equals sign.
def parseAttribute (s : List Char) : Option (Attribute × Option (List Char)) :=
  let value := (s.reverse.takeWhile (· ≠ '=')).reverse
  if '=' ∈ s then
    (lookupAttribute (s.take (s.length - value.length - 1))).map fun a => (a, some value)
  else
    (lookupAttribute s).map fun a => (a, none)

def parseAttributeSpec (attrs : Attributes) (s : List Char) : Attributes :=
  (s.splitOn '&').foldl (fun attrs s => (parseAttribute s).elim attrs (· :: attrs)) attrs

-- __pmParseHostAttrsSpec
def parseHostAttrsSpec (spec : List Char) :
    Option (Except SpecError (List HostSpec × Attributes)) :=
  let (attrs, s) := parseProtocolSpec spec
  (parseHostSpec true [] s).map fun r => r.bind fun (hosts, rest) =>
    match rest with
    | [] => .ok (hosts, parseAttributeSpec attrs [])
    | '?' :: cs => .ok (hosts, parseAttributeSpec attrs cs)
    | _ => .error .unexpectedTerminalCharacter

def HostSpec.portPieces (sep : Char) : List Int → List (List Char)
  | [] => []
  | port :: ports => (sep :: Nat.toDigits 10 (CInt.uint port).toNat) :: portPieces ',' ports

def HostSpec.pieces : List HostSpec → List (List Char)
  | [] => []
  | host :: hosts =>
    host.name :: portPieces ':' host.ports ++ (if hosts = [] then [] else ['@'] :: pieces hosts)

end Pmapi
