import PcpModel.Library.CInt

-- The addresses to which a name in a host access statement refers (access.c).
namespace Access

open Option

def einval : Int :=
  22

def ehostdown : Int :=
  112

def ehostunreach : Int :=
  113

inductive SockAddr
  | inet (addr : BitVec 32)
  | inet6 (addr : BitVec 128)
  deriving DecidableEq

namespace SockAddr

-- Whether the address and the mask are of one family, and the masked address is `hostid`.
def Masked : SockAddr → SockAddr → SockAddr → Prop
  | .inet a, .inet m, hostid => .inet (a &&& m) = hostid
  | .inet6 a, .inet6 m, hostid => .inet6 (a &&& m) = hostid
  | _, _, _ => False

instance : ∀ id mask hostid, Decidable (Masked id mask hostid)
  | .inet a, .inet m, hostid => inferInstanceAs (Decidable (SockAddr.inet (a &&& m) = hostid))
  | .inet6 a, .inet6 m, hostid => inferInstanceAs (Decidable (SockAddr.inet6 (a &&& m) = hostid))
  | .inet _, .inet6 _, _ => inferInstanceAs (Decidable False)
  | .inet6 _, .inet _, _ => inferInstanceAs (Decidable False)

def isLoopBack : SockAddr → Bool
  | .inet a => a = 0x7f000001
  | .inet6 a => a = 1

end SockAddr

def inetAddr (bytes : List Nat) : BitVec 32 :=
  bytes.foldl (fun a b => a <<< 8 ||| .ofNat 32 b) 0

structure Spec where
  hostid : SockAddr
  hostmask : SockAddr
  level : Nat

def Spec.Matches (s : Spec) (id : SockAddr) : Prop :=
  id.Masked s.hostmask s.hostid

instance (s : Spec) (id : SockAddr) : Decidable (s.Matches id) :=
  inferInstanceAs (Decidable (id.Masked _ _))

def isSpace (c : Char) : Bool :=
  c = ' ' ∨ ('\t' ≤ c ∧ c ≤ '\r')

def decimal (ds : List Char) : Int :=
  ds.foldl (fun n d => 10 * n + (d.toNat - '0'.toNat)) 0

def longMin : Int :=
  -0x8000000000000000

def longMax : Int :=
  0x7fffffffffffffff

-- The number, which is limited to a `long`, and what follows it.
def strtol (p : List Char) : Int × List Char :=
  let q := p.dropWhile isSpace
  let negative := q.head? = some '-'
  let q := if negative ∨ q.head? = some '+' then q.tail else q
  let ds := q.takeWhile Char.isDigit
  if ds = [] then
    (0, p)
  else
    let n := if negative then max longMin (-decimal ds) else min longMax (decimal ds)
    (n, q.dropWhile Char.isDigit)

-- The components in front of the wildcard and the level that is left for it.
def inetComponents : Nat → List Char → Option (List Nat × Nat)
  | level, [] => some ([], level)
  | level, '*' :: _ => some ([], level)
  | 0, _ => none
  | level + 1, p =>
    let (n, p) := strtol p
    let n := CInt.int n
    match p with
    | [] => none
    | c :: p =>
      if (c ≠ '.' ∧ c ≠ '*') ∨ n < 0 ∨ n > 255 then
        none
      else if level < 1 then
        none
      else do
        let (ns, level) ← inetComponents level p
        return (n.toNat :: ns, level)

def parseInetWildCard (name : List Char) : Option (List Nat × Nat) :=
  match name with
  | '.' :: p => if p.head? = some '*' then inetComponents 4 p else none
  | p => inetComponents 4 p

def inetMask (level : Nat) : BitVec 32 :=
  inetAddr (.replicate (4 - level) 255 ++ .replicate level 0)

def inetSpec (ns : List Nat) (level : Nat) : Spec where
  hostid := .inet <| inetAddr (ns ++ .replicate level 0)
  hostmask := .inet <| inetMask level
  level := level

-- The addresses of hosts, and what IPv6 wildcards are translated to.
structure Network where
  getAddrInfo : List Char → Option (List SockAddr)
  myhost : Option (List Char × List SockAddr)
  ipv6 : Bool
  parseIPv6WildCard : List Char → Option (BitVec 128 × BitVec 128 × Nat)

namespace Network

variable (net : Network)

def getWildCardSpec (name : List Char) : Option Spec :=
  if ':' ∈ name then do
    let (ip, mask, level) ← net.parseIPv6WildCard name
    return { hostid := .inet6 ip, hostmask := .inet6 mask, level }
  else if '.' ∈ name then do
    let (ns, level) ← parseInetWildCard name
    return inetSpec ns level
  else
    none

def hostSpec : SockAddr → Spec
  | .inet a => { hostid := .inet a, hostmask := .inet (.allOnes 32), level := 0 }
  | .inet6 a => { hostid := .inet6 a, hostmask := .inet6 (.allOnes 128), level := 0 }

def resolve (name : List Char) : Except Int (List Spec) :=
  match net.getAddrInfo name with
  | none => .error (-ehostunreach)
  | some [] => .error (-ehostunreach)
  | some addrs => .ok (addrs.map hostSpec)

-- The specifications of a wildcard that could not be translated are left out.
def getAccessSpecs (name : List Char) : Except Int (List Spec) :=
  if name = ['*'] then
    .ok <| (net.getWildCardSpec ".*".toList).toList ++
      if net.ipv6 then (net.getWildCardSpec ":*".toList).toList else []
  else if '*' ∈ name then
    if name.idxOf '*' + 1 ≠ name.length then
      .error (-einval)
    else
      .ok (net.getWildCardSpec name).toList
  else if name.map Char.toLower = "localhost".toList then
    match net.myhost with
    | none => .error (-ehostdown)
    | some (myhostname, _) => net.resolve myhostname
  else
    net.resolve name

end Network

def Spec.Valid (s : Spec) : Prop :=
  match s.hostid, s.hostmask with
  | .inet _, .inet m => m = inetMask s.level
  | .inet6 _, .inet6 _ => True
  | _, _ => False

theorem Spec.Valid.eq_of_matches {s s' : Spec} (hv : s.Valid) (hv' : s'.Valid)
    (hl : s.level = s'.level)
    (hm : s.Matches (.inet a)) (hm' : s'.Matches (.inet a)) : s.hostid = s'.hostid := by
  rcases s with ⟨i | i, m | m, l⟩ <;> rcases s' with ⟨i' | i', m' | m', l'⟩ <;>
    simp only [Valid, Matches, SockAddr.Masked] at hv hv' hl hm hm'
  rw [← hm, ← hm', hv, hv', hl]

theorem Spec.Valid.matches_congr {s s' : Spec} (hv : s.Valid) (hv' : s'.Valid)
    (hi : s.hostid = s'.hostid) (hl : s.level = s'.level) :
    s.Matches (.inet a) ↔ s'.Matches (.inet a) := by
  rcases s with ⟨i | i, m | m, l⟩ <;> rcases s' with ⟨i' | i', m' | m', l'⟩ <;>
    simp only [Valid, Matches, SockAddr.Masked] at hv hv' hi hl ⊢
  · rw [hv, hv', hl, hi]
  · contradiction
  · contradiction

namespace Network

variable {net : Network}

theorem getWildCardSpec_valid (h : s ∈ net.getWildCardSpec name) : s.Valid := by
  simp only [getWildCardSpec, mem_def] at h
  split at h
  · simp only [bind_eq_bind, bind_eq_some_iff] at h
    obtain ⟨_, _, h⟩ := h
    cases h
    trivial
  · split at h
    · simp only [bind_eq_bind, bind_eq_some_iff] at h
      obtain ⟨_, _, h⟩ := h
      cases h
      rfl
    · contradiction

theorem hostSpec_valid : (hostSpec a).Valid := by
  cases a
  case inet => exact show BitVec.allOnes 32 = inetMask 0 by decide
  case inet6 => trivial

theorem resolve_valid (h : net.resolve name = .ok specs) : ∀ s ∈ specs, s.Valid := by
  unfold resolve at h
  split at h
  · contradiction
  · contradiction
  · cases h
    intro s hs
    obtain ⟨a, _, rfl⟩ := List.mem_map.mp hs
    exact hostSpec_valid

theorem getAccessSpecs_valid (h : net.getAccessSpecs name = .ok specs) : ∀ s ∈ specs, s.Valid := by
  unfold getAccessSpecs at h
  have hw : ∀ name, ∀ s ∈ (net.getWildCardSpec name).toList, s.Valid := fun _ _ hs =>
    getWildCardSpec_valid (mem_toList.mp hs)
  split at h
  case isTrue =>
    cases h
    intro s hs
    cases List.mem_append.mp hs
    case inl hs => exact hw _ s hs
    case inr hs =>
      split at hs
      · exact hw _ s hs
      · contradiction
  case isFalse =>
    split at h
    · split at h
      · contradiction
      · cases h
        exact hw name
    · split at h
      · split at h
        · contradiction
        · exact resolve_valid h
      · exact resolve_valid h

end Network

end Access
