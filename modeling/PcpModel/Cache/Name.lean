import PcpModel.Library.CInt
import Mathlib.Data.List.TakeWhile

-- The cache of instances that a PMDA keeps for an instance domain (cache.c of libpcp_pmda).
namespace Cache

structure CStr where
  bytes : List UInt8
  noNul : 0 ∉ bytes
  deriving DecidableEq

-- The string that starts at a position in a buffer. Nothing is read after the end of the buffer.
def CStr.at (p : List UInt8) : CStr where
  bytes := p.takeWhile (· ≠ 0)
  noNul := fun h => by simpa using List.mem_takeWhile_imp h

-- The number of characters to the end of the string or to the first space.
def getHashlen (str : CStr) : Nat :=
  str.bytes.takeWhile (· ≠ 32) |>.length

def CStr.short (str : CStr) : List UInt8 :=
  str.bytes.take (getHashlen str)

-- Characters are signed.
def char (k : UInt8) : UInt32 :=
  k.toInt8.toInt32.toUInt32

def mix (a b c : UInt32) : UInt32 × UInt32 × UInt32 :=
  let a := (a - b - c) ^^^ (c >>> 13)
  let b := (b - c - a) ^^^ (a <<< 8)
  let c := (c - a - b) ^^^ (b >>> 13)
  let a := (a - b - c) ^^^ (c >>> 12)
  let b := (b - c - a) ^^^ (a <<< 16)
  let c := (c - a - b) ^^^ (b >>> 5)
  let a := (a - b - c) ^^^ (c >>> 3)
  let b := (b - c - a) ^^^ (a <<< 10)
  let c := (c - a - b) ^^^ (b >>> 15)
  (a, b, c)

def hash (k : List UInt8) (initval : UInt32) : UInt32 :=
  go k 0x9e3779b9 0x9e3779b9 initval
where
  word (k₀ k₁ k₂ k₃ : UInt8) : UInt32 :=
    char k₀ + (char k₁ <<< 8) + (char k₂ <<< 16) + (char k₃ <<< 24)
  go : List UInt8 → UInt32 → UInt32 → UInt32 → UInt32
    | k₀ :: k₁ :: k₂ :: k₃ :: k₄ :: k₅ :: k₆ :: k₇ :: k₈ :: k₉ :: k₁₀ :: k₁₁ :: ks, a, b, c =>
      let (a, b, c) := mix (a + word k₀ k₁ k₂ k₃) (b + word k₄ k₅ k₆ k₇) (c + word k₈ k₉ k₁₀ k₁₁)
      go ks a b c
    | ks, a, b, c =>
      -- There are at most 11 bytes left. Those that are missing add nothing.
      let a := a + word (ks.getD 0 0) (ks.getD 1 0) (ks.getD 2 0) (ks.getD 3 0)
      let b := b + word (ks.getD 4 0) (ks.getD 5 0) (ks.getD 6 0) (ks.getD 7 0)
      -- The first byte of `c` is reserved for the length.
      let c := c + k.length.toUInt32 + word 0 (ks.getD 8 0) (ks.getD 9 0) (ks.getD 10 0)
      (mix a b c).2.2

def hashStr (str : CStr) : Nat :=
  (hash str.short 0).toNat

end Cache
