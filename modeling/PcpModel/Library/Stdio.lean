import PcpModel.Library.CInt
import PcpModel.Library.Memory

-- Reading of files as in stdio.h, where no errors occur but at the end of the file.
namespace Stdio

def htonl (n : Int) : List UInt8 :=
  Memory.be (CInt.uint n).toNat

def ntohl (l : List UInt8) : Int :=
  let byte i := (l.getD i 0).toNat
  CInt.ofWord (0x1000000 * byte 0 + 0x10000 * byte 1 + 0x100 * byte 2 + byte 3)

@[simp]
theorem htonl_length : (htonl n).length = 4 :=
  rfl

theorem ntohl_htonl (hl : -0x80000000 ≤ n) (hu : n ≤ CInt.intMax) : ntohl (htonl n) = n := by
  simp only [ntohl, htonl, Memory.be, CInt.ofWord, CInt.uint, CInt.intMax, List.getD_cons_zero,
    List.getD_cons_succ, UInt8.toNat_ofNat'] at *
  omega

structure File (ι : Type*) where
  name : ι
  data : List UInt8
  pos : Nat

namespace File

variable {ι : Type*}

section Operations

variable (s : File ι)

-- There are less than `n` bytes at the end of the file.
def read (n : Nat) : List UInt8 × File ι :=
  let bytes := s.data.drop s.pos |>.take n
  (bytes, { s with pos := s.pos + bytes.length })

def seekSet (n : Nat) : File ι :=
  { s with pos := n }

-- The position does not change if the new one would lie before the start of the file.
def seekCur (d : Int) : File ι :=
  if 0 ≤ s.pos + d then { s with pos := (s.pos + d).toNat } else s

def seekEnd : File ι :=
  { s with pos := s.data.length }

end Operations

-- The bytes `p` lie before the position, and `q` behind it.
def between (name : ι) (p q : List UInt8) : File ι :=
  ⟨name, p ++ q, p.length⟩

section Between

variable {name : ι} {p q l : List UInt8}

@[simp]
theorem between_pos : (between name p q).pos = p.length :=
  rfl

theorem between_read (hn : l.length = n) :
    (between name p (l ++ q)).read n = (l, between name (p ++ l) q) := by
  subst hn
  simp [between, read]

theorem between_read_end : (between name p []).read n = ([], between name p []) := by
  simp [between, read]

theorem between_seekCur (hd : d = -(l.length : Int)) :
    (between name (p ++ l) q).seekCur d = between name p (l ++ q) := by
  subst hd
  simp [between, seekCur]

theorem between_seekEnd : (between name p q).seekEnd = between name (p ++ q) [] := by
  simp [between, seekEnd]

theorem between_seekSet (hn : n = p'.length) (h : p ++ q = p' ++ q') :
    (between name p q).seekSet n = between name p' q' := by
  simp [between, seekSet, hn, h]

theorem seekEnd_of_seekSet {s : File ι} (h : s.seekSet n = between name p []) :
    s.seekEnd = between name p [] := by
  simp only [seekSet, between, mk.injEq] at h
  simp [seekEnd, between, h]

end Between

end File

end Stdio
