import PcpModel.Library.Run
import PcpModel.Library.CInt
import PcpModel.Library.Linked

open Linked

-- The pool of PDU buffers of libpcp (pdubuf.c).
namespace PduBuf

def pduChunk : Int :=
  1024

-- A pointer to a `bufctl_t`. Cells are never freed, so they are numbered in order of allocation.
abbrev Ref := Nat

structure Bufctl where
  bcNext : Option Ref
  bcSize : Int
  bcPincnt : Int
  bcBuf : Int
  bcBufend : Int
  deriving DecidableEq, Inhabited

-- Addresses are values of `Int`, and `bcBuf` is the address of a buffer's first byte.
def Bufctl.Holds (b : Bufctl) (handle : Int) : Prop :=
  b.bcBuf ≤ handle ∧ handle < b.bcBufend

instance (b : Bufctl) (handle : Int) : Decidable (b.Holds handle) :=
  inferInstanceAs (Decidable (_ ∧ _))

-- The same test in terms of the size. Only `__pmUnpinPDUBuf` uses this one.
def Bufctl.Spans (b : Bufctl) (handle : Int) : Prop :=
  b.bcBuf ≤ handle ∧ handle < b.bcBuf + b.bcSize

instance (b : Bufctl) (handle : Int) : Decidable (b.Spans handle) :=
  inferInstanceAs (Decidable (_ ∧ _))

abbrev Cells := Ref → Bufctl

namespace Cells

def next (c : Cells) (r : Ref) : Option Ref :=
  (c r).bcNext

def setNext (c : Cells) (r : Ref) (o : Option Ref) : Cells :=
  Function.update c r { c r with bcNext := o }

def setPincnt (c : Cells) (r : Ref) (n : Int) : Cells :=
  Function.update c r { c r with bcPincnt := n }

end Cells

structure Pool where
  ctl : Cells
  nctl : Nat
  bufFree : Option Ref
  bufPin : Option Ref
  bufPinTail : Option Ref

namespace Pool

def init : Pool where
  ctl _ := default
  nctl := 0
  bufFree := none
  bufPin := none
  bufPinTail := none

-- The fuel covers every cell of the pool, so only a cyclic list exhausts it.
def find (p : Pool) (o : Option Ref) (found : Bufctl → Bool) : Option (Option Ref × Option Ref) :=
  search p.ctl.next (found <| p.ctl ·) (p.nctl + 1) none o

-- `prior->bc_next = r->bc_next`, unless `r` is the first cell of its list.
def unlink (ctl : Cells) (prior : Option Ref) (r : Ref) : Cells :=
  match prior with
  | none => ctl
  | some prior => ctl.setNext prior (ctl.next r)

-- Takes `r`, which follows `prior` in the free list, out of that list.
def unlinkFree (p : Pool) (prior : Option Ref) (r : Ref) : Pool where
  ctl := unlink p.ctl prior r
  nctl := p.nctl
  bufFree := if prior = none then p.ctl.next r else p.bufFree
  bufPin := p.bufPin
  bufPinTail := p.bufPinTail

-- Appends `r` to the list of pinned buffers.
def linkPin (p : Pool) (r : Ref) : Pool where
  ctl :=
    let ctl := p.ctl.setNext r none
    match p.bufPinTail with
    | none => ctl
    | some tail => ctl.setNext tail (some r)
  nctl := p.nctl
  bufFree := p.bufFree
  bufPin := p.bufPin <|> some r
  bufPinTail := some r

def unlinkPin (p : Pool) (prior : Option Ref) (r : Ref) : Pool where
  ctl := unlink p.ctl prior r
  nctl := p.nctl
  bufFree := p.bufFree
  bufPin := if prior = none then p.ctl.next r else p.bufPin
  bufPinTail := if p.bufPinTail = some r then prior else p.bufPinTail

def linkFree (p : Pool) (r : Ref) : Pool :=
  { p with ctl := p.ctl.setNext r p.bufFree, bufFree := some r }

def setPincnt (p : Pool) (r : Ref) (n : Int) : Pool :=
  { p with ctl := p.ctl.setPincnt r n }

end Pool

-- Undefined if the assertion on `handle` fails. The pin count is not bounded.
def pmPinPDUBuf (p : Pool) (handle : Int) : Option Pool :=
  if handle % 4 ≠ 0 then none else do
    let (prior, pcp) ← p.find p.bufFree (·.Holds handle)
    match pcp with
    | some r =>
      -- first pin for this buffer, move between lists
      return p.unlinkFree prior r |>.linkPin r |>.setPincnt r 1
    | none =>
      let (_, pcp) ← p.find p.bufPin (·.Holds handle)
      match pcp with
      | some r => return p.setPincnt r ((p.ctl r).bcPincnt + 1)
      | none => return p

-- Returns 0 if the handle does not point into a pinned buffer, and 1 otherwise.
def pmUnpinPDUBuf (p : Pool) (handle : Int) : Option (Pool × Int) :=
  if handle % 4 ≠ 0 then none else do
    let (prior, pcp) ← p.find p.bufPin (·.Spans handle)
    match pcp with
    | none => return (p, 0)
    | some r =>
      let p := p.setPincnt r ((p.ctl r).bcPincnt - 1)
      if (p.ctl r).bcPincnt = 0 then
        return (p.unlinkPin prior r |>.linkFree r, 1)
      else
        return (p, 1)

-- The size in bytes of the buffer that is allocated when no free buffer is large enough.
def newSize (need : Int) : Int :=
  CInt.int <| pduChunk * (1 + need.tdiv pduChunk)

-- Allocates a `bufctl_t` for the memory at address `mem` and makes it the first free buffer.
def Pool.alloc (p : Pool) (size mem : Int) : Pool where
  ctl := Function.update p.ctl p.nctl {
    bcNext := p.bufFree
    bcSize := size
    bcPincnt := 0
    bcBuf := mem
    bcBufend := mem + size
  }
  nctl := p.nctl + 1
  bufFree := some p.nctl
  bufPin := p.bufPin
  bufPinTail := p.bufPinTail

def Pool.fit (p : Pool) (need : Int) : Option (Option Ref) :=
  (p.find p.bufFree (need ≤ ·.bcSize)).map (·.snd)

-- `mem` is the address that `valloc` yields. Also returns the address of the buffer.
def pmFindPDUBuf (p : Pool) (need : Int) (mem : Option Int) : Option (Pool × Option Int) := do
  match ← p.fit need with
  | some r => return (← pmPinPDUBuf p (p.ctl r).bcBuf, some (p.ctl r).bcBuf)
  | none =>
    match mem with
    | none => return (p, none)
    | some mem => return (← pmPinPDUBuf (p.alloc (newSize need) mem) mem, some mem)

end PduBuf
