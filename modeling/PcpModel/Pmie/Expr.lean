import PcpModel.Library.Samples

-- The values of the nodes of an expression (dstruct.h, dstruct.c).
namespace Pmie

inductive Truth
  | FALSE
  | TRUE
  | DUNNO
  deriving DecidableEq, Repr

namespace Truth

-- The constants are small integers, and the operators of C work on these.
def toNat : Truth → Nat
  | FALSE => 0
  | TRUE => 1
  | DUNNO => 2

def ofBool : Bool → Truth
  | false => FALSE
  | true => TRUE

@[simp]
theorem ofBool_eq_true : ofBool b = TRUE ↔ b = true := by
  cases b <;> decide

end Truth

-- The instances of a metric of one host. There are no names for a singular metric.
structure Metric where
  mIdom : Int
  inames : Option (List String)
  deriving DecidableEq

-- The pointers of `smpls` are in the ring. `gen` tells one allocation of the ring from another.
structure Expr (ν : Type) where
  hdom : Int
  eIdom : Int
  tdom : Int
  metrics : List Metric
  valid : Nat
  ring : Samples ν
  gen : Nat
  stamps : List Int

namespace Expr

variable (x : Expr ν)

def tspan : Nat :=
  x.ring.width

def nsmpls : Nat :=
  x.ring.ptrs.length

def now : List ν :=
  x.ring.now

def before : List ν :=
  x.ring.all.getD 1 []

def stamp : Int :=
  x.stamps.headD 0

-- A stamp moves with its sample, but the newest sample keeps the one that it had.
def rotate : Expr ν :=
  if x.nsmpls > 1 then
    { x with ring := x.ring.rotate, stamps := x.stamps.head?.toList ++ x.stamps.dropLast }
  else
    x

def write (vs : List ν) : Expr ν :=
  { x with ring := x.ring.store vs }

-- Writes a sample that counts.
def put (vs : List ν) (stamp : Int) : Expr ν :=
  { x.write vs with stamps := x.stamps.set 0 stamp, valid := x.valid + 1 }

def invalid : Expr ν :=
  { x with valid := 0 }

def single (hdom eIdom : Int) (metrics : List Metric) (vs : List ν) : Expr ν where
  hdom := hdom
  eIdom := eIdom
  tdom := 1
  metrics := metrics
  valid := 1
  ring := .single vs
  gen := 0
  stamps := [0]

variable {x}

@[simp]
theorem rotate_tspan : x.rotate.tspan = x.tspan := by
  simp only [rotate]
  split <;> rfl

@[simp]
theorem now_length : x.now.length = x.tspan :=
  Samples.now_length

@[simp]
theorem single_now : (single h e ms vs).now = vs :=
  Samples.single_now

theorem put_now (h : vs.length = x.tspan) : (x.put vs t).now = vs :=
  Samples.store_now h

theorem put_now_of_lt (h : i < vs.length) (hi : i < x.tspan) :
    (x.put vs t).now[i]? = vs[i]? :=
  Samples.store_now_of_lt h hi

theorem put_now_of_le (h : vs.length ≤ i) : (x.put vs t).now[i]? = x.now[i]? :=
  Samples.store_now_of_le h

end Expr

end Pmie
