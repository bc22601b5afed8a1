import Mathlib.Data.List.Basic

-- The codes and the time stamps that the parts of PCP share (pmapi.h).
namespace Pcp

def pmErrGeneric : Int :=
  -12345

def pmErrTimeout : Int :=
  -12345 - 8

def pmErrNodata : Int :=
  -12345 - 9

def pmErrName : Int :=
  -12345 - 12

def pmErrPmid : Int :=
  -12345 - 13

def pmErrIndom : Int :=
  -12345 - 14

def pmErrInst : Int :=
  -12345 - 15

def pmErrUnit : Int :=
  -12345 - 16

def pmErrConv : Int :=
  -12345 - 17

def pmErrTrunc : Int :=
  -12345 - 18

def pmErrSign : Int :=
  -12345 - 19

def pmErrIpc : Int :=
  -12345 - 21

def pmErrEol : Int :=
  -12345 - 25

def pmErrLabel : Int :=
  -12345 - 27

def pmErrLogrec : Int :=
  -12345 - 28

def pmErrNocontext : Int :=
  -12345 - 31

def pmErrProfilespec : Int :=
  -12345 - 32

def pmErrPmidLog : Int :=
  -12345 - 33

def pmErrNoagent : Int :=
  -12345 - 41

def pmErrPermission : Int :=
  -12345 - 42

def pmErrConnlimit : Int :=
  -12345 - 43

def pmErrAgain : Int :=
  -12345 - 44

def pmErrNonleaf : Int :=
  -12345 - 49

def pmErrType : Int :=
  -12345 - 52

def pmErrToosmall : Int :=
  -12345 - 98

def pmErrToobig : Int :=
  -12345 - 99

def pmErrPmdaready : Int :=
  -12345 - 1048

def pmErrPmdanotready : Int :=
  -12345 - 1049

def pmIdNull : Nat :=
  0xffffffff

def pmIndomNull : Nat :=
  0xffffffff

-- PM_IN_NULL as an `int`.
def pmInNull : Int :=
  -1

structure Timeval where
  sec : Int
  usec : Int
  deriving DecidableEq

namespace Timeval

def total (t : Timeval) : Int :=
  t.sec * 1000000 + t.usec

def Normal (t : Timeval) : Prop :=
  0 ≤ t.usec ∧ t.usec < 1000000

instance {t : Timeval} : Decidable t.Normal :=
  inferInstanceAs (Decidable (_ ∧ _))

end Timeval

end Pcp
