import PcpModel.Library.CInt
import PcpModel.Pmapi.Header

-- Asynchronous events (AF.c). The alarms may come at any time.
namespace Pcp.Timeval

variable (a b : Timeval)

-- A sum of exactly one second of microseconds stays as it is.
def tadd : Timeval :=
  let usec := a.usec + b.usec
  if usec > 1000000 then ⟨a.sec + 1 + b.sec, usec - 1000000⟩ else ⟨a.sec + b.sec, usec⟩

def tsubReal : Timeval :=
  let usec := a.usec - b.usec
  if usec < 0 then ⟨a.sec - 1 - b.sec, usec + 1000000⟩ else ⟨a.sec - b.sec, usec⟩

def tsub : Timeval :=
  let t := a.tsubReal b
  if t.sec < 0 then ⟨0, 0⟩ else t

def tcmp : Int :=
  let res := CInt.int (a.sec - b.sec)
  if res = 0 then CInt.int (a.usec - b.usec) else res

end Pcp.Timeval

namespace AF

open Pcp

-- An event of the queue. What its callback does is given by the operations of a run.
structure Event where
  afid : Nat
  due : Timeval
  delta : Timeval
  deriving DecidableEq

def Event.OneShot (e : Event) : Prop :=
  e.delta.sec = 0 ∧ e.delta.usec = 0

instance : Decidable (Event.OneShot e) :=
  inferInstanceAs (Decidable (_ ∧ _))

inductive Note
  | registered (e : Event)
  | unregistered (afid : Nat)
  | called (e : Event) (now : Timeval) (others : List Event)
  | rescheduled (e : Event) (due now : Timeval)
  | finished (now : Timeval) (queue : List Event)

-- The event of a callback that runs is not in the queue. Callbacks may be nested.
structure State where
  root : List Event
  running : List Event
  afid : Nat
  trace : List Note

def start : State where
  root := []
  running := []
  afid := 0x8000
  trace := []

def enqueue (qp : Event) : List Event → List Event
  | [] => [qp]
  | tqp :: rest =>
    if qp.due.tcmp tqp.due ≥ 0 then tqp :: enqueue qp rest else qp :: tqp :: rest

-- The next time of an event. Times that are too far in the past are skipped.
def reschedule (delta now : Timeval) : Nat → Timeval → Option Timeval
  | 0, _ => none
  | n + 1, due =>
    if (((due.tadd delta).tsubReal now).tadd delta).sec ≥ 0 then
      some (due.tadd delta)
    else
      reschedule delta now n (due.tadd delta)

def fuel (now due : Timeval) : Nat :=
  (now.total - due.total).toNat + 1

-- An alarm is a sequence of `look` and `ret` that ends with a `look` that finds nothing to run.
inductive Op
  | register (now delta : Timeval)
  | unregister (afid : Nat)
  | look (now : Timeval)
  | ret (now : Timeval)

namespace State

variable (s : State)

-- __pmAFregister
def register (now delta : Timeval) : State :=
  let qp := ⟨s.afid + 1, now.tadd delta, delta⟩
  { s with root := enqueue qp s.root, afid := s.afid + 1, trace := .registered qp :: s.trace }

-- __pmAFunregister
def unregister (afid : Nat) : State :=
  { s with root := s.root.eraseP (·.afid = afid), trace := .unregistered afid :: s.trace }

-- The loop of onalarm as far as the callback.
def look (now : Timeval) : State :=
  match s.root with
  | [] => s
  | qp :: rest =>
    let tmp := qp.due.tsub now
    if tmp.sec = 0 ∧ tmp.usec ≤ 10000 then
      { s with root := rest, running := qp :: s.running, trace := .called qp now rest :: s.trace }
    else
      { s with trace := .finished now s.root :: s.trace }

-- The loop of onalarm from the callback on.
def ret (now : Timeval) : Option State :=
  match s.running with
  | [] => none
  | qp :: running =>
    if qp.OneShot then
      some { s with running }
    else do
      let due ← reschedule qp.delta now (fuel now qp.due) qp.due
      some { s with
        root := enqueue { qp with due } s.root
        trace := .rescheduled qp due now :: s.trace
        running }

def step : Op → Option State
  | .register now delta => s.register now delta
  | .unregister afid => s.unregister afid
  | .look now => s.look now
  | .ret now => s.ret now

end State

end AF
