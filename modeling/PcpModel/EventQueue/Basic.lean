import Mathlib.Algebra.GroupWithZero.Nat

-- Event queues of PMDAs, for clients with access, without filters, and with a decoder that
-- succeeds.
namespace EventQueue

-- The serial number of an event stands for its address.
structure Event where
  serial : Nat
  size : Nat
  count : Int

def Event.used (e : Event) : Event :=
  { e with count := e.count - 1 }

-- `last` is where the next fetch of the client starts, or NULL.
structure Clientq where
  context : Nat
  active : Bool
  last : Option Nat
  missed : Int

-- `count` is the number of all events so far.
structure Queue where
  tailq : List Event
  qsize : Nat
  maxmemory : Nat
  numclients : Nat
  count : Nat
  clients : List Clientq

def Clientq.queueDrop (serial : Nat) (next : Option Nat) (c : Clientq) : Clientq :=
  if c.last = some serial then { c with last := next, missed := c.missed + 1 } else c

namespace Queue

-- Events are dropped from the head of the queue until there is enough space.
def queueDropBytes (bytes : Nat) (q : Queue) : List Event → Queue
  | [] => { q with tailq := [] }
  | e :: l =>
    if bytes ≤ q.maxmemory - q.qsize then { q with tailq := e :: l } else
      let next := l.head?.map (·.serial)
      let clients := q.clients.map fun c => if c.active then c.queueDrop e.serial next else c
      queueDropBytes bytes { q with qsize := q.qsize - e.size, clients } l

variable (q : Queue)

def append (bytes : Nat) : Queue :=
  let q :=
    if bytes > q.maxmemory then q else
      let q := queueDropBytes bytes q q.tailq
      if q.numclients = 0 then q else
        { q with
          tailq := q.tailq ++ [⟨q.count, bytes, q.numclients⟩]
          qsize := q.qsize + bytes }
  { q with count := q.count + 1 }

-- The use counts from an event on are decremented, and unused events are removed.
def release (last : Option Nat) : Queue :=
  match last with
  | none => q
  | some last =>
    let used := q.tailq.takeWhile (·.serial ≠ last)
    let rest := (q.tailq.dropWhile (·.serial ≠ last)).map Event.used
    let unused := rest.filter (·.count ≤ 0)
    { q with
      tailq := used ++ rest.filter (·.count > 0)
      qsize := q.qsize - (unused.map (·.size)).sum }

-- What a fetch returns: the events, and the number of events that have been missed.
structure Fetched where
  events : List Nat
  missed : Option Int

def setClient (context : Nat) (f : Clientq → Clientq) : Queue :=
  { q with clients := q.clients.map fun c => if c.context = context then f c else c }

def queueFetch (c : Clientq) : Queue × Fetched :=
  let q := if c.active then q else { q with numclients := q.numclients + 1 }
  let last := c.last.or (q.tailq.head?.map (·.serial))
  let events := match last with
    | none => []
    | some last => (q.tailq.dropWhile (·.serial ≠ last)).map (·.serial)
  let q := q.release last
  let missed := c.missed - 1
  (q.setClient c.context ({ · with active := true, last := none, missed := 0 }),
    ⟨events, if missed > 0 then some missed else none⟩)

def queueRecords (context : Nat) : Option (Queue × Fetched) :=
  (q.clients.find? (·.context = context)).map q.queueFetch

def newClient (context : Nat) : Queue :=
  if q.clients.any (·.context = context) then q
  else { q with clients := q.clients ++ [⟨context, false, none, 0⟩] }

def queueCleanup (c : Clientq) : Queue :=
  if c.active then
    let q := q.release c.last
    { q with numclients := q.numclients - 1 }
  else
    q

def endClient (context : Nat) : Queue :=
  match q.clients.find? (·.context = context) with
  | none => q
  | some c =>
    let q := q.queueCleanup c
    { q with clients := q.clients.filter (·.context ≠ context) }

def new (maxmemory : Nat) : Queue where
  tailq := []
  qsize := 0
  maxmemory := maxmemory
  numclients := 0
  count := 0
  clients := []

end Queue

end EventQueue
