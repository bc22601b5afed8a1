import Mathlib.Algebra.GroupWithZero.Nat
import Mathlib.Data.Prod.Lex

-- The main loop of pmlogextract, without a configuration file and a limit of samples.
namespace Extract

-- A time stamp that is not before the epoch, unlike a Timeval.
structure Stamp where
  sec : Nat
  usec : Nat
  deriving DecidableEq

namespace Stamp

def lex (t : Stamp) : Nat ×ₗ Nat :=
  toLex (t.sec, t.usec)

theorem lex_injective : Function.Injective lex := by
  intro ⟨_, _⟩ ⟨_, _⟩ h
  simpa [lex] using h

instance : LinearOrder Stamp :=
  .lift' lex lex_injective

theorem lt_iff {t : Stamp} : s < t ↔ s.sec < t.sec ∨ s.sec = t.sec ∧ s.usec < t.usec :=
  Prod.Lex.toLex_lt_toLex

theorem le_iff {t : Stamp} : s ≤ t ↔ s.sec < t.sec ∨ s.sec = t.sec ∧ s.usec ≤ t.usec :=
  Prod.Lex.toLex_le_toLex

end Stamp

def tvcmp (a b : Stamp) : Int :=
  if a.sec < b.sec then -1
  else if a.sec > b.sec then 1
  else if a.usec < b.usec then -1
  else if a.usec > b.usec then 1
  else 0

theorem tvcmp_neg : tvcmp a b < 0 ↔ a < b := by
  rw [tvcmp, Stamp.lt_iff]
  grind

theorem tvcmp_pos : tvcmp a b > 0 ↔ b < a := by
  rw [tvcmp, Stamp.lt_iff]
  grind

theorem tvcmp_le : tvcmp a b ≤ 0 ↔ a ≤ b := by
  rw [← not_lt (a := b), ← tvcmp_pos, not_lt]

variable {α : Type}

-- A data record. Marks of the input archives are data records without values.
structure Record (α : Type) where
  stamp : Stamp
  vset : α
  deriving DecidableEq

-- `log` is what has not been read yet, `pb` a mark that has been created, but not written.
structure Inarch (α : Type) where
  log : List (Record α)
  nresult : Option (Record α)
  pb : Option Stamp
  eof : Bool
  mark : Bool

-- What the data volume consists of. The time of a mark is the one that is read from it.
inductive Item (α : Type)
  | label
  | data (r : Record α)
  | mark (stamp : Stamp)
  deriving DecidableEq

-- An integer of 32 bits whose bytes are in the order of the host, as it is read from an archive.
def ntohl (n : Nat) : Nat :=
  n % 0x100 * 0x1000000 + n / 0x100 % 0x100 * 0x10000 + n / 0x10000 % 0x100 * 0x100 +
    n / 0x1000000 % 0x100

def Stamp.ntoh (t : Stamp) : Stamp :=
  ⟨ntohl t.sec, ntohl t.usec⟩

-- The time of a mark, which is one millisecond after the time of the last record.
def createmark (current : Stamp) : Stamp :=
  let usec := current.usec + 1000
  if usec > 1000000 then ⟨current.sec + 1, usec - 1000000⟩ else ⟨current.sec, usec⟩

namespace Inarch

variable (a : Inarch α)

-- Until the first record has been written, the end of an archive is not marked.
def next (first : Bool) (current winstart : Stamp) : Inarch α :=
  if a.eof then
    a
  else if a.nresult.isSome then
    a
  else if a.mark then
    { a with eof := true }
  else
    match a.log.dropWhile (fun r => tvcmp r.stamp winstart < 0) with
    | r :: log => { a with log, nresult := some r }
    | [] =>
      if first then
        { a with log := [], mark := true, eof := true }
      else
        { a with log := [], mark := true, pb := some (createmark current) }

def stamp? : Option Stamp :=
  match a.nresult with
  | some r => some r.stamp
  | none => a.pb

-- The time of a mark is taken for one in the order of the network.
def drop (winstart : Stamp) : Inarch α :=
  let a :=
    match a.nresult with
    | some r => if tvcmp r.stamp winstart < 0 then { a with nresult := none, pb := none } else a
    | none => a
  match a.pb with
  | some t => if tvcmp t.ntoh winstart < 0 then { a with pb := none } else a
  | none => a

end Inarch

structure State (α : Type) where
  inarch : List (Inarch α)
  rlready : List (Record α)
  current : Stamp
  winstart : Stamp
  winend : Stamp
  first : Bool
  labelled : Bool
  volume : List (Item α)

structure Choice where
  ilog : Option Nat
  curlog : Stamp

-- A time of zero stands for no time at all.
def checklogtime (c : Choice) (this : Stamp) (i : Nat) : Choice :=
  if c.curlog = ⟨0, 0⟩ ∨ tvcmp c.curlog this > 0 then ⟨some i, this⟩ else c

def choose : Nat → List (Inarch α) → Choice → Choice
  | _, [], c => c
  | i, a :: l, c =>
    choose (i + 1) l <|
      match a.stamp? with
      | some t => checklogtime c t i
      | none => c

def insertresult (r : Record α) : List (Record α) → List (Record α)
  | [] => [r]
  | x :: l => if tvcmp r.stamp x.stamp ≤ 0 then r :: x :: l else x :: insertresult r l

structure Options where
  warg : Bool
  logend : Stamp

inductive Window (α : Type)
  | within
  | moved (s : State α)
  | finished

inductive Step (α : Type)
  | next (s : State α)
  | stop (s : State α)
  | fatal

namespace State

-- __pmLogPutResult, which also writes the label if there is none.
def putResult (s : State α) (x : Item α) : State α :=
  { s with labelled := true, volume := s.volume ++ (if s.labelled then [] else [.label]) ++ [x] }

def writeResult (s : State α) (r : Record α) : State α :=
  let s :=
    if s.first then
      { s with first := false, labelled := true, volume := s.volume ++ [.label] }
    else
      s
  s.putResult (.data r)

def writerlist (mintime : Stamp) : List (Record α) → State α → State α
  | [], s => { s with rlready := [] }
  | r :: l, s =>
    if tvcmp r.stamp mintime > 0 then
      { s with rlready := r :: l }
    else
      writerlist mintime l (s.writeResult r)

def nextlog (s : State α) : State α :=
  { s with inarch := s.inarch.map (·.next s.first s.current s.winstart) }

def nextDay (t : Stamp) : Stamp :=
  { t with sec := t.sec + 86400 }

-- The mark between two windows is written as it is.
def checkwinend (opts : Options) (now : Stamp) (s : State α) : Window α :=
  if tvcmp now s.winend ≤ 0 then
    .within
  else if ¬opts.warg then
    .finished
  else
    let winstart := nextDay s.winstart
    if tvcmp winstart opts.logend > 0 then
      .finished
    else
      let s := { s with
        inarch := s.inarch.map (Inarch.drop · winstart)
        winstart := winstart
        winend := nextDay s.winend }
      .moved <| s.putResult (.mark (createmark s.current).ntoh)

def write (curlog : Stamp) (i : Nat) (a : Inarch α) (s : State α) : Step α :=
  if a.mark then
    match a.pb with
    | none => .fatal
    | some t =>
      let s := { s with inarch := s.inarch.set i { a with pb := none } }
      .next <| s.putResult (.mark t)
  else
    match a.nresult with
    | none => .fatal
    | some r =>
      let s := { s with inarch := s.inarch.set i { a with nresult := none } }
      .next <| writerlist curlog (insertresult r s.rlready) s

def step (opts : Options) (s : State α) : Step α :=
  let s := s.nextlog
  if s.inarch.all (·.eof) then
    .stop s
  else
    let c := choose 0 s.inarch ⟨none, ⟨0, 0⟩⟩
    if tvcmp c.curlog opts.logend > 0 then
      .stop s
    else
      match s.checkwinend opts c.curlog with
      | .finished => .stop s
      | .moved s => .next s
      | .within =>
        match c.ilog with
        | none => .fatal
        | some i =>
          match s.inarch[i]? with
          | none => .fatal
          | some a => write c.curlog i a { s with current := c.curlog }

-- The data volume at the end. Without a data record, there is no output archive.
def finish (s : State α) : List (Item α) :=
  if s.first then [] else s.volume

def loop (opts : Options) : Nat → State α → Option (List (Item α))
  | 0, _ => none
  | n + 1, s =>
    match s.step opts with
    | .next s => loop opts n s
    | .stop s => some s.finish
    | .fatal => none

end State

-- An input archive. Its end is the time of its last record.
structure Archive (α : Type) where
  log : List (Record α)
  ne : log ≠ []
  sorted : log.Pairwise (·.stamp ≤ ·.stamp)
  normal : ∀ r ∈ log, r.stamp.usec < 1000000

def Archive.last (a : Archive α) : Stamp :=
  (a.log.getLast a.ne).stamp

def logend (arch : List (Archive α)) : Stamp :=
  (arch.map Archive.last).foldl max ⟨0, 0⟩

def start (arch : List (Archive α)) (winstart winend : Stamp) : State α where
  inarch := arch.map fun a => ⟨a.log, none, none, false, false⟩
  rlready := []
  current := ⟨0, 0⟩
  winstart := winstart
  winend := winend
  first := true
  labelled := false
  volume := []

-- An iteration writes a record or a mark, or moves the window to the next day.
def iterations (arch : List (Archive α)) : Nat :=
  (arch.map (·.log.length + 1)).sum + (logend arch).sec / 86400 + 2

-- The option -w is ignored if the window is longer than a day.
def extract (warg : Bool) (winstart winend : Stamp) (arch : List (Archive α)) :
    Option (List (Item α)) :=
  let warg := warg && !(winstart.sec + 86400 < winend.sec)
  (start arch winstart winend).loop ⟨warg, logend arch⟩ (iterations arch)

end Extract
