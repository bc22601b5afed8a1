import PcpModel.Cache.Basic

-- Loading of a cache from its file (`load_cache`).
namespace Cache

open Pcp

def bufSize : Nat :=
  1024

def fgets (room : Nat) (cur : List UInt8) : List UInt8 → List (List UInt8)
  | [] => if cur = [] then [] else [cur]
  | b :: bs =>
    if b = 10 ∨ room = 1 then (cur ++ [b]) :: fgets (bufSize - 1) [] bs
    else fgets (room - 1) (cur ++ [b]) bs

def isSpace (b : UInt8) : Bool :=
  b = 32 ∨ 9 ≤ b ∧ b ≤ 13

def isDigit (b : UInt8) : Bool :=
  48 ≤ b ∧ b ≤ 57

def digit (b : UInt8) : Int :=
  b.toNat - 48

-- The conversion "%d" of `sscanf`, together with the rest of the input.
def scanInt (p : List UInt8) : Option (Int × List UInt8) :=
  let p := p.dropWhile isSpace
  let sign := if p.head? = some 45 then -1 else 1
  let p := if p.head? = some 43 ∨ p.head? = some 45 then p.tail else p
  let ds := p.takeWhile isDigit
  let n := ds.foldl (fun n d => n * 10 + digit d) 0
  if ds = [] then none
  else some (CInt.int <| max (-longMax - 1) <| min longMax (sign * n), p.drop ds.length)
where
  longMax : Int := 0x7fffffffffffffff

def hexDigit (b : UInt8) : Option Int :=
  if isDigit b then some (digit b)
  else if 97 ≤ b ∧ b ≤ 102 then some (b.toNat - 87)
  else if 65 ≤ b ∧ b ≤ 70 then some (b.toNat - 55)
  else none

def scanHex (p : List UInt8) : Option Int :=
  match p.dropWhile isSpace |>.take 2 with
  | [] => none
  | [a] => hexDigit a
  | a :: b :: _ =>
    if a = 43 then hexDigit b
    else if a = 45 then (hexDigit b).map (-·)
    else (hexDigit a).map fun x => (hexDigit b).elim x (16 * x + ·)

structure Record where
  inst : Nat
  stamp : Int
  key : List UInt8
  name : CStr

section Parse

-- The position `p` in the buffer is represented by the bytes that follow it.
variable (p : List UInt8)

def atEnd : Bool :=
  p.headD 0 = 0

def parseInt : Int × List UInt8 :=
  ((p.takeWhile isDigit).foldl (fun n d => CInt.int (n * 10 + digit d)) 0, p.dropWhile isDigit)

-- Converts pairs of digits. The variable `tmp` keeps its value if there are no digits.
def parseKey (tmp : Int) (p : List UInt8) : Nat → List UInt8
  | 0 => []
  | n + 1 =>
    let tmp := (scanHex (CStr.at p).bytes).getD tmp
    UInt8.ofNat (tmp % 256).toNat :: parseKey tmp (p.drop 2) n

-- The fields of a line. The two bytes that are skipped after a key may include the terminator.
-- A line that is legal so far says whether there is a key, even if there is no name then.
def parseLine (tmp : Int) : Option (Bool × Option Record) :=
  let p := p.dropWhile isSpace
  if atEnd p then none else
  let (inst, p) := parseInt p
  let p := p.dropWhile isSpace
  if inst < 0 ∨ atEnd p then none else
  let (stamp, p) := parseInt p
  let p := p.dropWhile isSpace
  if p.headD 0 = 91 then
    let p := p.tail
    let hex := p.takeWhile fun b => b ≠ 0 ∧ b ≠ 93
    if (p.drop hex.length).headD 0 ≠ 93 then none else
    let keylen := hex.length / 2
    let q := p.drop (2 * keylen + 2) |>.dropWhile isSpace
    some (true, if atEnd q then none else some ⟨inst.toNat, stamp, parseKey tmp p keylen, .at q⟩)
  else
    some (false, if atEnd p then none else some ⟨inst.toNat, stamp, [], .at p⟩)

end Parse

-- What is left in the buffer after the line and its terminator comes from earlier lines.
def readLine (buf line : List UInt8) : List UInt8 :=
  line ++ 0 :: buf.drop (line.length + 1)

def chomp (buf : List UInt8) : List UInt8 :=
  let i := buf.idxOf 10
  if i < (CStr.at buf).bytes.length then buf.set i 0 else buf

-- The lines up to the first one that is illegal. If there is such a line, the variable `key` is
-- freed, which is still that of the record before, unless the line has set it.
def parseLines (tmp : Int) (key : Bool) (buf : List UInt8) :
    List (List UInt8) → List Record × Option Bool
  | [] => ([], none)
  | line :: lines =>
    let buf := chomp (readLine buf line)
    match parseLine buf tmp with
    | none => ([], some key)
    | some (_, none) => ([], some false)
    | some (key, some r) =>
      let (rs, bad) := parseLines tmp key buf lines
      (r :: rs, bad)

-- The contents of the file or an error, and the initial values of local variables.
structure File where
  data : Except Int (List UInt8)
  buf : List UInt8
  tmp : Int

section Load

variable (h : Hdr)

-- An entry that is already in the cache is given the key and the stamp as well.
def loadRecord (r : Record) : Option (Hdr × Except Int Ref) := do
  match ← insertCache h r.name (some r.inst) with
  | (h, none, sts) => return (h, .error sts)
  | (h, some e, _) => return (h.edit e ({ · with key := r.key, stamp := r.stamp }), .ok e)

def loadRecords (h : Hdr) (e : Option Ref) : List Record → Option (Hdr × Except Int (Option Ref))
  | [] => some (h, .ok e)
  | r :: rs => do
    match ← loadRecord h r with
    | (h, .error sts) => return (h, .error sts)
    | (h, .ok e) => loadRecords h e rs

-- The first line, which sets the mode even if it is illegal.
def loadHeader (buf : List UInt8) : Hdr × Bool :=
  match scanInt (CStr.at buf).bytes with
  | none => (h, false)
  | some (x, p) =>
    match scanInt p with
    | none => (h, false)
    | some (insMode, _) => ({ h with insMode }, x = 1 ∧ 0 ≤ insMode ∧ insMode ≤ 1)

-- The records, the result, and whether the key of the last record is freed.
def File.records (f : File) (h : Hdr) : Hdr × List Record × Int × Bool :=
  match f.data with
  | .error err => (h, [], -err, false)
  | .ok data =>
    match fgets (bufSize - 1) [] data with
    | [] => (h, [], pmErrGeneric, false)
    | line :: lines =>
      let buf := readLine f.buf line
      match loadHeader h buf with
      | (h, false) => (h, [], pmErrGeneric, false)
      | (h, true) =>
        let (rs, bad) := parseLines f.tmp false buf lines
        (h, rs, if bad.isSome then pmErrGeneric else rs.length, bad.getD false)

-- The entry whose key has been freed is given as well. The pointer to it remains in the entry.
def loadCache (f : File) : Option (Hdr × Int × Option Ref) := do
  let (h, rs, sts, frees) := f.records h
  match ← loadRecords h none rs with
  | (h, .error sts) => return (h, sts, none)
  | (h, .ok e) => return (h, sts, if frees then e else none)

end Load

end Cache
