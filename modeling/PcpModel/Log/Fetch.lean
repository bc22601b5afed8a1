import PcpModel.Library.Double
import PcpModel.Log.Basic

namespace Log

-- Time stamps are in microseconds. Where only the sign of a difference matters, it is exact.

-- __pmTimevalSub
def timevalSub (a b : Int) : ℚ :=
  Double.rnd ((a / 1000000 - b / 1000000 : Int) +
    Double.rnd ((a % 1000000 - b % 1000000 : Int) / 1000000))

-- __pmLogTI
structure Ti where
  stamp : Int
  vol : Int
  log : Nat
  deriving DecidableEq

-- The parts of a context and of its __pmArchCtl that are used when the archive is not interpolated.
structure Context where
  mode : Mode
  origin : Int
  lcp : LogCtl
  ti : List Ti
  serial : Bool
  vol : Int
  offset : Nat

-- The error value of a value set takes the place of its values.
structure ValueSet (α : Type) where
  pmid : Nat
  vals : Except Int (List (Int × α))

-- A record without value sets is a mark.
structure Result (α : Type) where
  timestamp : Int
  vset : List (ValueSet α)

variable {α ρ : Type}

def Context.remember (ctx : Context) : Option Context := do
  let f ← ctx.lcp.mfp
  return { ctx with offset := f.pos, vol := ctx.lcp.curvol }

section SetTime

variable (ar : Archive)

def logPeek (lcp : LogCtl) (vol : Int) : LogCtl × Option (List UInt8) :=
  match ar.file vol with
  | none => (lcp, none)
  | some data =>
    let (seen, _, sts) := logChkLabel ar lcp.seen ⟨vol, data, 0⟩ vol
    ({ lcp with seen }, if sts < 0 then none else some data)

-- The size of the last volume is looked up for the first entry that refers to it.
def lastSize (lcp : LogCtl) (size : Option Nat) : LogCtl × Nat :=
  match size with
  | some size => (lcp, size)
  | none =>
    let (lcp, data) := logPeek ar lcp lcp.maxvol
    (lcp, (data.map (·.length)).getD 0)

-- The truncated check for the last volume.
def truncated (tip : Ti) (lcp : LogCtl) (size : Option Nat) : LogCtl × Option Nat × Bool :=
  if tip.vol = lcp.maxvol then
    let (lcp, size) := lastSize ar lcp size
    (lcp, some size, tip.log > size)
  else
    (lcp, size, false)

structure Search where
  lcp : LogCtl
  j : Nat
  toobig : Bool
  found : Bool

def searchTi (origin : Int) (lcp : LogCtl) (size : Option Nat) (i : Nat) : List Ti → Search
  | [] => ⟨lcp, i, false, false⟩
  | tip :: ti =>
    if tip.vol < lcp.minvol then
      searchTi origin lcp size (i + 1) ti
    else
      let (lcp, size, toobig) := truncated ar tip lcp size
      if toobig then ⟨lcp, i, true, false⟩
      else if tip.stamp - origin > 0 then ⟨lcp, i, false, false⟩
      else if tip.stamp - origin = 0 then ⟨lcp, i, false, true⟩
      else searchTi origin lcp size (i + 1) ti

-- The entries from `j` on, in the direction in which missing volumes are skipped.
def entries (mode : Mode) (j : Nat) (ti : List Ti) : List Ti :=
  match mode with
  | .forw => ti.drop j
  | .back => (ti.take (j + 1)).reverse

-- The entries of a volume that is missing are skipped.
def volSkip (lcp : LogCtl) (missing : Option Int) : List Ti → LogCtl × Option Ti
  | [] => (lcp, none)
  | tip :: ti =>
    if missing = some tip.vol then
      volSkip lcp missing ti
    else if lcp.minvol ≤ tip.vol ∧ tip.vol ≤ lcp.maxvol then
      let (lcp, sts) := logChangeVol ar lcp tip.vol
      if sts ≥ 0 then (lcp, some tip) else volSkip lcp (some tip.vol) ti
    else
      (lcp, none)

-- The stream is not moved if VolSkip does not find a volume.
def seekTi (ctx : Context) (mode : Mode) (j : Nat) : Option (Context × Bool) :=
  match volSkip ar ctx.lcp none (entries mode j ctx.ti) with
  | (lcp, none) => return ({ ctx with lcp }, false)
  | (lcp, some e) => do
    let f ← lcp.mfp
    return ({ ctx with lcp := { lcp with mfp := some (f.seekSet e.log) } }, true)

variable (codec : Codec ρ)

def backUp (ctx : Context) : Option Context := do
  let (lcp, _) ← logRead ar codec .back .next ctx.lcp
  return { ctx with lcp }

-- Uses the entry of the index that has been found.
def seekIndex (ctx : Context) (j : Nat) (toobig found : Bool) : Option Context :=
  if found then do
    let (ctx, ok) ← seekTi ar ctx ctx.mode j
    if ok then Context.remember { ctx with serial := ctx.mode ≠ .back } else return ctx
  else if j < 1 then do
    let (ctx, ok) ← seekTi ar ctx .forw 0
    if ok then ctx.remember else return ctx
  else if j = ctx.ti.length then do
    let (ctx, ok) ← seekTi ar ctx .back (ctx.ti.length - 1)
    if ok then Context.remember { ctx with serial := ctx.mode ≠ .back } else return ctx
  else do
    let hi ← ctx.ti[j]?
    let lo ← ctx.ti[j - 1]?
    if timevalSub hi.stamp ctx.origin ≤ timevalSub ctx.origin lo.stamp ∧ ¬toobig then
      let (ctx, ok) ← seekTi ar ctx ctx.mode j
      if ok then Context.remember { ctx with serial := ctx.mode ≠ .forw } else return ctx
    else
      let (ctx, ok) ← seekTi ar ctx ctx.mode (j - 1)
      if ok then
        match ctx.mode with
        | .forw => (← backUp ar codec ctx).remember
        | .back => Context.remember { ctx with serial := false }
      else
        return ctx

-- The index is not available or not useful.
def seekEnds (ctx : Context) : Option Context :=
  match ctx.mode with
  | .forw => do
    let (lcp, _) := logChangeVol ar ctx.lcp ctx.lcp.minvol
    let f ← lcp.mfp
    Context.remember { ctx with lcp := { lcp with mfp := some (f.seekSet labelSize) } }
  | .back => do
    let (lcp, _) := logChangeVol ar ctx.lcp ctx.lcp.maxvol
    let f ← lcp.mfp
    Context.remember { ctx with lcp := { lcp with mfp := some f.seekEnd } }

def logSetTime (ctx : Context) : Option Context :=
  if ctx.ti ≠ [] then
    let s := searchTi ar ctx.origin ctx.lcp none 0 ctx.ti
    seekIndex ar codec { ctx with lcp := s.lcp, serial := true } s.j s.toobig s.found
  else
    seekEnds ar ctx

end SetTime

structure Profile where
  lookupDesc : Nat → Except Int (Option Nat)
  inProfile : Nat → Int → Bool

def pmidDomain (pmid : Nat) : Nat :=
  pmid / 2 ^ 22 % 2 ^ 9

def pmidItem (pmid : Nat) : Nat :=
  pmid % 2 ^ 10

def dynamicPmid : Nat :=
  511

def checkAllDerived (pmidlist : List Nat) : Bool :=
  pmidlist.all fun pmid => pmidDomain pmid = dynamicPmid ∧ pmidItem pmid ≠ 0

-- Picks the metrics that are asked for, unless there is none of them in the record.
def cherryPick (pmidlist : List Nat) (r : Result α) : Option (Result α) :=
  let pick pmid := r.vset.find? (·.pmid = pmid)
  if (∀ pmid ∈ pmidlist, (pick pmid).isNone) ∧ ¬checkAllDerived pmidlist then
    none
  else
    some { r with vset := pmidlist.map fun pmid => (pick pmid).getD ⟨pmid, .ok []⟩ }

def filterSet (prof : Profile) (vset : ValueSet α) : Except Int (ValueSet α) :=
  match vset.vals with
  | .error _ | .ok [] => return vset
  | .ok vals => do
    match ← prof.lookupDesc vset.pmid with
    | none => return vset
    | some indom => return { vset with vals := .ok (vals.filter (prof.inProfile indom ·.1)) }

def filterProfile (prof : Profile) (r : Result α) : Except Int (Result α) := do
  return { r with vset := ← r.vset.mapM (filterSet prof) }

section Fetch

def Mode.flip : Mode → Mode
  | .forw => .back
  | .back => .forw

def Mode.Skips (mode : Mode) (origin stamp : Int) : Prop :=
  match mode with
  | .forw => stamp - origin < 0
  | .back => stamp - origin > 0

instance : Decidable (Mode.Skips mode origin stamp) :=
  match mode with
  | .forw | .back => inferInstanceAs (Decidable (_ < _))

variable (ar : Archive) (codec : Codec (Result α)) (mode : Mode) (origin : Int)

-- Reads in the other direction until the origin is passed.
def resync (lcp : LogCtl) : Nat → Option (LogCtl × Option (Result α))
  | 0 => none
  | n + 1 => do
    match ← logRead ar codec mode.flip .next lcp with
    | (lcp, .error _) => return (lcp, none)
    | (lcp, .ok r) =>
      if mode.Skips origin r.timestamp then return (lcp, none)
      else if r.timestamp - origin = 0 then return (lcp, some r)
      else resync lcp n

def scan (lcp : LogCtl) : Nat → Option (LogCtl × Except Int (Result α))
  | 0 => none
  | n + 1 => do
    match ← logRead ar codec mode .next lcp with
    | (lcp, .error sts) => return (lcp, .error sts)
    | (lcp, .ok r) =>
      if mode.Skips origin r.timestamp then scan lcp n else return (lcp, .ok r)

-- Makes sure that the search starts in the correct place. The record may already be found then.
def sync (ctx : Context) (n : Nat) : Option (LogCtl × Option (Result α)) :=
  if ctx.serial then some (ctx.lcp, none) else resync ar codec ctx.mode ctx.origin ctx.lcp n

def search (ctx : Context) (n : Nat) : Option (LogCtl × Except Int (Result α)) :=
  (sync ar codec ctx n).bind fun
    | (lcp, some r) => some (lcp, .ok r)
    | (lcp, none) => scan ar codec ctx.mode ctx.origin lcp n

variable (prof : Profile) (pmidlist : List Nat)

-- There is no result (`none`) if it would take more than `n` rounds.
def more (ctx : Context) : Nat → Option (Context × Except Int (Result α))
  | 0 => none
  | n + 1 => do
    let (lcp, res) ← search ar codec ctx n
    let ctx := { ctx with lcp, serial := true }
    match res with
    | .error sts => return (← ctx.remember, .error sts)
    | .ok r =>
      let ctx := { ctx with origin := r.timestamp }
      if r.vset.isEmpty then
        if pmidlist.isEmpty then return (← ctx.remember, .ok r) else more ctx n
      else if pmidlist.isEmpty then
        return (← ctx.remember, .ok r)
      else
        match cherryPick pmidlist r with
        | none => more ctx n
        | some newres => return (← ctx.remember, filterProfile prof newres)

def logFetch (ctx : Context) (n : Nat) : Option (Context × Except Int (Result α)) := do
  -- re-establish position
  let (lcp, _) := logChangeVol ar ctx.lcp ctx.vol
  let f ← lcp.mfp
  more ar codec prof pmidlist { ctx with lcp := { lcp with mfp := some (f.seekSet ctx.offset) } } n

def fetchMany (n : Nat) (ctx : Context) : Nat → Option (Context × List (Except Int (Result α)))
  | 0 => some (ctx, [])
  | k + 1 => do
    let (ctx, r) ← logFetch ar codec prof pmidlist ctx n
    let (ctx, rs) ← fetchMany n ctx k
    return (ctx, r :: rs)

end Fetch

end Log
