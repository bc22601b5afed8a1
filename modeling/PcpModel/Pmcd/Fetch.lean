import PcpModel.Library.Run
import PcpModel.Pmcd.Split
import PcpModel.Pmcd.Wait

-- A fetch is split by agents, and the results of the agents are merged (dofetch.c).
namespace Pmcd.Fetch

open Loop List Pcp

-- The values themselves are passed on as they are.
structure ValueSet where
  pmid : Nat
  numval : Int

abbrev Result := List ValueSet

inductive Reply
  | result (sts : Int) (res : Result)
  | error (s sts : Int)
  | other (sts : Int)

-- What the agents do with a request. The result of a DSO is `none` if it is NULL.
structure Agents where
  isDso : Nat → Bool
  sent : Nat → Int × Option Result
  reply : Nat → Reply

def makeBadResult (list : List Nat) (sts : Int) : Result :=
  list.map fun pmid => { pmid, numval := sts }

-- There is no result yet if the reply of the agent is to be waited for.
def sendFetch (agents : Agents) (list : List Nat) (i : Nat) : Option Result :=
  let (sts, result) := agents.sent i
  if agents.isDso i then
    match result with
    | some res => some (if sts < 0 ∨ res.length ≠ list.length then makeBadResult list 0 else res)
    | none => some (makeBadResult list 0)
  else
    if sts < 0 then some (makeBadResult list sts) else none

-- The entry for an agent, or the last one.
def findList (dList : List (Int × List Nat)) (domain : Int) : Option (List Nat) :=
  (dList.find? fun l => l.1 = -1 ∨ l.1 = domain).map (·.2)

def sendAll (cfg : Config) (agents : Agents) :
    List (Int × List Nat) → List (Option Result) → List Nat → Option (List (Option Result) × Wait)
  | [], _, _ => none
  | (domain, list) :: dList, results, busy => do
    if domain = -1 then
      let bad := some (makeBadResult list pmErrNoagent)
      let results ← if list.length ≠ 0 then write results cfg.nAgents bad else some results
      some (results, { busy, ready := [] })
    else
      let j := cfg.mapdom domain.toNat
      let result := sendFetch agents list j
      let results ← write results j result
      sendAll cfg agents dList results (if result.isNone then busy ++ [j] else busy)

def replyStatus (aFreq : List Nat) (i : Nat) : Reply → Option Int
  | .result sts res => do
    if sts ≥ 0 then
      some (if res.length ≠ (← aFreq[i]?) then pmErrIpc else sts)
    else
      some sts
  | .error s sts => some (if s < 0 then s else if sts ≥ 0 then pmErrGeneric else sts)
  | .other sts => some (if sts ≥ 0 then pmErrIpc else sts)

structure Request where
  cfg : Config
  agents : Agents
  aFreq : List Nat
  dList : List (Int × List Nat)

structure State where
  results : List (Option Result)
  wait : Wait
  down : Bool

namespace Request

variable (req : Request)

def failAgent (results : List (Option Result)) (i : Nat) (sts : Int) :
    Option (List (Option Result)) := do
  write results i (some (makeBadResult (← findList req.dList (req.cfg.pmDomainId i)) sts))

def readReply (results : List (Option Result)) (i : Nat) : Option (List (Option Result)) := do
  let sts ← replyStatus req.aFreq i (req.agents.reply i)
  if sts < 0 then
    req.failAgent results i (if sts = pmErrPmdanotready then pmErrAgain else sts)
  else
    match req.agents.reply i with
    | .result _ res => write results i (some res)
    | _ => none

def expireAgent (busy : List Nat) (results : List (Option Result)) (i : Nat) :
    Option (List (Option Result)) :=
  if i ∈ busy then req.failAgent results i pmErrNoagent else some results

-- An event that does not fit does not occur.
def step (s : State) (e : Event) : Option State := do
  if s.down ∨ ¬s.wait.Fits e then
    some s
  else
    match e with
    | .select sts fds =>
      if sts = 0 then
        let results ←
          (List.range req.cfg.nAgents).foldlM (req.expireAgent s.wait.busy) s.results
        some { s with results, wait := { busy := [], ready := [] } }
      else if sts < 0 then
        some { s with down := true }
      else
        some { s with wait := s.wait.select req.cfg.nAgents fds }
    | .reply =>
      let i ← s.wait.next
      let results ← req.readReply s.results i
      some { s with results, wait := s.wait.read i }

end Request

-- The elements of `resIndex` are the numbers of the value sets that have been taken from the
-- results.
structure Merge where
  endResult : List (Option ValueSet)
  i : Nat
  resIndex : List Nat

def mergeNext (cfg : Config) (results : List (Option Result)) (m : Merge) (pmid : Nat) :
    Option Merge := do
  let j := cfg.agentOf pmid
  let res ← (← results[j]?)
  let k ← m.resIndex[j]?
  let v ← res[k]?
  let resIndex ← write m.resIndex j (k + 1)
  let endResult ← write m.endResult m.i (some v)
  some { endResult, i := m.i + 1, resIndex }

-- The static variables of DoFetch, and those of SplitPmidList.
structure Statics where
  split : Split
  results : List (Option Result)
  resIndex : List Nat
  nDoms : Nat
  endResult : List (Option ValueSet)

namespace Statics

def init : Statics where
  split := .init
  results := []
  resIndex := []
  nDoms := 0
  endResult := []

def allocate (st : Statics) (nAgents : Nat) : Statics :=
  if nAgents > st.nDoms then
    { st with
      results := .replicate (nAgents + 1) none
      resIndex := .replicate (nAgents + 1) 0
      nDoms := nAgents
    }
  else
    st

def allocateResult (st : Statics) (nPmids : Nat) : Statics :=
  if nPmids > st.endResult.length then { st with endResult := .replicate nPmids none } else st

end Statics

-- A call is refused if it can not be decoded or if there is no profile for its context.
structure Call where
  cfg : Config
  agents : Agents
  refused : Bool
  pmidList : List Nat
  events : List Event

def Works : Event → Prop
  | .select sts _ => 0 ≤ sts
  | .reply => True

-- Whatever has been there before, the other replies are read or select times out.
def Call.Ends (c : Call) : Prop :=
  (∀ e ∈ c.events, Works e) ∧
    ∃ es, c.events = es ++ (replicate c.cfg.nAgents .reply ++ [.select 0 []])

structure Response where
  lists : List (Int × List Nat)
  vset : Option (List (Option ValueSet))

def finish (st : Statics) (c : Call) (split : Split) (lists : List (Int × List Nat)) (s : State) :
    Option (Statics × Option Response) := do
  if s.down ∨ s.wait.busy ≠ [] then
    some ({ st with split, results := s.results }, some { lists, vset := none })
  else
    let resIndex ← fill st.resIndex (c.cfg.nAgents + 1) 0
    let m ← c.pmidList.foldlM (mergeNext c.cfg s.results)
      { endResult := st.endResult, i := 0, resIndex }
    some ({ st with split, results := s.results, resIndex := m.resIndex, endResult := m.endResult },
      some { lists, vset := some (m.endResult.take c.pmidList.length) })

def doFetch (st : Statics) (c : Call) : Option (Statics × Option Response) := do
  let st := st.allocate c.cfg.nAgents
  let results ← fill st.results (c.cfg.nAgents + 1) none
  if c.refused then
    some ({ st with results }, none)
  else
    let st := st.allocateResult c.pmidList.length
    let (split, b) ← Split.splitPmidList c.cfg st.split c.pmidList
    let (results, wait) ← sendAll c.cfg c.agents b.lists results []
    let req := { cfg := c.cfg, agents := c.agents, aFreq := split.aFreq, dList := b.lists }
    let s ← Run.exec (Request.step req) { results, wait, down := false } c.events
    finish st c split b.lists s

def Agents.InOrder (agents : Agents) (cfg : Config) (pmidList : List Nat) : Prop :=
  ∀ i sts res, (agents.sent i = (sts, some res) ∨ agents.reply i = .result sts res) →
    res.length = (cfg.metrics pmidList i).length →
      res.map ValueSet.pmid = cfg.metrics pmidList i

section

variable {cfg : Config} {pmidList : List Nat} {results : List (Option Result)}

theorem map_makeBadResult (list : List Nat) (sts : Int) :
    (makeBadResult list sts).map ValueSet.pmid = list := by
  simp [makeBadResult, Function.comp_def]

theorem mapdom_used (h : i ∈ cfg.used pmidList) : cfg.mapdom (cfg.pmDomainId i) = i := by
  obtain ⟨hl, hm⟩ := Config.mem_used.mp h
  obtain ⟨pmid, hp⟩ := exists_mem_of_ne_nil _ hm
  obtain rfl := of_decide_eq_true (mem_filter.mp hp).right
  exact congrArg cfg.mapdom (cfg.mapdom_domain _ hl)

theorem domainOf_used (h : i ∈ cfg.used pmidList) : cfg.domainOf i = cfg.pmDomainId i :=
  if_neg (Nat.ne_of_lt (Config.mem_used.mp h).left)

theorem findList_used (h : i ∈ cfg.used pmidList) :
    findList (cfg.parts pmidList) (cfg.pmDomainId i) = some (cfg.metrics pmidList i) := by
  have hf : (cfg.used pmidList).find? (fun k => cfg.domainOf k = -1 ∨
      cfg.domainOf k = cfg.pmDomainId i) = some i := by
    have hs : ((cfg.used pmidList).find? (fun k => cfg.domainOf k = -1 ∨
        cfg.domainOf k = cfg.pmDomainId i)).isSome :=
      find?_isSome.mpr ⟨i, h, by simp [domainOf_used h]⟩
    obtain ⟨k, hk⟩ := Option.isSome_iff_exists.mp hs
    have hu := mem_of_find?_eq_some hk
    have hd := find?_some hk
    simp only [domainOf_used hu, decide_eq_true_eq] at hd
    have : k = i := by
      rw [← mapdom_used hu, ← mapdom_used h]
      congr 1
      omega
    exact this ▸ hk
  rw [findList, Config.parts, find?_map, Config.owners, find?_append]
  simp only [Function.comp_def, hf]
  rfl

def Held (cfg : Config) (pmidList : List Nat) (results : List (Option Result)) (i : Nat) : Prop :=
  ∃ res, results[i]? = some (some res) ∧ res.map ValueSet.pmid = cfg.metrics pmidList i

theorem Held.set_ne (r : Option Result) (h : Held cfg pmidList results k) (hn : k ≠ i) :
    Held cfg pmidList (results.set i r) k := by
  obtain ⟨res, hk, hp⟩ := h
  exact ⟨res, by rw [getElem?_set_ne hn.symm, hk], hp⟩

theorem Held.set (res : Result) (hi : i < results.length)
    (hr : res.map ValueSet.pmid = cfg.metrics pmidList i)
    (h : Held cfg pmidList results k ∨ k = i) :
    Held cfg pmidList (results.set i (some res)) k := by
  by_cases he : k = i
  · exact ⟨res, by simp [he, hi], he ▸ hr⟩
  · exact (h.resolve_right he).set_ne _ he

theorem sendFetch_held (h : agents.InOrder cfg pmidList)
    (hs : sendFetch agents (cfg.metrics pmidList i) i = some res) :
    res.map ValueSet.pmid = cfg.metrics pmidList i := by
  unfold sendFetch at hs
  have := h i (agents.sent i).1
  grind [map_makeBadResult]

theorem sendAll_eq (h : agents.InOrder cfg pmidList) (hl : cfg.nAgents < results.length)
    (hu : ∀ i ∈ us, i ∈ cfg.used pmidList) (hd : us.Nodup) (busy : List Nat) :
    ∃ results', sendAll cfg agents ((us ++ [cfg.nAgents]).map fun i =>
        (cfg.domainOf i, cfg.metrics pmidList i)) results busy = some (results',
          ⟨busy ++ us.filter fun i => (sendFetch agents (cfg.metrics pmidList i) i).isNone, []⟩) ∧
      results'.length = results.length ∧
      (∀ k, Held cfg pmidList results k → k ∉ us → Held cfg pmidList results' k) ∧
      (∀ k ∈ us, Held cfg pmidList results' k ∨
        sendFetch agents (cfg.metrics pmidList k) k = none) ∧
      (cfg.metrics pmidList cfg.nAgents ≠ [] → Held cfg pmidList results' cfg.nAgents) := by
  induction us generalizing results busy
  case nil =>
    by_cases hn : cfg.metrics pmidList cfg.nAgents = []
    · exact ⟨results, by simp [sendAll, Config.domainOf, hn], by simp [hn]⟩
    · have hs : ∀ k, Held cfg pmidList results k ∨ k = cfg.nAgents → _ := fun k =>
        Held.set (makeBadResult (cfg.metrics pmidList cfg.nAgents) pmErrNoagent) hl
          (map_makeBadResult ..)
      exact ⟨_, by simp [sendAll, Config.domainOf, hn, write_eq hl], by simp,
        fun k hk _ => hs k (.inl hk), by simp, fun _ => hs _ (.inr rfl)⟩
  case cons i us ih =>
    have hi := hu i (by simp)
    have hlt := (Config.mem_used.mp hi).left
    have hw : i < results.length := by omega
    have hm : cfg.mapdom (cfg.domainOf i).toNat = i := by
      rw [domainOf_used hi, Int.toNat_natCast, mapdom_used hi]
    have hn : cfg.domainOf i ≠ -1 := by
      rw [domainOf_used hi]
      omega
    obtain ⟨hni, hd⟩ := nodup_cons.mp hd
    obtain ⟨results', he, hl', hk, hs, hb⟩ := ih
      (show cfg.nAgents < (results.set i (sendFetch agents (cfg.metrics pmidList i) i)).length by
        simpa using hl) (fun k hk => hu k (mem_cons_of_mem i hk)) hd
      (if (sendFetch agents (cfg.metrics pmidList i) i).isNone then busy ++ [i] else busy)
    refine ⟨results', ?_, by simpa using hl', fun k hh hn => ?_, fun k hm => ?_, hb⟩
    · simp only [cons_append, map_cons, sendAll, if_neg hn, hm, write_eq hw]
      refine he.trans ?_
      by_cases hf : sendFetch agents (cfg.metrics pmidList i) i = none <;> simp [hf]
    · have hn := not_or.mp (mt mem_cons.mpr hn)
      exact hk k (hh.set_ne _ hn.left) hn.right
    · rcases mem_cons.mp hm with rfl | hm
      · cases hf : sendFetch agents (cfg.metrics pmidList k) k
        case none => exact .inr rfl
        case some res =>
          exact .inl <| hk k (hf ▸ Held.set res hw (sendFetch_held h hf) (.inr rfl)) hni
      · exact hs k hm

end

namespace Request

variable {req : Request} {pmidList : List Nat} {results : List (Option Result)}

structure For (req : Request) (pmidList : List Nat) : Prop where
  dList : req.dList = req.cfg.parts pmidList
  aFreq : ∀ i ≤ req.cfg.nAgents, req.aFreq[i]? = some (req.cfg.metrics pmidList i).length
  inOrder : req.agents.InOrder req.cfg pmidList

theorem For.failAgent (h : req.For pmidList) (hi : i ∈ req.cfg.used pmidList)
    (hl : i < results.length) (sts : Int) : req.failAgent results i sts =
      some (results.set i (some (makeBadResult (req.cfg.metrics pmidList i) sts))) := by
  simp [Request.failAgent, h.dList, findList_used hi, write_eq hl]

theorem For.replyStatus (h : req.For pmidList) (hi : i ≤ req.cfg.nAgents) (reply : Reply) :
    ∃ sts, replyStatus req.aFreq i reply = some sts ∧ (0 ≤ sts → ∃ sts' res,
      reply = .result sts' res ∧ res.length = (req.cfg.metrics pmidList i).length) := by
  cases reply
  case result sts res =>
    have ha := h.aFreq i hi
    by_cases hs : sts ≥ 0 <;> simp only [Fetch.replyStatus, hs, ha]
    · by_cases hr : res.length = (req.cfg.metrics pmidList i).length
      · exact ⟨_, rfl, fun _ => ⟨sts, res, rfl, hr⟩⟩
      · exact ⟨pmErrIpc, by simp [hr], fun h => absurd h (by decide)⟩
    · exact ⟨sts, rfl, fun h => absurd h hs⟩
  case error s sts =>
    refine ⟨_, rfl, fun h => absurd h ?_⟩
    have : pmErrGeneric < 0 := by decide
    grind
  case other sts =>
    refine ⟨_, rfl, fun h => absurd h ?_⟩
    have : pmErrIpc < 0 := by decide
    split <;> omega

theorem For.readReply (h : req.For pmidList) (hi : i ∈ req.cfg.used pmidList)
    (hl : i < results.length) : ∃ res, req.readReply results i = some (results.set i (some res)) ∧
      res.map ValueSet.pmid = req.cfg.metrics pmidList i := by
  obtain ⟨sts, hs, hr⟩ :=
    h.replyStatus (Nat.le_of_lt (Config.mem_used.mp hi).left) (req.agents.reply i)
  by_cases hn : sts < 0
  · exact ⟨_, by simp [Request.readReply, hs, hn, h.failAgent hi hl]; rfl, map_makeBadResult ..⟩
  · obtain ⟨sts', res, he, hm⟩ := hr (by omega)
    exact ⟨res, by simp [Request.readReply, he ▸ hs, hn, he, write_eq hl],
      h.inOrder i sts' res (.inr he) hm⟩

-- The result of each agent that has metrics in the list is there, or it is waited for.
structure Collecting (req : Request) (pmidList : List Nat) (n : Nat) (s : State) : Prop where
  bound : req.cfg.nAgents < n
  length : s.results.length = n
  wait : s.wait.Valid req.cfg.nAgents
  busy : ∀ i ∈ s.wait.busy, i ∈ req.cfg.used pmidList
  held : ∀ i ∈ req.cfg.owners pmidList, req.cfg.metrics pmidList i ≠ [] →
    Held req.cfg pmidList s.results i ∨ i ∈ s.wait.busy

theorem Collecting.lt_length (hc : req.Collecting pmidList n s) (hi : i < req.cfg.nAgents) :
    i < s.results.length :=
  hc.length ▸ Nat.lt_trans hi hc.bound

-- The agents before `i` are not waited for any more.
def Expired (req : Request) (pmidList : List Nat) (s : State) (i : Nat)
    (results : List (Option Result)) : Prop :=
  results.length = s.results.length ∧ ∀ k,
    Held req.cfg pmidList s.results k ∨ k ∈ s.wait.busy ∧ k < i → Held req.cfg pmidList results k

theorem For.expireAgent (h : req.For pmidList) (hc : req.Collecting pmidList n s)
    (hi : i < req.cfg.nAgents) (hx : req.Expired pmidList s i results) :
    ∃ results', req.expireAgent s.wait.busy results i = some results' ∧
      req.Expired pmidList s (i + 1) results' := by
  obtain ⟨hl, hk⟩ := hx
  by_cases hb : i ∈ s.wait.busy
  · have hlt : i < results.length := hl ▸ hc.lt_length hi
    have hf := h.failAgent (hc.busy i hb) hlt pmErrNoagent
    refine ⟨_, by rw [Request.expireAgent, if_pos hb, hf], by simpa using hl, fun k hh => ?_⟩
    refine Held.set _ hlt (map_makeBadResult ..) ?_
    by_cases he : k = i
    · exact .inr he
    · exact .inl (hk k (hh.imp_right fun ⟨hm, hn⟩ => ⟨hm, by omega⟩))
  · refine ⟨results, if_neg hb, hl, fun k hh => hk k ?_⟩
    refine hh.imp_right fun ⟨hm, hn⟩ => ⟨hm, ?_⟩
    have : k ≠ i := fun he => hb (he ▸ hm)
    omega

theorem For.expire (h : req.For pmidList) (hc : req.Collecting pmidList n s) :
    ∃ results', (range req.cfg.nAgents).foldlM (req.expireAgent s.wait.busy) s.results =
      some results' ∧
      req.Collecting pmidList n { s with results := results', wait := ⟨[], []⟩ } := by
  obtain ⟨results', he, hl, hk⟩ := range_invariant (I := req.Expired pmidList s)
    ⟨rfl, fun k hh => hh.resolve_right fun h => absurd h.right (Nat.not_lt_zero k)⟩
    fun i hi results => h.expireAgent hc hi
  refine ⟨results', he, hc.bound, hl.trans hc.length, ⟨by simp, by simp, by simp, by simp⟩, by simp,
    fun i ho hm => ?_⟩
  exact .inl (hk i ((hc.held i ho hm).imp_right fun hb => ⟨hb, hc.wait.bound i hb⟩))

theorem Collecting.read (hc : req.Collecting pmidList n s) (hn : s.wait.next = some i)
    (hr : res.map ValueSet.pmid = req.cfg.metrics pmidList i) :
    req.Collecting pmidList n
      { s with results := s.results.set i (some res), wait := s.wait.read i } where
  bound := hc.bound
  length := by simpa using hc.length
  wait := hc.wait.read hn
  busy := fun k hk => hc.busy k (mem_of_mem_erase hk)
  held := by
    intro k ho hm
    have hl := hc.lt_length (hc.wait.bound i (hc.wait.next hn))
    by_cases he : k = i
    · exact .inl (Held.set res hl hr (.inr he))
    · refine (hc.held k ho hm).imp (fun h => h.set_ne _ he) fun hb => ?_
      exact (Wait.mem_read_busy hc.wait).mpr ⟨he, hb⟩

theorem For.step (h : req.For pmidList) (hc : req.Collecting pmidList n s) (e : Event) :
    ∃ s', req.step s e = some s' ∧ req.Collecting pmidList n s' ∧
      (s.down = false → s.wait.Fits e → s'.down ∨ s'.wait.remaining < s.wait.remaining) := by
  unfold Request.step
  split
  case isTrue hn => exact ⟨s, rfl, hc, fun hd hf => absurd hn (by simp [hd, hf])⟩
  case isFalse hf =>
    have hf := not_not.mp (not_or.mp hf).right
    match e with
    | .select sts fds =>
      dsimp only
      split
      · obtain ⟨results', he, hx⟩ := h.expire hc
        refine ⟨_, by simp only [he]; rfl, hx, fun _ _ => .inr ?_⟩
        have := hf.right.left
        simp [Wait.remaining]
        omega
      · split
        · exact ⟨_, rfl, ⟨hc.bound, hc.length, hc.wait, hc.busy, hc.held⟩, fun _ _ => .inl rfl⟩
        · exact ⟨_, rfl, ⟨hc.bound, hc.length, hc.wait.select fds, hc.busy, hc.held⟩,
            fun _ _ => .inr (Wait.remaining_select hc.wait hf (by omega))⟩
    | .reply =>
      obtain ⟨i, hn⟩ := Option.isSome_iff_exists.mp hf
      have hb := hc.wait.next hn
      obtain ⟨res, hr, hm⟩ := h.readReply (hc.busy i hb) (hc.lt_length (hc.wait.bound i hb))
      exact ⟨_, by simp [hn, hr], hc.read hn hm, fun _ _ => .inr (Wait.remaining_read hc.wait hn)⟩

theorem step_down (hd : s.down = false) (hw : Works e) (hs : req.step s e = some s') :
    s'.down = false := by
  unfold Request.step at hs
  split at hs
  · cases hs
    exact hd
  · match e with
    | .select sts fds =>
      dsimp only at hs
      split at hs
      · obtain ⟨_, -, hs⟩ := Option.bind_eq_some_iff.mp hs
        cases hs
        exact hd
      · rw [if_neg (Int.not_lt.mpr hw)] at hs
        cases hs
        exact hd
    | .reply =>
      simp only [Option.bind_eq_bind, Option.bind_eq_some_iff] at hs
      obtain ⟨_, -, _, -, hs⟩ := hs
      cases hs
      exact hd

theorem For.exec (h : req.For pmidList) (hc : req.Collecting pmidList n s) (events : List Event) :
    ∃ s', Run.exec req.step s events = some s' ∧ req.Collecting pmidList n s' := by
  refine Run.exec_invariant (fun _ e h' _ => ?_) hc Run.guarded_true
  obtain ⟨s', hs, hc, -⟩ := h.step h' e
  exact ⟨s', hs, hc⟩

theorem step_select (hd : s.down = false) (hn : s.wait.next = none)
    (hs : req.step s (.select 0 []) = some s') : s'.wait.busy = [] := by
  by_cases hf : s.wait.Fits (.select 0 [])
  case pos =>
    simp only [Request.step, hd, hf, Bool.false_eq_true, not_true, or_self, if_false, if_true] at hs
    obtain ⟨_, -, hs⟩ := Option.bind_eq_some_iff.mp hs
    cases hs
    rfl
  case neg =>
    simp only [Request.step, hf, not_false_eq_true, or_true, if_true] at hs
    cases hs
    simp only [Wait.Fits, Wait.next] at hf hn
    cases hr : s.wait.ready
    case nil =>
      rcases hb : s.wait.busy with _ | ⟨i, _ | _⟩
      · rfl
      · simp [hr, hb] at hn
      · simp [hr, hb] at hf
    case cons => simp [hr] at hn

theorem step_reply (hc : req.Collecting pmidList n s) (hd : s.down = false)
    (hs : req.step s .reply = some s') : (s' = s ∧ s.wait.next = none) ∨
      (s'.wait.busy.length < s.wait.busy.length ∧ s.wait.next.isSome) := by
  by_cases hf : s.wait.Fits .reply
  case pos =>
    simp only [Request.step, hd, hf, Bool.false_eq_true, not_true, or_self, if_false,
      Option.bind_eq_bind, Option.bind_eq_some_iff] at hs
    obtain ⟨i, hn, _, -, hs⟩ := hs
    cases hs
    have hm := hc.wait.next hn
    have hl := length_pos_of_mem hm
    exact .inr ⟨by simp only [Wait.read, length_erase_of_mem hm]; omega, hf⟩
  case neg =>
    simp only [Request.step, hf, not_false_eq_true, or_true, if_true] at hs
    cases hs
    exact .inl ⟨rfl, Option.not_isSome_iff_eq_none.mp hf⟩

-- At the latest when select times out, nobody is waited for.
theorem For.exec_replies (h : req.For pmidList) (hc : req.Collecting pmidList n s)
    (hd : s.down = false) (hk : s.wait.busy.length ≤ k ∨ s.wait.next = none) :
    ∃ s', Run.exec req.step s (replicate k .reply ++ [.select 0 []]) = some s' ∧
      req.Collecting pmidList n s' ∧ s'.down = false ∧ s'.wait.busy = [] := by
  induction k generalizing s
  case zero =>
    obtain ⟨s', hs, hc', -⟩ := h.step hc (.select 0 [])
    have hw : Works (.select 0 []) := Int.le_refl 0
    have hn : s.wait.next = none := by
      refine hk.elim (fun hb => ?_) id
      have hb := eq_nil_of_length_eq_zero (Nat.le_zero.mp hb)
      cases hn : s.wait.next
      · rfl
      · exact absurd (hc.wait.next hn) (by simp [hb])
    exact ⟨s', by simp [Run.exec, hs], hc', step_down hd hw hs, step_select hd hn hs⟩
  case succ k hi =>
    obtain ⟨s', hs, hc', -⟩ := h.step hc .reply
    have hk' : s'.wait.busy.length ≤ k ∨ s'.wait.next = none := by
      obtain ⟨rfl, hn⟩ | ⟨hl, hn⟩ := step_reply hc hd hs
      · exact .inr hn
      · refine .inl (hk.elim (fun _ => by omega) fun h => ?_)
        simp [h] at hn
    obtain ⟨s'', he, h'⟩ := hi hc' (step_down (e := .reply) hd trivial hs) hk'
    exact ⟨s'', by simp [replicate_succ, Run.exec, hs, he], h'⟩

theorem For.exec_ends (h : req.For pmidList) (hc : req.Collecting pmidList n s)
    (hd : s.down = false) (hw : ∀ e ∈ es, Works e) :
    ∃ s', Run.exec req.step s (es ++ (replicate req.cfg.nAgents .reply ++ [.select 0 []])) =
      some s' ∧ req.Collecting pmidList n s' ∧ s'.down = false ∧ s'.wait.busy = [] := by
  obtain ⟨s₁, he, hc₁, hd₁⟩ := Run.exec_invariant
    (P := fun s => req.Collecting pmidList n s ∧ s.down = false) (fun s e h' hw => by
      obtain ⟨s', hs, hc, -⟩ := h.step h'.left e
      exact ⟨s', hs, hc, step_down h'.right hw hs⟩) ⟨hc, hd⟩ (Run.guarded_of_forall hw)
  have hl : s₁.wait.busy.length ≤ req.cfg.nAgents := by
    have := hc₁.wait.busy.length_le_of_subset fun i hi => mem_range.mpr (hc₁.wait.bound i hi)
    simpa using this
  obtain ⟨s', he', h'⟩ := h.exec_replies hc₁ hd₁ (.inl hl)
  exact ⟨s', by rw [Run.exec_append, he]; exact he', h'⟩

end Request

section

variable {cfg : Config} {pmidList : List Nat} {results : List (Option Result)} {res : Result}

structure Merging (cfg : Config) (pmidList ys : List Nat) (m : Merge) : Prop where
  i : m.i = ys.length
  room : pmidList.length ≤ m.endResult.length
  resIndex : ∀ j ≤ cfg.nAgents, m.resIndex[j]? = some (cfg.metrics ys j).length
  merged : (m.endResult.take ys.length).map (Option.map ValueSet.pmid) = ys.map some

theorem Held.getElem (h : res.map ValueSet.pmid = cfg.metrics pmidList (cfg.agentOf y))
    (hp : pmidList = ys ++ y :: zs) :
    ∃ v, res[(cfg.metrics ys (cfg.agentOf y)).length]? = some v ∧ v.pmid = y := by
  have hm : (res.map ValueSet.pmid)[(cfg.metrics ys (cfg.agentOf y)).length]? = some y := by
    simp [h, hp, Config.metrics]
  rwa [getElem?_map, Option.map_eq_some_iff] at hm

theorem Merging.mergeNext (h : Merging cfg pmidList ys m)
    (hp : pmidList = ys ++ y :: zs) (hr : Held cfg pmidList results (cfg.agentOf y)) :
    ∃ m', mergeNext cfg results m y = some m' ∧ m'.resIndex.length = m.resIndex.length ∧
      m'.endResult.length = m.endResult.length ∧ Merging cfg pmidList (ys ++ [y]) m' := by
  obtain ⟨res, hj, hm⟩ := hr
  obtain ⟨v, hv, rfl⟩ := Held.getElem hm hp
  have hx := h.resIndex (cfg.agentOf v.pmid) (cfg.mapdom_le _)
  have hi := h.i
  have hlr := (List.getElem?_eq_some_iff.mp hx).choose
  have hle : m.i < m.endResult.length := by
    have := h.room
    simp only [hp, List.length_append, List.length_cons] at this
    omega
  refine ⟨⟨m.endResult.set m.i (some v), m.i + 1, m.resIndex.set (cfg.agentOf v.pmid)
    ((cfg.metrics ys (cfg.agentOf v.pmid)).length + 1)⟩,
    by simp [Fetch.mergeNext, hj, hx, hv, write_eq hlr, write_eq hle], by simp, by simp,
    by simp [hi], by simpa using h.room, fun j hn => ?_, ?_⟩
  · rw [Config.metrics_concat]
    have := h.resIndex j hn
    grind
  · have hs : (m.endResult.set m.i (some v))[ys.length]? = some (some v) := by
      rw [← hi, List.getElem?_set_self hle]
    have ht : (m.endResult.set m.i (some v)).take ys.length = m.endResult.take ys.length := by
      rw [← hi, List.take_set_of_le (Nat.le_refl _)]
    simp [List.take_add_one, hs, ht, h.merged]

theorem merge_eq
    (hr : ∀ pmid ∈ pmidList, Held cfg pmidList results (cfg.agentOf pmid))
    (hz : ∀ j ≤ cfg.nAgents, resIndex[j]? = some 0) (hl : pmidList.length ≤ st.length) :
    ∃ m, pmidList.foldlM (mergeNext cfg results) ⟨st, 0, resIndex⟩ = some m ∧
      m.resIndex.length = resIndex.length ∧
      (m.endResult.take pmidList.length).map (Option.map ValueSet.pmid) = pmidList.map some := by
  obtain ⟨m, hm, hx, hg⟩ := foldlM_invariant (s := ⟨st, 0, resIndex⟩)
    (I := fun ys m => m.resIndex.length = resIndex.length ∧ Merging cfg pmidList ys m)
    ⟨rfl, rfl, hl, hz, rfl⟩ fun ys y zs m hp ⟨hl, h⟩ => by
      obtain ⟨m', hm, hl', -, h'⟩ := h.mergeNext hp (hr y (by simp [hp]))
      exact ⟨m', hm, hl'.trans hl, h'⟩
  exact ⟨m, hm, hx, hg.merged⟩

end

namespace Statics

-- The arrays have an element for each agent, and one more.
structure Allocated (st : Statics) : Prop where
  split : st.split.Allocated
  results : 0 < st.nDoms → st.nDoms < st.results.length ∧ st.nDoms < st.resIndex.length

theorem init_allocated : init.Allocated :=
  ⟨Split.init_allocated, fun h => absurd h (Nat.lt_irrefl 0)⟩

theorem Allocated.allocate {st : Statics} (h : st.Allocated) (hn : 0 < nAgents) :
    (st.allocate nAgents).Allocated ∧ nAgents < (st.allocate nAgents).results.length ∧
      nAgents < (st.allocate nAgents).resIndex.length := by
  unfold Statics.allocate
  split
  · exact ⟨⟨h.split, by simp⟩, by simp, by simp⟩
  case isFalse hd =>
    have := h.results (by omega)
    exact ⟨h, by omega, by omega⟩

theorem Allocated.allocateResult {st : Statics} (h : st.Allocated) (n : Nat) :
    (st.allocateResult n).Allocated ∧ n ≤ (st.allocateResult n).endResult.length ∧
      (st.allocateResult n).results = st.results ∧
      (st.allocateResult n).resIndex = st.resIndex := by
  unfold Statics.allocateResult
  split
  · exact ⟨⟨h.split, h.results⟩, by simp, rfl, rfl⟩
  · exact ⟨h, by omega, rfl, rfl⟩

end Statics

theorem sendAll_collecting {req : Request} (h : req.For pmidList)
    (hl : req.cfg.nAgents < results.length) :
    ∃ results' wait, sendAll req.cfg req.agents (req.cfg.parts pmidList) results [] =
      some (results', wait) ∧ req.Collecting pmidList results.length ⟨results', wait, false⟩ := by
  have hd : (req.cfg.used pmidList).Nodup := nodup_range.filter _
  obtain ⟨results', he, hl', -, hu, hb⟩ := sendAll_eq h.inOrder hl (fun _ => id) hd []
  refine ⟨results', _, he, hl, hl', ⟨?_, by simp, ?_, by simp⟩, ?_, fun i ho hm => ?_⟩
  · intro i hi
    exact (Config.mem_used.mp (mem_filter.mp hi).left).left
  · exact hd.filter _
  · intro i hi
    exact (mem_filter.mp hi).left
  · rcases mem_append.mp ho with hi | hn
    · refine (hu i hi).imp_right fun hn => ?_
      exact mem_filter.mpr ⟨hi, by simp [hn]⟩
    · obtain rfl := mem_singleton.mp hn
      exact .inl (hb hm)

structure Response.Correct (r : Response) (c : Call) : Prop where
  lists : r.lists = c.cfg.parts c.pmidList
  vset : ∀ vset, r.vset = some vset →
    vset.map (Option.map ValueSet.pmid) = c.pmidList.map some
  sent : c.Ends → r.vset.isSome

theorem finish_eq (h : st.Allocated) (hs : split.Allocated)
    (hl : c.pmidList.length ≤ st.endResult.length) (hx : c.cfg.nAgents < st.resIndex.length)
    (hc : Request.Collecting ⟨c.cfg, agents, aFreq, dList⟩ c.pmidList st.results.length s)
    (he : c.Ends → s.down = false ∧ s.wait.busy = []) :
    ∃ st' r, finish st c split (c.cfg.parts c.pmidList) s = some (st', some r) ∧ st'.Allocated ∧
      r.Correct c := by
  by_cases hd : s.down ∨ s.wait.busy ≠ []
  · refine ⟨_, _, by rw [finish, if_pos hd], ⟨hs, ?_⟩, rfl, by simp, fun h => ?_⟩
    · simpa only [hc.length] using h.results
    · simp [he h] at hd
  · obtain ⟨resIndex, hf, hlx, hz⟩ := fill_eq hx 0
    have hb := not_not.mp (not_or.mp hd).right
    have hh : ∀ pmid ∈ c.pmidList, Held c.cfg c.pmidList s.results (c.cfg.agentOf pmid) := by
      intro pmid hm
      refine (hc.held _ (c.cfg.mem_owners_of_mem hm) ?_).resolve_right (by simp [hb])
      exact ne_nil_of_mem (mem_filter.mpr ⟨hm, by simp⟩)
    obtain ⟨m, hm, hlm, hr⟩ := merge_eq hh (fun j hj => hz j (Nat.lt_succ_of_le hj)) hl
    refine ⟨_, _, by simp [finish, if_neg hd, hf, hm]; exact ⟨rfl, rfl⟩, ⟨hs, ?_⟩, rfl, ?_, ?_⟩
    · simpa only [hc.length, hlm, hlx] using h.results
    · exact fun _ h => by simpa [← Option.some.inj h] using hr
    · exact fun _ => rfl

theorem doFetch_eq (h : st.Allocated) (c : Call)
    (ho : c.agents.InOrder c.cfg c.pmidList) :
    ∃ st' r, doFetch st c = some (st', r) ∧ st'.Allocated ∧
      (c.refused = false → ∃ r' ∈ r, r'.Correct c) := by
  obtain ⟨ha, hlr, hlx⟩ := h.allocate c.cfg.nAgents_pos
  obtain ⟨results, hf, hl, -⟩ := fill_eq hlr none
  by_cases hr : c.refused
  · refine ⟨{ st.allocate c.cfg.nAgents with results }, none, by simp [doFetch, hf, hr],
      ⟨ha.split, ?_⟩, by simp [hr]⟩
    simpa only [hl] using ha.results
  obtain ⟨ha, hle, hr', hx'⟩ := ha.allocateResult c.pmidList.length
  obtain ⟨split, b, hs, hsa, hsc, hb⟩ := Split.splitPmidList_eq ha.split c.cfg c.pmidList
  have hq : Request.For ⟨c.cfg, c.agents, split.aFreq, b.lists⟩ c.pmidList := ⟨hb, hsc, ho⟩
  obtain ⟨results', wait, he, hc₀⟩ := sendAll_collecting hq (hl ▸ hlr)
  obtain ⟨s, hg, hc⟩ := hq.exec hc₀ c.events
  have hends : c.Ends → s.down = false ∧ s.wait.busy = [] := by
    rintro ⟨hw, es, hes⟩
    obtain ⟨s', hg', -, h'⟩ := hq.exec_ends hc₀ rfl fun e he => hw e (hes ▸ mem_append_left _ he)
    rw [hes] at hg
    cases hg.symm.trans hg'
    exact h'
  obtain ⟨st', r, hfin, ha', h'⟩ := finish_eq ha hsa hle (hx' ▸ hlx) (hr' ▸ hl ▸ hc) hends
  refine ⟨st', r, ?_, ha', fun _ => ⟨r, rfl, h'⟩⟩
  rw [hb] at hg
  simp [doFetch, hf, hr, hs, hb, he, hg, hfin]

namespace Server

def serve (st : Statics) (c : Call) : Option Statics :=
  (doFetch st c).map (·.1)

theorem exec_correct (h : ∀ c ∈ calls, c.agents.InOrder c.cfg c.pmidList) :
    ∃ st, Run.exec serve .init calls = some st ∧
      (∀ c, c.agents.InOrder c.cfg c.pmidList → ∃ st' r, doFetch st c = some (st', r) ∧
        (c.refused = false → ∃ r' ∈ r, r'.Correct c)) ∧
      ∀ cfg pmid, ∃ b b', (Split.splitSingle cfg st.split pmid).map (·.2) = some b ∧
        (Split.splitGeneral cfg st.split [pmid]).map (·.2) = some b' ∧ b.lists = b'.lists := by
  have hg : Run.Guarded serve (fun _ c => c.agents.InOrder c.cfg c.pmidList) .init calls :=
    Run.guarded_of_forall h
  obtain ⟨st, hs, ha⟩ := Run.exec_invariant (fun st c ha ho => by
    obtain ⟨st', r, hd, ha', -⟩ := doFetch_eq ha c ho
    exact ⟨st', by simp [serve, hd], ha'⟩) Statics.init_allocated hg
  refine ⟨st, hs, fun c ho => ?_, fun cfg pmid => ?_⟩
  · obtain ⟨st', r, hd, -, hr⟩ := doFetch_eq ha c ho
    exact ⟨st', r, hd, hr⟩
  · obtain ⟨_, b, hb, -, -, hp⟩ := Split.splitSingle_eq ha.split cfg pmid
    obtain ⟨_, b', hb', -, -, hp'⟩ := Split.splitGeneral_eq ha.split cfg [pmid]
    exact ⟨b, b', by simp [hb], by simp [hb'], hp.trans hp'.symm⟩

def configOf (n : Nat) (hn : 0 < n) : Config where
  nAgents := n
  pmDomainId := id
  mapdom := fun d => min d n
  nAgents_pos := hn
  mapdom_le := fun _ => Nat.min_le_right ..
  mapdom_domain := fun d (h : min d n < n) => show min d n = d by omega

-- The first agent is a DSO and the second one is not. They return the metrics 0, 1 and 4194304.
def twoAgents : Agents where
  isDso := (· = 0)
  sent := fun i => (0, if i = 0 then some [⟨0, 1⟩, ⟨1, 1⟩] else none)
  reply := fun i => if i = 1 then .result 0 [⟨4194304, 1⟩] else .other 0

theorem twoAgents_inOrder (h₀ : cfg.metrics pmidList 0 = [0, 1])
    (h₁ : cfg.metrics pmidList 1 = [4194304]) : twoAgents.InOrder cfg pmidList := by
  intro i sts res h _
  simp only [twoAgents] at h
  rcases h with h | h
  · split at h
    case isTrue hi =>
      cases h
      simp [hi, h₀]
    case isFalse => cases h
  · split at h
    case isTrue hi =>
      cases h
      simp [hi, h₁]
    case isFalse => cases h

-- The metric 8388608 has an agent in the first request, which fails to reply, and none in the
-- second.
theorem exec_correct_two :
    let pmidList := [0, 4194304, 8388608, 1]
    let c : Call := ⟨configOf 2 (by decide), twoAgents, false, pmidList,
      [.reply, .reply, .select 0 []]⟩
    let c₀ : Call := ⟨configOf 3 (by decide), twoAgents, false, pmidList,
      [.select 1 [2], .reply, .reply]⟩
    ∃ st, Run.exec serve .init [c₀] = some st ∧
      ∃ st' r, doFetch st c = some (st', some r) ∧ r.Correct c ∧ r.vset.isSome := by
  intro pmidList c c₀
  have h₀ : ∀ c ∈ [c₀], c.agents.InOrder c.cfg c.pmidList :=
    forall_mem_singleton.mpr <| twoAgents_inOrder (by decide) (by decide)
  obtain ⟨st, hs, hc, -⟩ := exec_correct h₀
  obtain ⟨st', _, hd, hr⟩ := hc c (twoAgents_inOrder (by decide) (by decide))
  obtain ⟨r, ⟨⟩, hr'⟩ := hr rfl
  exact ⟨st, hs, st', r, hd, hr', hr'.sent ⟨by simp [c, Works], [], rfl⟩⟩

end Server

end Pmcd.Fetch
