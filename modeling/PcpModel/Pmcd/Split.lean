import Mathlib.Data.List.Nodup
import PcpModel.Library.Loop

-- The splitting of a list of metrics by the agents that are responsible for them (dofetch.c).
namespace Pmcd

open List

-- The field `domain` of a __pmID_int: nine bits above the twenty-two of `cluster` and `item`.
def domain (pmid : Nat) : Nat :=
  (pmid >>> 22) % 512

-- `mapdom` has been built from the table of agents.
structure Config where
  nAgents : Nat
  pmDomainId : Nat → Nat
  mapdom : Nat → Nat
  nAgents_pos : 0 < nAgents
  mapdom_le : ∀ d, mapdom d ≤ nAgents
  mapdom_domain : ∀ d, mapdom d < nAgents → pmDomainId (mapdom d) = d

namespace Config

-- The index of the agent for a metric, or `nAgents` if there is none.
def agentOf (cfg : Config) (pmid : Nat) : Nat :=
  cfg.mapdom (domain pmid)

end Config

-- The pmids of a list are those in a block that start at `list`.
structure DomPmidList where
  domain : Int
  listSize : Nat
  list : Nat

structure Block where
  result : List DomPmidList
  pmids : List Nat

-- The static variables of SplitPmidList, where the lengths of the arrays are what has been
-- allocated.
structure Split where
  aFreq : List Nat
  resIndex : List Nat
  nDoms : Nat

namespace Split

open Loop

variable (cfg : Config)

def init : Split :=
  ⟨[], [], 0⟩

def allocate (st : Split) (nAgents : Nat) : Split :=
  if nAgents > st.nDoms then
    { aFreq := .replicate (nAgents + 1) 0, resIndex := .replicate (nAgents + 1) 0,
      nDoms := nAgents }
  else
    st

def tally (aFreq : List Nat) (pmid : Nat) : Option (List Nat) := do
  write aFreq (cfg.agentOf pmid) ((← aFreq[cfg.agentOf pmid]?) + 1)

def tallyGood (aFreq : List Nat) (nGood i : Nat) : Option Nat := do
  some (if (← aFreq[i]?) ≠ 0 then nGood + 1 else nGood)

def indexAgent (aFreq : List Nat) (nGood : Nat) (s : List Nat × Nat) (i : Nat) :
    Option (List Nat × Nat) := do
  let (resIndex, j) := s
  if (← aFreq[i]?) ≠ 0 then
    some (← write resIndex i j, j + 1)
  else
    some (← write resIndex i nGood, j)

-- The arrays are indexed by the agents, and the number of the lists that are not bad is determined.
def index (aFreq resIndex pmidList : List Nat) : Option (List Nat × List Nat × Nat) := do
  let aFreq ← pmidList.foldlM (tally cfg) aFreq
  let nGood ← (List.range cfg.nAgents).foldlM (tallyGood aFreq) 0
  let (resIndex, _) ← (List.range cfg.nAgents).foldlM (indexAgent aFreq nGood) (resIndex, 0)
  let resIndex ← write resIndex cfg.nAgents nGood
  some (aFreq, resIndex, nGood)

-- The fast track for a single pmid.
def indexSingle (aFreq resIndex : List Nat) (pmid : Nat) : Option (List Nat × List Nat × Nat) := do
  let resIndex ← (List.range cfg.nAgents).foldlM (fun r i => write r i 1) resIndex
  let i := cfg.agentOf pmid
  let aFreq ← write aFreq i 1
  let resIndex ← write resIndex i 0
  some (aFreq, resIndex, if i = cfg.nAgents then 0 else 1)

def layoutAgent (aFreq resIndex : List Nat) (s : List DomPmidList × Nat) (i : Nat) :
    Option (List DomPmidList × Nat) := do
  let (result, resultPmids) := s
  let n ← aFreq[i]?
  if n ≠ 0 then
    let j ← resIndex[i]?
    let result ← write result j { domain := cfg.pmDomainId i, listSize := 0, list := resultPmids }
    some (result, resultPmids + n)
  else
    some (result, resultPmids)

-- The lists follow each other in the block. What is returned is where the last one ends.
def layout (aFreq resIndex : List Nat) (result : List DomPmidList) :
    Option (List DomPmidList × Nat) :=
  (List.range cfg.nAgents).foldlM (layoutAgent cfg aFreq resIndex) (result, 0)

def layoutSingle (resIndex : List Nat) (nGood pmid : Nat) (result : List DomPmidList) :
    Option (List DomPmidList × Nat) := do
  if nGood ≠ 0 then
    let i := cfg.agentOf pmid
    let j ← resIndex[i]?
    let result ← write result j { domain := cfg.pmDomainId i, listSize := 0, list := 0 }
    some (result, 1)
  else
    some (result, 0)

def place (resIndex : List Nat) (b : Block) (pmid : Nat) : Option Block := do
  let j ← resIndex[cfg.agentOf pmid]?
  let h ← b.result[j]?
  let pmids ← write b.pmids (h.list + h.listSize) pmid
  let result ← write b.result j { h with listSize := h.listSize + 1 }
  some { result, pmids }

-- The block that is allocated last is used again when it is large enough.
def placeAll (resIndex : List Nat) (nGood resultPmids : Nat) (result : List DomPmidList)
    (pmidList : List Nat) : Option Block := do
  let result ← write result nGood { domain := -1, listSize := 0, list := resultPmids }
  pmidList.foldlM (place cfg resIndex) { result, pmids := .replicate pmidList.length 0 }

def emptyResult (nGood : Nat) : List DomPmidList :=
  .replicate (nGood + 1) { domain := 0, listSize := 0, list := 0 }

def splitGeneral (st : Split) (pmidList : List Nat) : Option (Split × Block) := do
  let st := st.allocate cfg.nAgents
  let aFreq ← fill st.aFreq (cfg.nAgents + 1) 0
  let (aFreq, resIndex, nGood) ← index cfg aFreq st.resIndex pmidList
  let (result, resultPmids) ← layout cfg aFreq resIndex (emptyResult nGood)
  let b ← placeAll cfg resIndex nGood resultPmids result pmidList
  some ({ st with aFreq, resIndex }, b)

def splitSingle (st : Split) (pmid : Nat) : Option (Split × Block) := do
  let st := st.allocate cfg.nAgents
  let aFreq ← fill st.aFreq (cfg.nAgents + 1) 0
  let (aFreq, resIndex, nGood) ← indexSingle cfg aFreq st.resIndex pmid
  let (result, resultPmids) ← layoutSingle cfg resIndex nGood pmid (emptyResult nGood)
  let b ← placeAll cfg resIndex nGood resultPmids result [pmid]
  some ({ st with aFreq, resIndex }, b)

def splitPmidList (st : Split) : List Nat → Option (Split × Block)
  | [pmid] => splitSingle cfg st pmid
  | pmidList => splitGeneral cfg st pmidList

end Split

namespace Block

def list (b : Block) (h : DomPmidList) : List Nat :=
  (b.pmids.drop h.list).take h.listSize

def lists (b : Block) : List (Int × List Nat) :=
  b.result.map fun h => (h.domain, b.list h)

end Block

namespace Config

variable (cfg : Config) (pmidList : List Nat)

def metrics (i : Nat) : List Nat :=
  pmidList.filter (cfg.agentOf · = i)

def used : List Nat :=
  (List.range cfg.nAgents).filter (cfg.metrics pmidList · ≠ [])

-- The last list is the one of the metrics that have no agent.
def owners : List Nat :=
  cfg.used pmidList ++ [cfg.nAgents]

def domainOf (i : Nat) : Int :=
  if i = cfg.nAgents then -1 else cfg.pmDomainId i

def parts : List (Int × List Nat) :=
  (cfg.owners pmidList).map fun i => (cfg.domainOf i, cfg.metrics pmidList i)

def pos (i : Nat) : Nat :=
  (cfg.used pmidList).idxOf i

def start (i : Nat) : Nat :=
  (pmidList.filter (cfg.agentOf · < i)).length

variable {cfg} {pmidList}

theorem mem_used : i ∈ cfg.used pmidList ↔ i < cfg.nAgents ∧ cfg.metrics pmidList i ≠ [] := by
  simp [used]

theorem mem_owners_of_mem (cfg : Config) (h : pmid ∈ pmidList) :
    cfg.agentOf pmid ∈ cfg.owners pmidList := by
  have hl : cfg.agentOf pmid ≤ cfg.nAgents := cfg.mapdom_le _
  rcases Nat.lt_or_eq_of_le hl with hl | he
  · have : pmid ∈ cfg.metrics pmidList (cfg.agentOf pmid) := by simp [metrics, h]
    exact mem_append_left _ <| mem_used.mpr ⟨hl, ne_nil_of_mem this⟩
  · simp [owners, he]

theorem owners_getElem_pos (h : i ∈ cfg.owners pmidList) :
    (cfg.owners pmidList)[cfg.pos pmidList i]? = some i := by
  rcases mem_append.mp h with hu | hn
  · have hl := idxOf_lt_length_of_mem hu
    rw [owners, pos, getElem?_append_left hl, getElem?_eq_getElem hl, getElem_idxOf]
  · have hn := mem_singleton.mp hn
    have hm : i ∉ cfg.used pmidList := by simp [mem_used, hn]
    rw [owners, pos, idxOf_eq_length hm]
    simp [hn]

theorem pos_inj (hi : i ∈ cfg.owners pmidList) (hj : j ∈ cfg.owners pmidList)
    (h : cfg.pos pmidList i = cfg.pos pmidList j) : i = j :=
  Option.some.inj <| (owners_getElem_pos hi).symm.trans <| h ▸ owners_getElem_pos hj

theorem pos_lt (h : i ∈ cfg.owners pmidList) :
    cfg.pos pmidList i < (cfg.used pmidList).length + 1 := by
  have := (List.getElem?_eq_some_iff.mp (owners_getElem_pos h)).choose
  simpa [owners] using this

theorem owners_nodup (cfg : Config) (pmidList : List Nat) : (cfg.owners pmidList).Nodup := by
  refine Nodup.append (nodup_range.filter _) (nodup_singleton _) ?_
  simp [mem_used]

theorem pos_getElem (h : (cfg.owners pmidList)[j]? = some i) : cfg.pos pmidList i = j := by
  obtain ⟨hj, -⟩ := List.getElem?_eq_some_iff.mp h
  have hp := owners_getElem_pos (List.mem_of_getElem? h)
  exact ((List.getElem?_inj hj (cfg.owners_nodup pmidList)).mp (h.trans hp.symm)).symm

theorem pos_nAgents : cfg.pos pmidList cfg.nAgents = (cfg.used pmidList).length :=
  idxOf_eq_length (by simp [mem_used])

theorem start_succ (cfg : Config) (pmidList : List Nat) (i : Nat) :
    cfg.start pmidList (i + 1) = cfg.start pmidList i + (cfg.metrics pmidList i).length := by
  unfold start metrics
  induction pmidList
  case nil => rfl
  case cons pmid pmidList ih =>
    simp only [filter_cons]
    grind

theorem start_mono (cfg : Config) (pmidList : List Nat) (h : i ≤ j) :
    cfg.start pmidList i ≤ cfg.start pmidList j := by
  induction h
  case refl => exact Nat.le_refl _
  case step j _ ih =>
    rw [start_succ]
    omega

theorem metrics_concat (pmidList : List Nat) (pmid i : Nat) : cfg.metrics (pmidList ++ [pmid]) i =
    cfg.metrics pmidList i ++ if cfg.agentOf pmid = i then [pmid] else [] := by
  simp [metrics, filter_cons]

theorem room (cfg : Config) (h : pmidList = ys ++ y :: zs) :
    (cfg.metrics ys (cfg.agentOf y)).length < (cfg.metrics pmidList (cfg.agentOf y)).length := by
  simp [metrics, h]

theorem metrics_length_le (cfg : Config) (l : Nat) (h : pmidList = ys ++ y :: zs) :
    (cfg.metrics (ys ++ [y]) l).length ≤ (cfg.metrics pmidList l).length := by
  simp only [metrics, h, append_cons ys y zs, filter_append (ys ++ [y]), length_append]
  omega

theorem start_add_lt (h : j < (cfg.metrics pmidList k).length) :
    cfg.start pmidList k + j < pmidList.length := by
  have hs := cfg.start_succ pmidList k
  have hl : cfg.start pmidList (k + 1) ≤ pmidList.length := length_filter_le ..
  omega

theorem start_apart (hk : j < (cfg.metrics pmidList k).length)
    (hl : j' < (cfg.metrics pmidList l).length) (hn : k ≠ l) :
    cfg.start pmidList k + j ≠ cfg.start pmidList l + j' := by
  have hsk := cfg.start_succ pmidList k
  have hsl := cfg.start_succ pmidList l
  rcases Nat.lt_or_gt_of_ne hn with h | h
  · have := cfg.start_mono pmidList (i := k + 1) h
    omega
  · have := cfg.start_mono pmidList (i := l + 1) h
    omega

theorem metrics_singleton (pmid i : Nat) :
    cfg.metrics [pmid] i = if cfg.agentOf pmid = i then [pmid] else [] :=
  metrics_concat [] pmid i

theorem used_singleton (cfg : Config) (pmid : Nat) :
    cfg.used [pmid] = if cfg.agentOf pmid = cfg.nAgents then [] else [cfg.agentOf pmid] := by
  have hle : cfg.agentOf pmid ≤ cfg.nAgents := cfg.mapdom_le _
  have hf : cfg.used [pmid] = (range cfg.nAgents).filter (· == cfg.agentOf pmid) := by
    refine filter_congr fun i _ => ?_
    rw [metrics_singleton]
    grind
  rw [hf, filter_beq]
  split
  case isTrue he => simp [he]
  case isFalse he =>
    rw [count_eq_one_of_mem nodup_range (by simp; omega), replicate_one]

-- The number of the agents before `i` that have metrics.
def usedBelow (cfg : Config) (pmidList : List Nat) (i : Nat) : Nat :=
  ((List.range i).filter (cfg.metrics pmidList · ≠ [])).length

theorem usedBelow_succ : cfg.usedBelow pmidList (i + 1) =
    cfg.usedBelow pmidList i + if cfg.metrics pmidList i ≠ [] then 1 else 0 := by
  simp only [usedBelow, range_succ, filter_append, length_append, filter_cons, decide_eq_true_eq]
  split <;> rfl

theorem pos_eq (h : i ∈ cfg.used pmidList) : cfg.pos pmidList i = cfg.usedBelow pmidList i := by
  obtain ⟨hl, hm⟩ := mem_used.mp h
  obtain ⟨n, hn⟩ : ∃ n, cfg.nAgents = i + (n + 1) := ⟨cfg.nAgents - i - 1, by omega⟩
  have hr : i ∉ (range i).filter (cfg.metrics pmidList · ≠ []) := by simp
  simp only [pos, used, usedBelow, hn, range_add, range_succ_eq_map, map_cons,
    filter_append, idxOf_append_of_notMem hr]
  simp [hm]

end Config

namespace Split

open Loop

variable {cfg : Config} {pmidList aFreq resIndex : List Nat} {nGood : Nat}

theorem tally_eq (pmidList : List Nat) (ha : ∀ i ≤ cfg.nAgents, aFreq[i]? = some 0) :
    ∃ a, pmidList.foldlM (tally cfg) aFreq = some a ∧ a.length = aFreq.length ∧
      ∀ i ≤ cfg.nAgents, a[i]? = some (cfg.metrics pmidList i).length := by
  refine foldlM_invariant (I := fun ys a => a.length = aFreq.length ∧
    ∀ i ≤ cfg.nAgents, a[i]? = some (cfg.metrics ys i).length) ⟨rfl, ha⟩ ?_
  intro ys y zs a _ ⟨hl, hi⟩
  have hy : a[cfg.agentOf y]? = _ := hi _ (cfg.mapdom_le (domain y))
  have hb := (List.getElem?_eq_some_iff.mp hy).choose
  refine ⟨a.set (cfg.agentOf y) ((cfg.metrics ys (cfg.agentOf y)).length + 1),
    by simp [tally, hy, write_eq hb], by simp [hl], fun i hn => ?_⟩
  rw [Config.metrics_concat]
  grind

theorem tallyGood_eq
    (ha : ∀ i ≤ cfg.nAgents, aFreq[i]? = some (cfg.metrics pmidList i).length) :
    (range cfg.nAgents).foldlM (tallyGood aFreq) 0 = some (cfg.used pmidList).length := by
  have hs : ∀ i < cfg.nAgents, ∀ n, n = cfg.usedBelow pmidList i →
      ∃ n', tallyGood aFreq n i = some n' ∧ n' = cfg.usedBelow pmidList (i + 1) := by
    rintro i hi n rfl
    refine ⟨_, by simp only [tallyGood, ha i (Nat.le_of_lt hi)]; rfl, ?_⟩
    rw [Config.usedBelow_succ]
    simp only [ne_eq, length_eq_zero_iff]
    split <;> rfl
  obtain ⟨n, hn, rfl⟩ := range_invariant (I := fun i n => n = cfg.usedBelow pmidList i) rfl hs
  exact hn

def Ranked (cfg : Config) (pmidList : List Nat) (n i : Nat) (r : List Nat × Nat) : Prop :=
  r.1.length = n ∧ r.2 = cfg.usedBelow pmidList i ∧ ∀ k < i, r.1[k]? = some (cfg.pos pmidList k)

theorem Ranked.set (h : Ranked cfg pmidList n i (r, j)) (hi : i < n)
    (hm : j' = cfg.usedBelow pmidList (i + 1)) :
    Ranked cfg pmidList n (i + 1) (r.set i (cfg.pos pmidList i), j') := by
  obtain ⟨hl, -, hk⟩ := h
  refine ⟨by simpa using hl, hm, fun k hlt => ?_⟩
  grind

theorem indexAgent_eq (h : Ranked cfg pmidList n i r) (hn : cfg.nAgents < n)
    (hi : i < cfg.nAgents) (ha : aFreq[i]? = some (cfg.metrics pmidList i).length) :
    ∃ r', indexAgent aFreq (cfg.used pmidList).length r i = some r' ∧
      Ranked cfg pmidList n (i + 1) r' := by
  obtain ⟨r, j⟩ := r
  obtain rfl : j = _ := h.right.left
  have hw : i < r.length := h.left ▸ Nat.lt_trans hi hn
  by_cases hm : cfg.metrics pmidList i = []
  · have hp : cfg.pos pmidList i = (cfg.used pmidList).length :=
      idxOf_eq_length (by simp [Config.mem_used, hm])
    exact ⟨(r.set i (cfg.pos pmidList i), cfg.usedBelow pmidList i),
      by simp [indexAgent, ha, hm, hp, write_eq hw],
      h.set (by omega) (by simp [Config.usedBelow_succ, hm])⟩
  · have hp := Config.pos_eq (Config.mem_used.mpr ⟨hi, hm⟩)
    exact ⟨(r.set i (cfg.pos pmidList i), cfg.usedBelow pmidList i + 1),
      by simp [indexAgent, ha, hm, hp, write_eq hw],
      h.set (by omega) (by simp [Config.usedBelow_succ, hm])⟩

structure Indexed (cfg : Config) (pmidList aFreq resIndex : List Nat) (nGood : Nat) : Prop where
  freq : ∀ i ≤ cfg.nAgents, aFreq[i]? = some (cfg.metrics pmidList i).length
  index : ∀ pmid ∈ pmidList, resIndex[cfg.agentOf pmid]? =
    some (cfg.pos pmidList (cfg.agentOf pmid))
  nGood : nGood = (cfg.used pmidList).length

theorem Indexed.index_of_used (h : Indexed cfg pmidList aFreq resIndex nGood)
    (hu : i ∈ cfg.used pmidList) : resIndex[i]? = some (cfg.pos pmidList i) := by
  obtain ⟨pmid, hm⟩ := exists_mem_of_ne_nil _ (Config.mem_used.mp hu).right
  obtain ⟨hp, he⟩ := mem_filter.mp hm
  obtain rfl := of_decide_eq_true he
  exact h.index pmid hp

theorem index_eq (pmidList : List Nat) (hl : cfg.nAgents < resIndex.length)
    (ha : ∀ i ≤ cfg.nAgents, aFreq[i]? = some 0) :
    ∃ a r n, index cfg aFreq resIndex pmidList = some (a, r, n) ∧ a.length = aFreq.length ∧
      r.length = resIndex.length ∧ Indexed cfg pmidList a r n := by
  obtain ⟨a, ht, hla, hfa⟩ := tally_eq pmidList ha
  have hg := tallyGood_eq hfa
  obtain ⟨⟨r, j⟩, hi, hlr, -, hir⟩ := range_invariant
    (s := (resIndex, 0)) ⟨rfl, rfl, by simp⟩
    fun i hi r h => indexAgent_eq h hl hi (hfa i (Nat.le_of_lt hi))
  have hw : cfg.nAgents < r.length := hlr ▸ hl
  refine ⟨a, r.set cfg.nAgents (cfg.used pmidList).length, _,
    by simp [index, ht, hg, hi, write_eq hw], hla, by simpa using hlr, hfa, fun pmid hm => ?_, rfl⟩
  have hle : cfg.agentOf pmid ≤ cfg.nAgents := cfg.mapdom_le _
  rcases Nat.lt_or_eq_of_le hle with hlt | he
  · simpa [Nat.ne_of_gt hlt] using hir _ hlt
  · simp [he, hw, Config.pos_nAgents]

theorem indexSingle_eq (pmid : Nat) (hl : cfg.nAgents < resIndex.length)
    (ha : ∀ i ≤ cfg.nAgents, aFreq[i]? = some 0) :
    ∃ a r n, indexSingle cfg aFreq resIndex pmid = some (a, r, n) ∧ a.length = aFreq.length ∧
      r.length = resIndex.length ∧ Indexed cfg [pmid] a r n := by
  obtain ⟨r, hr, hlr⟩ := range_invariant (n := cfg.nAgents) (f := fun r i => write r i 1)
    (I := fun _ r => r.length = resIndex.length) rfl
    fun i hi r h => ⟨r.set i 1, write_eq (by omega) 1, by simpa using h⟩
  have hle : cfg.agentOf pmid ≤ cfg.nAgents := cfg.mapdom_le _
  have hwr : cfg.agentOf pmid < r.length := by omega
  have hwa : cfg.agentOf pmid < aFreq.length := (List.getElem?_eq_some_iff.mp (ha _ hle)).choose
  refine ⟨aFreq.set (cfg.agentOf pmid) 1, r.set (cfg.agentOf pmid) 0, _,
    by simp [indexSingle, hr, write_eq hwr, write_eq hwa]; rfl, by simp, by simpa using hlr,
    fun i hi => ?freq, fun p hm => ?index, ?nGood⟩
  case freq =>
    have := ha i hi
    rw [Config.metrics_singleton, List.getElem?_set]
    grind
  case index =>
    obtain rfl := List.mem_singleton.mp hm
    have : cfg.pos [p] (cfg.agentOf p) = 0 := by
      rw [Config.pos, Config.used_singleton]
      split <;> simp
    simp [hwr, this]
  case nGood =>
    rw [Config.used_singleton]
    split <;> rfl

def Laid (cfg : Config) (pmidList : List Nat) (i : Nat) (r : List DomPmidList × Nat) : Prop :=
  r.1.length = (cfg.used pmidList).length + 1 ∧ r.2 = cfg.start pmidList i ∧
    ∀ k ∈ cfg.used pmidList, k < i →
      r.1[cfg.pos pmidList k]? = some ⟨cfg.pmDomainId k, 0, cfg.start pmidList k⟩

theorem Laid.set (h : Laid cfg pmidList i (r, j)) (hi : i ∈ cfg.used pmidList) :
    Laid cfg pmidList (i + 1)
      (r.set (cfg.pos pmidList i) ⟨cfg.pmDomainId i, 0, cfg.start pmidList i⟩,
        cfg.start pmidList (i + 1)) := by
  obtain ⟨hl, -, hk⟩ := h
  refine ⟨by simpa using hl, rfl, fun k hu hlt => ?_⟩
  have hp := Config.pos_lt (mem_append_left _ hi)
  have hj := Config.pos_inj (mem_append_left _ hi) (mem_append_left _ hu)
  have := hk k hu
  grind

theorem layoutAgent_eq (h : Laid cfg pmidList i r) (hx : Indexed cfg pmidList aFreq resIndex nGood)
    (hi : i < cfg.nAgents) :
    ∃ r', layoutAgent cfg aFreq resIndex r i = some r' ∧ Laid cfg pmidList (i + 1) r' := by
  obtain ⟨r, j⟩ := r
  obtain rfl : j = _ := h.right.left
  have hf := hx.freq i (Nat.le_of_lt hi)
  by_cases hm : cfg.metrics pmidList i = []
  · refine ⟨(r, cfg.start pmidList i), by simp [layoutAgent, hf, hm], h.left, ?_,
      fun k hu hlt => ?_⟩
    · simp [Config.start_succ, hm]
    · have : k ≠ i := by
        rintro rfl
        exact (Config.mem_used.mp hu).right hm
      exact h.right.right k hu (by omega)
  · have hu := Config.mem_used.mpr ⟨hi, hm⟩
    have hw : cfg.pos pmidList i < r.length := h.left ▸ Config.pos_lt (mem_append_left _ hu)
    have hr := hx.index_of_used hu
    exact ⟨_, by simp [layoutAgent, hf, hm, hr, write_eq hw, ← Config.start_succ], h.set hu⟩

theorem layout_eq (hx : Indexed cfg pmidList aFreq resIndex nGood) :
    ∃ r, layout cfg aFreq resIndex (emptyResult nGood) = some r ∧
      Laid cfg pmidList cfg.nAgents r := by
  refine range_invariant ⟨?_, ?_, by simp⟩
    fun i hi r h => layoutAgent_eq h hx hi
  · simp [emptyResult, hx.nGood]
  · simp [Config.start]

theorem layoutSingle_eq (hx : Indexed cfg [pmid] aFreq resIndex nGood) :
    ∃ r, layoutSingle cfg resIndex nGood pmid (emptyResult nGood) = some r ∧
      Laid cfg [pmid] cfg.nAgents r := by
  have hi := hx.index pmid (mem_singleton_self pmid)
  have hu := cfg.used_singleton pmid
  by_cases he : cfg.agentOf pmid = cfg.nAgents
  · have hg : nGood = 0 := by simpa [hu, he] using hx.nGood
    refine ⟨_, by simp only [hg]; rfl, ?_, ?_, ?_⟩
    · simp [emptyResult, hu, he]
    · simp [Config.start, he]
    · simp [hu, he]
  · have hlt : cfg.agentOf pmid < cfg.nAgents :=
      Nat.lt_of_le_of_ne (cfg.mapdom_le _) he
    have hg : nGood = 1 := by simpa [hu, he] using hx.nGood
    have hp : cfg.pos [pmid] (cfg.agentOf pmid) = 0 := by simp [Config.pos, hu, he]
    refine ⟨_, by simp [layoutSingle, hg, hi, hp, emptyResult]; rfl, ?_, ?_, ?_⟩
    · simp [hu, he]
    · simp [Config.start, hlt]
    · intro k hk _
      obtain rfl : k = cfg.agentOf pmid := by simpa [hu, he] using hk
      simp [hp, Config.start]

structure Filled (cfg : Config) (pmidList ys : List Nat) (b : Block) : Prop where
  size : b.pmids.length = pmidList.length
  count : b.result.length = (cfg.used pmidList).length + 1
  header : ∀ k ∈ cfg.owners pmidList, b.result[cfg.pos pmidList k]? =
    some ⟨cfg.domainOf k, (cfg.metrics ys k).length, cfg.start pmidList k⟩
  slots : ∀ k ∈ cfg.owners pmidList, ∀ j < (cfg.metrics ys k).length,
    b.pmids[cfg.start pmidList k + j]? = (cfg.metrics ys k)[j]?

theorem Filled.write_header (h : Filled cfg pmidList ys b) (ho : k ∈ cfg.owners pmidList)
    (hl : l ∈ cfg.owners pmidList) (n : Nat) :
    (b.result.set (cfg.pos pmidList k)
      ⟨cfg.domainOf k, n, cfg.start pmidList k⟩)[cfg.pos pmidList l]?
      = some ⟨cfg.domainOf l, if k = l then n else (cfg.metrics ys l).length,
        cfg.start pmidList l⟩ := by
  have hj := Config.pos_inj ho hl
  have hh := h.header l hl
  grind

theorem Filled.place (h : Filled cfg pmidList ys b) (hp : pmidList = ys ++ y :: zs)
    (hx : Indexed cfg pmidList aFreq resIndex nGood) :
    ∃ b', place cfg resIndex b y = some b' ∧ Filled cfg pmidList (ys ++ [y]) b' := by
  have hm : y ∈ pmidList := by simp [hp]
  have ho := cfg.mem_owners_of_mem hm
  have hr := cfg.room hp
  have hs : cfg.start pmidList (cfg.agentOf y) + (cfg.metrics ys (cfg.agentOf y)).length <
      b.pmids.length := h.size ▸ Config.start_add_lt hr
  have hw : cfg.pos pmidList (cfg.agentOf y) < b.result.length := h.count ▸ Config.pos_lt ho
  refine ⟨{
    result := b.result.set (cfg.pos pmidList (cfg.agentOf y)) ⟨cfg.domainOf (cfg.agentOf y),
      (cfg.metrics ys (cfg.agentOf y)).length + 1, cfg.start pmidList (cfg.agentOf y)⟩
    pmids := b.pmids.set
      (cfg.start pmidList (cfg.agentOf y) + (cfg.metrics ys (cfg.agentOf y)).length) y
  }, ?_, ?_, ?_, ?_, ?_⟩
  · simp [Split.place, hx.index y hm, h.header _ ho, write_eq hs, write_eq hw]
  · simpa using h.size
  · simpa using h.count
  · intro l hl
    rw [h.write_header ho hl, Config.metrics_concat]
    grind
  · intro l hl j hj
    have hle := cfg.metrics_length_le l hp
    rw [Config.metrics_concat] at hj hle ⊢
    rw [getElem?_set]
    by_cases he : cfg.agentOf y = l
    · have := h.slots l hl j
      grind
    · simp only [he, if_false, append_nil] at hj hle ⊢
      rw [if_neg (Config.start_apart hr (by omega) he)]
      exact h.slots l hl j hj

theorem Filled.list (h : Filled cfg pmidList ys b) (hk : k ∈ cfg.owners pmidList) :
    b.list ⟨cfg.domainOf k, (cfg.metrics ys k).length, cfg.start pmidList k⟩ =
      cfg.metrics ys k := by
  refine ext_getElem? fun j => ?_
  simp only [Block.list, getElem?_take, getElem?_drop]
  split
  case isTrue hj => exact h.slots k hk j hj
  case isFalse hj => exact (getElem?_eq_none (by omega)).symm

theorem Filled.lists (h : Filled cfg pmidList pmidList b) : b.lists = cfg.parts pmidList := by
  refine ext_getElem? fun j => ?_
  simp only [Block.lists, Config.parts, getElem?_map]
  cases hj : (cfg.owners pmidList)[j]?
  case none =>
    have hl := getElem?_eq_none_iff.mp hj
    have hc := h.count
    simp only [Config.owners, length_append, length_singleton] at hl
    simp only [Option.map_none, Option.map_eq_none_iff, getElem?_eq_none_iff]
    omega
  case some k =>
    have hk := mem_of_getElem? hj
    have hh := Config.pos_getElem hj ▸ h.header k hk
    simp [hh, h.list hk]

theorem Laid.filled (h : Laid cfg pmidList cfg.nAgents (result, n)) :
    Filled cfg pmidList [] ⟨result.set (cfg.used pmidList).length ⟨-1, 0, n⟩,
      .replicate pmidList.length 0⟩ := by
  obtain ⟨hl, rfl, hk⟩ := h
  refine ⟨by simp, by simpa using hl, fun k ho => ?_, by simp [Config.metrics]⟩
  simp only at hl hk ⊢
  rcases mem_append.mp ho with hu | hn
  · have hp : cfg.pos pmidList k < (cfg.used pmidList).length := idxOf_lt_length_of_mem hu
    have hlt := (Config.mem_used.mp hu).left
    rw [getElem?_set_ne (by omega), hk k hu hlt]
    simp [Config.domainOf, Nat.ne_of_lt hlt, Config.metrics]
  · obtain rfl := mem_singleton.mp hn
    rw [Config.pos_nAgents, getElem?_set_self (by omega)]
    simp [Config.domainOf, Config.metrics]

theorem placeAll_eq (hx : Indexed cfg pmidList aFreq resIndex nGood)
    (hr : Laid cfg pmidList cfg.nAgents (result, n)) :
    ∃ b, placeAll cfg resIndex nGood n result pmidList = some b ∧ b.lists = cfg.parts pmidList := by
  obtain ⟨b, hb, hf⟩ := foldlM_invariant hr.filled fun ys y zs b hp h => h.place hp hx
  have hl : (cfg.used pmidList).length < result.length := by
    have := hr.left
    simp only at this
    omega
  exact ⟨b, by simp [placeAll, hx.nGood, write_eq hl, hb], hf.lists⟩

-- The arrays have an element for each agent, and one more.
def Allocated (st : Split) : Prop :=
  0 < st.nDoms → st.nDoms < st.aFreq.length ∧ st.nDoms < st.resIndex.length

theorem init_allocated : init.Allocated :=
  fun h => absurd h (Nat.lt_irrefl 0)

theorem Allocated.allocate {st : Split} (h : st.Allocated) (hn : 0 < nAgents) :
    (st.allocate nAgents).Allocated ∧ nAgents < (st.allocate nAgents).aFreq.length ∧
      nAgents < (st.allocate nAgents).resIndex.length := by
  unfold Split.allocate
  split
  · simp [Allocated]
  case isFalse hd =>
    have := h (by omega)
    exact ⟨h, by omega, by omega⟩

def Counted (st : Split) (cfg : Config) (pmidList : List Nat) : Prop :=
  ∀ i ≤ cfg.nAgents, st.aFreq[i]? = some (cfg.metrics pmidList i).length

theorem splitGeneral_eq (h : st.Allocated) (cfg : Config) (pmidList : List Nat) :
    ∃ st' b, splitGeneral cfg st pmidList = some (st', b) ∧ st'.Allocated ∧
      st'.Counted cfg pmidList ∧ b.lists = cfg.parts pmidList := by
  obtain ⟨ht, hla, hlr⟩ := h.allocate cfg.nAgents_pos
  obtain ⟨a, ha, hl, hz⟩ := fill_eq hla 0
  obtain ⟨aFreq, resIndex, nGood, hi, hl₁, hl₂, hx⟩ :=
    index_eq pmidList hlr fun i hi => hz i (Nat.lt_succ_of_le hi)
  obtain ⟨⟨result, n⟩, hy, hd⟩ := layout_eq hx
  obtain ⟨b, hb, hp⟩ := placeAll_eq hx hd
  exact ⟨⟨aFreq, resIndex, (st.allocate cfg.nAgents).nDoms⟩, b,
    by simp [splitGeneral, ha, hi, hy, hb],
    by simpa [Allocated, hl₁, hl₂, hl] using ht, hx.freq, hp⟩

theorem splitSingle_eq (h : st.Allocated) (cfg : Config) (pmid : Nat) :
    ∃ st' b, splitSingle cfg st pmid = some (st', b) ∧ st'.Allocated ∧
      st'.Counted cfg [pmid] ∧ b.lists = cfg.parts [pmid] := by
  obtain ⟨ht, hla, hlr⟩ := h.allocate cfg.nAgents_pos
  obtain ⟨a, ha, hl, hz⟩ := fill_eq hla 0
  obtain ⟨aFreq, resIndex, nGood, hi, hl₁, hl₂, hx⟩ :=
    indexSingle_eq pmid hlr fun i hi => hz i (Nat.lt_succ_of_le hi)
  obtain ⟨⟨result, n⟩, hy, hd⟩ := layoutSingle_eq hx
  obtain ⟨b, hb, hp⟩ := placeAll_eq hx hd
  exact ⟨⟨aFreq, resIndex, (st.allocate cfg.nAgents).nDoms⟩, b,
    by simp [splitSingle, ha, hi, hy, hb],
    by simpa [Allocated, hl₁, hl₂, hl] using ht, hx.freq, hp⟩

theorem splitPmidList_eq (h : st.Allocated) (cfg : Config) (pmidList : List Nat) :
    ∃ st' b, splitPmidList cfg st pmidList = some (st', b) ∧ st'.Allocated ∧
      st'.Counted cfg pmidList ∧ b.lists = cfg.parts pmidList := by
  unfold splitPmidList
  split
  · exact splitSingle_eq h cfg _
  · exact splitGeneral_eq h cfg _

end Split

end Pmcd
