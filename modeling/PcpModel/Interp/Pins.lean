import PcpModel.Interp.Basic
import PcpModel.Library.Ledger
import PcpModel.PduBuf.Counts

open Ledger PduBuf List Logged

namespace Interp

variable {V : Type} {av : V → Prop}

def Event.tx : Event V → Option (Tx V)
  | .pin v => some (.acquire v)
  | .unpin v => some (.release v)
  | .found => none

def txs (log : List (Event V)) : List (Tx V) :=
  log.filterMap Event.tx

@[simp]
theorem txs_append {l₂ : List (Event V)} : txs (l₁ ++ l₂) = txs l₁ ++ txs l₂ :=
  filterMap_append

@[simp]
theorem txs_flatMap {as : List α} {f : α → List (Event V)} :
    txs (as.flatMap f) = as.flatMap (txs <| f ·) :=
  filterMap_flatMap ..

def held : Option V → Multiset V
  | none => 0
  | some v => {v}

theorem replace_moves (hv : ∀ a ∈ v', av a) :
    Moves av (txs <| (InstCntl.unpin false v).log ++ (InstCntl.pin false v').log) (held v)
      (held v') := by
  cases v <;> cases v' <;> simp_all [txs, InstCntl.unpin, InstCntl.pin, Event.tx, Moves, held]

namespace InstCntl

variable {icp : InstCntl V}

def bounds (icp : InstCntl V) : Multiset V :=
  held icp.vPrior + held icp.vNext

-- Whether a value at time `tThis` causes one of the bounds to be moved to the other one.
def Shuffles (icp : InstCntl V) (tReq tThis : Int) : Prop :=
  icp.tPrior < icp.tNext ∧ (
    (tThis ≤ tReq ∧ tReq ≤ icp.tPrior ∧ (icp.tPrior > tReq ∨ tThis ≥ icp.tPrior) ∧
      icp.vPrior ≠ none) ∨
    (tThis > tReq ∧ icp.tNext ≤ tReq ∧ (icp.tNext < tReq ∨ tThis ≤ icp.tNext) ∧ icp.vNext ≠ none)
  )

-- The pins and unpins that are made by an update of `icp` are the ones that its bounds call for.
def Accounts (av : V → Prop) (icp : InstCntl V) (f : Update V) : Prop :=
  Moves av (txs (f icp).log) icp.bounds (f icp).val.bounds

theorem Accounts.bind (hf : icp.Accounts av f) (hg : (f icp).val.Accounts av g) :
    icp.Accounts av (f · >>= g) := by
  simp only [Accounts, bind_log, txs_append] at *
  exact hf.append hg

theorem Accounts.pure : icp.Accounts av Pure.pure :=
  Moves.refl

theorem setPrior_accounts (hv : ∀ a ∈ v, av a) : icp.Accounts av (setPrior false t v) := by
  have h := replace_moves (v := icp.vPrior) hv |>.frame (held icp.vNext)
  simpa [Accounts, setPrior, bounds] using h

theorem setNext_accounts (hv : ∀ a ∈ v, av a) : icp.Accounts av (setNext false t v) := by
  have h := replace_moves (v := icp.vNext) hv |>.frame (held icp.vPrior)
  simpa [Accounts, setNext, bounds, add_comm] using h

theorem endSearch_accounts : icp.Accounts av (endSearch c) := by
  simp only [Accounts, endSearch]
  split <;> exact Moves.refl

theorem markPrior_accounts : icp.Accounts av (markPrior false tReq tThis c) := by
  simp only [Accounts, markPrior]
  split
  case isTrue => exact Accounts.bind (setPrior_accounts <| by simp) endSearch_accounts
  case isFalse => exact Accounts.pure

theorem markNext_accounts : icp.Accounts av (markNext false tReq tThis c) := by
  simp only [Accounts, markNext]
  split
  case isTrue => exact Accounts.bind (setNext_accounts <| by simp) endSearch_accounts
  case isFalse => exact Accounts.pure

theorem release_moves : Moves av (txs (unpin false v).log) (held v) 0 := by
  cases v <;> simp [txs, unpin, Event.tx, Moves, held]

-- The pin that belongs to a bound is not moved along with it.
theorem shuffleToNext_accounts
    (h : icp.tPrior < icp.tNext → tReq ≤ icp.tPrior → icp.vPrior = none) :
    icp.Accounts av (shuffleToNext false tReq) := by
  simp only [Accounts, shuffleToNext]
  split
  case isTrue hs =>
    have hn := h hs.left hs.right
    simpa [bounds, hn, held] using release_moves
  case isFalse => exact Accounts.pure

theorem shuffleToPrior_accounts
    (h : icp.tPrior < icp.tNext → icp.tNext ≤ tReq → icp.vNext = none) :
    icp.Accounts av (shuffleToPrior false tReq) := by
  simp only [Accounts, shuffleToPrior]
  split
  case isTrue hs =>
    have hn := h hs.left hs.right
    simpa [bounds, hn, held] using release_moves
  case isFalse => exact Accounts.pure

theorem valuePrior_accounts (hv : av v) (h : ¬icp.Shuffles tReq tThis) :
    icp.Accounts av (valuePrior false tReq tThis v c) := by
  simp only [Accounts, valuePrior]
  split
  case isTrue hb =>
    refine Accounts.bind (shuffleToNext_accounts fun h₁ h₂ => ?_) <|
      Accounts.bind (setPrior_accounts <| by simpa) endSearch_accounts
    by_contra hn
    exact h ⟨h₁, .inl ⟨hb.left, h₂, hb.right, hn⟩⟩
  case isFalse => exact Accounts.pure

theorem valueNext_accounts (hv : av v)
    (h : tReq ≤ tThis ∧ (icp.tNext < tReq ∨ tThis ≤ icp.tNext) → icp.tPrior < icp.tNext →
      icp.tNext ≤ tReq → icp.vNext = none) :
    icp.Accounts av (valueNext false tReq tThis v c) := by
  simp only [Accounts, valueNext]
  split
  case isTrue hb =>
    exact Accounts.bind (shuffleToPrior_accounts <| h hb) <|
      Accounts.bind (setNext_accounts <| by simpa) endSearch_accounts
  case isFalse => exact Accounts.pure

@[simp]
theorem endSearch_tPrior : (icp.endSearch c).val.tPrior = icp.tPrior := by
  simp only [endSearch]
  split <;> rfl

@[simp]
theorem endSearch_tNext : (icp.endSearch c).val.tNext = icp.tNext := by
  simp only [endSearch]
  split <;> rfl

@[simp]
theorem setPrior_tPrior : (icp.setPrior b t v).val.tPrior = t :=
  rfl

@[simp]
theorem setNext_tNext : (icp.setNext b t v).val.tNext = t :=
  rfl

theorem valuePrior_cases (icp : InstCntl V) (insitu tReq tThis v c) :
    (tThis ≤ tReq ∧ (icp.valuePrior insitu tReq tThis v c).val.tPrior = tThis) ∨
    (¬(tThis ≤ tReq ∧ (icp.tPrior > tReq ∨ tThis ≥ icp.tPrior)) ∧
      icp.valuePrior insitu tReq tThis v c = pure icp) := by
  simp only [valuePrior]
  split
  case isTrue h => exact .inl ⟨h.left, by simp⟩
  case isFalse h => exact .inr ⟨h, rfl⟩

theorem valueNext_cases (icp : InstCntl V) (insitu tReq tThis v c) :
    (tReq ≤ tThis ∧ (icp.valueNext insitu tReq tThis v c).val.tNext = tThis) ∨
    (¬(tReq ≤ tThis ∧ (icp.tNext < tReq ∨ tThis ≤ icp.tNext)) ∧
      icp.valueNext insitu tReq tThis v c = pure icp) := by
  simp only [valueNext]
  split
  case isTrue h => exact .inl ⟨h.left, by simp⟩
  case isFalse h => exact .inr ⟨h, rfl⟩

theorem value_accounts (hv : av v) (h : ¬icp.Shuffles tReq tThis) :
    icp.Accounts av (value false tReq tThis v c) := by
  refine Accounts.bind (valuePrior_accounts hv h) <| valueNext_accounts hv fun hb h₁ h₂ => ?_
  rcases icp.valuePrior_cases false tReq tThis v c with hp | ⟨hp, he⟩
  case inl => omega
  case inr =>
    simp only [he] at *
    by_contra hn
    exact h ⟨h₁, .inr ⟨by omega, h₂, hb.right, hn⟩⟩

theorem value_not_shuffles : ¬(icp.value b tReq tThis v c).val.Shuffles tReq tThis := by
  simp only [Shuffles, value, bind_val]
  rcases (icp.valuePrior b tReq tThis v c).val.valueNext_cases b tReq tThis v c with hn | ⟨hn, he⟩
  case inl => omega
  case inr =>
    rw [he, pure_val]
    rcases icp.valuePrior_cases b tReq tThis v c with hp | ⟨hp, he⟩
    case inl => omega
    case inr =>
      simp only [he, pure_val] at *
      omega

theorem mem_of_find (h : icp.find vlist = some v) : ∃ lv ∈ vlist, lv.value = v := by
  have ⟨lv, hf, hv⟩ := Option.map_eq_some_iff.mp h
  exact ⟨lv, mem_of_find?_eq_some hf, hv⟩

theorem updateValue_accounts (hv : ∀ v ∈ vlist, av v.value)
    (h : icp.find vlist ≠ none → ¬icp.Shuffles tReq tThis) :
    icp.Accounts av (updateValue false tReq tThis vlist c) := by
  simp only [Accounts, updateValue]
  cases hf : icp.find vlist
  case none => exact Accounts.pure
  case some v =>
    obtain ⟨lv, hl, rfl⟩ := mem_of_find hf
    exact value_accounts (hv lv hl) <| h (by simp [hf])

theorem updateValue_not_shuffles (h : ¬icp.Shuffles tReq tThis) :
    ¬(icp.updateValue b tReq tThis vlist c).val.Shuffles tReq tThis := by
  unfold updateValue
  split
  · exact h
  · exact value_not_shuffles

theorem updateMark_accounts : icp.Accounts av (updateMark false tReq tThis c) := by
  simp only [Accounts, updateMark]
  split
  case isTrue => exact Accounts.bind markPrior_accounts markNext_accounts
  case isFalse => exact Accounts.pure

theorem reset_accounts : icp.Accounts av (reset false tReq) := by
  simp only [Accounts, reset]
  split
  case isFalse => exact Accounts.pure
  case isTrue =>
    have h₁ : Moves av _ _ _ := release_moves (v := icp.vPrior) |>.frame (held icp.vNext)
    have h₂ : Moves av _ _ _ := release_moves (v := icp.vNext)
    simpa [bounds, held] using h₁.append <| by simpa using h₂

end InstCntl

namespace PmidCntl

variable {pcp : PmidCntl V}

def bounds (pcp : PmidCntl V) : Multiset V :=
  pcp.insts.map (·.bounds) |>.sum

theorem sweep_moves (h : ∀ icp ∈ pcp.insts, icp.Accounts av f) :
    Moves av (txs (pcp.sweep f).log) pcp.bounds (pcp.sweep f).val.bounds := by
  simp only [sweep, bind_log, sweep_log, pure_log, append_nil, txs_flatMap,
    bounds, bind_val, sweep_val, pure_val, map_map]
  exact Moves.flatMap h

structure Takes (av : V → Prop) (pcp : PmidCntl V) (tReq tThis : Int) (vs : ValueSet V) : Prop where
  valfmt : vs.valfmt ≠ .insitu
  available : ∀ v ∈ vs.vlist, av v.value
  quiet : ∀ icp ∈ pcp.insts, icp.find vs.vlist ≠ none → ¬icp.Shuffles tReq tThis

theorem setValfmt_not_insitu (hi : ¬pcp.Insitu) (hv : vs.valfmt ≠ .insitu) :
    ¬(pcp.setValfmt vs).Insitu := by
  unfold setValfmt
  split
  case isTrue => simpa [Insitu]
  case isFalse => exact hi

theorem setValfmt_insts : (pcp.setValfmt vs).insts = pcp.insts := by
  unfold setValfmt
  split <;> rfl

theorem setValfmt_pmid : (pcp.setValfmt vs).pmid = pcp.pmid := by
  unfold setValfmt
  split <;> rfl

theorem setValfmt_bounds (vs : ValueSet V) : (pcp.setValfmt vs).bounds = pcp.bounds := by
  simp [bounds, setValfmt_insts]

theorem updateValues_moves (hi : ¬pcp.Insitu)
    (ht : pcp.pmid = vs.pmid → pcp.Takes av tReq tThis vs) :
    Moves av (txs (pcp.updateValues tReq tThis c vs).log) pcp.bounds
      (pcp.updateValues tReq tThis c vs).val.bounds := by
  unfold updateValues
  split
  case isFalse => exact Moves.refl
  case isTrue he =>
    have ⟨hv, ha, hq⟩ := ht he
    simp only [setValfmt_not_insitu hi hv]
    rw [← setValfmt_bounds vs]
    exact sweep_moves fun icp hm =>
      InstCntl.updateValue_accounts ha <| hq icp (setValfmt_insts ▸ hm)

theorem updateValues_pmid : (pcp.updateValues tReq tThis c vs).val.pmid = pcp.pmid := by
  unfold updateValues
  split
  case isTrue => exact setValfmt_pmid
  case isFalse => rfl

theorem updateValues_not_insitu (hi : ¬pcp.Insitu)
    (ht : pcp.pmid = vs.pmid → pcp.Takes av tReq tThis vs) :
    ¬(pcp.updateValues tReq tThis c vs).val.Insitu := by
  unfold updateValues
  split
  case isTrue he => exact setValfmt_not_insitu hi (ht he).valfmt
  case isFalse => exact hi

theorem updateValues_takes (ht : pcp.Takes av tReq tThis vs') :
    (pcp.updateValues tReq tThis c vs).val.Takes av tReq tThis vs' where
  valfmt := ht.valfmt
  available := ht.available
  quiet := by
    intro icp' hm hf
    unfold updateValues at hm
    split at hm
    case isFalse => exact ht.quiet icp' hm hf
    case isTrue =>
      obtain ⟨icp, hi, rfl⟩ := mem_map.mp hm
      rw [InstCntl.Same.updateValue.find_eq] at hf
      exact InstCntl.updateValue_not_shuffles <| ht.quiet icp (setValfmt_insts ▸ hi) hf

theorem updateMarks_moves (hi : ¬pcp.Insitu) :
    Moves av (txs (pcp.updateMarks tReq tThis c).log) pcp.bounds
      (pcp.updateMarks tReq tThis c).val.bounds := by
  simp only [updateMarks, hi]
  exact sweep_moves fun _ _ => InstCntl.updateMark_accounts

theorem resetInterp_moves (hi : ¬pcp.Insitu) :
    Moves av (txs (pcp.resetInterp tReq).log) pcp.bounds (pcp.resetInterp tReq).val.bounds := by
  simp only [resetInterp, hi]
  exact sweep_moves fun _ _ => InstCntl.reset_accounts

end PmidCntl

namespace Metrics

variable {ms : Metrics V}

def bounds (ms : Metrics V) : Multiset V :=
  ms.map (·.bounds) |>.sum

theorem sweep_moves
    (h : ∀ pcp ∈ ms, Moves av (txs (f pcp).log) pcp.bounds (f pcp).val.bounds) :
    Moves av (txs (sweep f ms).log) ms.bounds (Metrics.bounds (sweep f ms).val) := by
  simp only [sweep_log, txs_flatMap, bounds, sweep_val, map_map]
  exact Moves.flatMap h

def Takes (av : V → Prop) (ms : Metrics V) (tReq : Int) (logrp : Record V) : Prop :=
  ∀ vs ∈ logrp.vset, ∀ pcp ∈ ms, pcp.pmid = vs.pmid → pcp.Takes av tReq logrp.time vs

theorem updateBounds_moves (hi : ∀ pcp ∈ ms, ¬pcp.Insitu) (ht : ms.Takes av tReq logrp) :
    Moves av (txs (ms.updateBounds tReq logrp m c).log) ms.bounds
      (Metrics.bounds (ms.updateBounds tReq logrp m c).val) ∧
    ∀ pcp ∈ (ms.updateBounds tReq logrp m c).val, ¬pcp.Insitu := by
  unfold updateBounds
  split
  case isTrue =>
    refine ⟨sweep_moves fun pcp hm => pcp.updateMarks_moves (hi pcp hm), fun pcp hm => ?_⟩
    obtain ⟨pcp, hp, rfl⟩ := mem_map.mp hm
    exact hi pcp hp
  case isFalse hn =>
    unfold Takes at ht
    clear hn
    generalize logrp.vset = vset at *
    induction vset generalizing ms
    case nil => exact ⟨Moves.refl, hi⟩
    case cons vs vset h =>
      simp only [forall_mem_cons, foldlM_cons, bind_log,
        txs_append] at *
      have h₁ := sweep_moves fun pcp hm =>
        pcp.updateValues_moves (c := c) (hi pcp hm) (ht.left pcp hm)
      refine h ?_ ?_ |>.imp_left h₁.append
      · intro pcp hm
        obtain ⟨pcp, hp, rfl⟩ := mem_map.mp hm
        exact PmidCntl.updateValues_not_insitu (hi pcp hp) (ht.left pcp hp)
      · intro vs' hv pcp hm he
        obtain ⟨pcp, hp, rfl⟩ := mem_map.mp hm
        rw [PmidCntl.updateValues_pmid] at he
        exact PmidCntl.updateValues_takes <| ht.right vs' hv pcp hp he

theorem resetInterp_moves (hi : ∀ pcp ∈ ms, ¬pcp.Insitu) :
    Moves av (txs (ms.resetInterp tReq).log) ms.bounds
      (Metrics.bounds (ms.resetInterp tReq).val) ∧
    ∀ pcp ∈ (ms.resetInterp tReq).val, ¬pcp.Insitu := by
  refine ⟨sweep_moves fun pcp hm => pcp.resetInterp_moves (hi pcp hm), fun pcp hm => ?_⟩
  obtain ⟨pcp, hp, rfl⟩ := mem_map.mp hm
  exact hi pcp hp

end Metrics

end Interp
