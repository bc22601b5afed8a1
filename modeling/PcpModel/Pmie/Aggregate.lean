import Mathlib.Algebra.GroupWithZero.Nat
import Mathlib.Data.List.SplitLengths
import PcpModel.Pmie.Expr

-- The aggregates and the quantifiers over hosts and over instances (aggregate.sk, meta).
namespace Pmie

open List

-- The statements that the skeleton of an operator is filled with.
structure Aggr (ι τ ο : Type) where
  top : ι → τ
  loop : τ → ι → τ
  bot : Nat → τ → ο
  notvalid : Option ο

section Operators

variable {δ : Type}

def cndSum [Add δ] : Aggr δ δ δ where
  top := id
  loop := (· + ·)
  bot _ a := a
  notvalid := none

def cndAvg [Add δ] [Div δ] [NatCast δ] : Aggr δ δ δ where
  top := id
  loop := (· + ·)
  bot n a := a / n
  notvalid := none

def cndMax [LT δ] [DecidableLT δ] : Aggr δ δ δ where
  top := id
  loop a v := if v > a then v else a
  bot _ a := a
  notvalid := none

def cndMin [LT δ] [DecidableLT δ] : Aggr δ δ δ where
  top := id
  loop a v := if v < a then v else a
  bot _ a := a
  notvalid := none

def cndAll : Aggr Truth Truth Truth where
  top := id
  loop a v := if v = .FALSE then .FALSE else if v = .DUNNO ∧ a ≠ .DUNNO then .DUNNO else a
  bot _ a := a
  notvalid := some .DUNNO

def cndSome : Aggr Truth Truth Truth where
  top := id
  loop a v := if v = .TRUE then .TRUE else if v = .DUNNO ∧ a ≠ .DUNNO then .DUNNO else a
  bot _ a := a
  notvalid := some .DUNNO

-- `quota n` is the number of values that the percentage asks for.
def cndPcnt (quota : Nat → Int) : Aggr Truth Nat Truth where
  top := Truth.toNat
  loop a v := a + v.toNat
  bot n a := .ofBool (a ≥ quota n)
  notvalid := some .DUNNO

def cndCount [NatCast δ] : Aggr Truth Nat δ where
  top := Truth.toNat
  loop a v := a + v.toNat
  bot _ a := a
  notvalid := none

end Operators

namespace Aggr

variable (agg : Aggr ι τ ο)

def walk (a : τ) : Nat → List ι → Option (τ × List ι)
  | 0, ip => some (a, ip)
  | n + 1, _ :: v :: ip => walk (agg.loop a v) n (v :: ip)
  | _ + 1, _ => none

def aggregate (n : Nat) : List ι → Option (ο × List ι)
  | [] => none
  | v :: ip => (agg.walk (agg.top v) (n - 1) (v :: ip)).map fun (a, ip) => (agg.bot n a, ip)

-- The loop over the hosts, and whether each of them had values.
def hosts : List Int → List ι → Option (List ο × Bool)
  | [], _ => some ([], true)
  | n :: ns, ip =>
    if n < 1 then
      some (agg.notvalid.toList, false)
    else do
      let (v, ip) ← agg.aggregate n.toNat ip
      let (vs, ok) ← hosts ns ip
      some (v :: vs, ok)

def run : List ι → Option ο
  | [] => none
  | v :: l => some (agg.bot (l.length + 1) (l.foldl agg.loop (agg.top v)))

end Aggr

theorem cndMax_run [LinearOrder δ] {v : δ} {l : List δ} :
    ∃ a ∈ v :: l, cndMax.run (v :: l) = some a ∧ ∀ b ∈ v :: l, b ≤ a := by
  induction l generalizing v
  case nil => exact ⟨v, mem_cons_self, rfl, by simp⟩
  case cons w l ih =>
    obtain ⟨a, ha, hr, hb⟩ := @ih (if w > v then w else v)
    simp only [mem_cons, forall_eq_or_imp] at ha hb ⊢
    refine ⟨a, ?_, hr, ?_⟩ <;> grind

theorem cndMin_run [LinearOrder δ] {v : δ} {l : List δ} :
    ∃ a ∈ v :: l, cndMin.run (v :: l) = some a ∧ ∀ b ∈ v :: l, a ≤ b :=
  @cndMax_run δᵒᵈ _ v l

theorem cndAvg_run [Add δ] [Div δ] [NatCast δ] {l : List δ} :
    cndAvg.run l = (cndSum.run l).map (· / (l.length : δ)) := by
  cases l <;> rfl

-- Nothing is known of an evaluator that reads behind the values of its argument.
namespace Expr

variable (agg : Aggr ι τ ο) (x : Expr ο) (arg1 : Expr ι)

def cndHost : Option (Expr ο) :=
  if arg1.valid ≠ 0 ∧ arg1.hdom > 0 then do
    let (v, _) ← agg.aggregate arg1.hdom.toNat arg1.now
    x.rotate.put [v] arg1.stamp
  else
    x.rotate.invalid

def cndInst : Option (Expr ο) :=
  if arg1.valid ≠ 0 ∧ x.hdom ≠ 0 then do
    let ns := if x.hdom.natAbs = 1 then [arg1.eIdom] else
      (x.metrics.take x.hdom.toNat).map Metric.mIdom
    let (vs, ok) ← agg.hosts ns arg1.now
    if ok ∨ agg.notvalid.isSome then
      x.rotate.put vs arg1.stamp
    else
      (x.rotate.write vs).invalid
  else
    x.rotate.invalid

end Expr

namespace Aggr

variable {agg : Aggr ι τ ο}

theorem walk_eq : ∀ {l : List ι}, agg.walk a l.length (v :: (l ++ ip)) =
    some (l.foldl agg.loop a, (v :: (l ++ ip)).drop l.length)
  | [] => rfl
  | w :: l => by
    simp only [length_cons, cons_append, walk, drop_succ_cons, foldl_cons]
    exact walk_eq

-- The aggregate is the one of the next values, and the pointer is not behind them afterwards.
theorem aggregate_eq (hn : 1 ≤ n) (h : n ≤ ip.length) :
    ∃ v, agg.run (ip.take n) = some v ∧ agg.aggregate n ip = some (v, ip.drop (n - 1)) := by
  obtain ⟨k, rfl⟩ := Nat.exists_eq_add_of_le' hn
  cases ip with
  | nil => simp at h
  | cons v ip =>
    have hl : (ip.take k).length = k := length_take_of_le (Nat.le_of_succ_le_succ h)
    have hw : agg.walk (agg.top v) (ip.take k).length (v :: (ip.take k ++ ip.drop k)) = _ := walk_eq
    rw [hl, take_append_drop] at hw
    refine ⟨_, rfl, ?_⟩
    simp [aggregate, hw, hl]

-- The values that the loop over the hosts reads: only those of the first host are its own.
def shifted : List Nat → List ι → List (List ι)
  | [], _ => []
  | n :: ns, ip => ip.take n :: shifted ns (ip.drop (n - 1))

@[simp]
theorem shifted_length : ∀ {ns : List Nat} {ip : List ι}, (shifted ns ip).length = ns.length
  | [], _ => rfl
  | _ :: _, _ => congrArg (· + 1) shifted_length

theorem hosts_eq : ∀ {ns : List Nat} {ip : List ι}, (∀ n ∈ ns, 1 ≤ n) → ns.sum ≤ ip.length →
    ∃ vs, agg.hosts (ns.map Int.ofNat) ip = some (vs, true) ∧
      vs.map some = (shifted ns ip).map agg.run
  | [], _, _, _ => ⟨[], rfl, rfl⟩
  | n :: ns, ip, hn, h => by
    obtain ⟨hn₁, hn⟩ := forall_mem_cons.mp hn
    rw [sum_cons] at h
    obtain ⟨v, hv, ha⟩ := @aggregate_eq _ _ _ agg n ip hn₁ (by omega)
    have hd : ns.sum ≤ (ip.drop (n - 1)).length := by
      rw [length_drop]
      omega
    obtain ⟨vs, hs, hm⟩ := hosts_eq hn hd
    refine ⟨v :: vs, ?_, ?_⟩
    · have hi : ¬(Int.ofNat n < 1) := Int.not_lt.mpr (Int.ofNat_le.mpr hn₁)
      have ht : (Int.ofNat n).toNat = n := rfl
      rw [map_cons, hosts, if_neg hi, ht, ha]
      simp [hs]
    · simp [shifted, hv, hm]

end Aggr

namespace Expr

-- An aggregate over instances, and an argument that has the values of its hosts one after another.
structure Laid (ns : List Nat) (x : Expr ο) (arg1 : Expr ι) : Prop where
  valid : arg1.valid ≠ 0
  hdom : x.hdom = ns.length
  tspan : x.tspan = ns.length
  metrics : x.metrics.map Metric.mIdom = ns.map Int.ofNat
  eIdom : arg1.eIdom = ns.sum
  values : arg1.tspan = ns.sum

variable {x : Expr ο} {arg1 : Expr ι}

theorem Laid.hosts (h : Laid ns x arg1) : (if x.hdom.natAbs = 1 then [arg1.eIdom] else
    (x.metrics.take x.hdom.toNat).map Metric.mIdom) = ns.map Int.ofNat := by
  have hl : x.metrics.length = ns.length := by simpa using congrArg length h.metrics
  split
  case isTrue h₁ =>
    rw [h.hdom] at h₁
    obtain ⟨n, rfl⟩ := length_eq_one_iff.mp h₁
    simp [h.eIdom]
  case isFalse =>
    rw [h.hdom, Int.toNat_natCast, ← hl, take_length, h.metrics]

theorem Laid.eval {agg : Aggr ι τ ο} (h : Laid ns x arg1) (hs : ns ≠ []) (hn : ∀ n ∈ ns, 1 ≤ n) :
    ∃ x', x.cndInst agg arg1 = some x' ∧ x'.valid ≠ 0 ∧
      x'.now.map some = (Aggr.shifted ns arg1.now).map agg.run := by
  have hv : ns.sum ≤ arg1.now.length := by simp [h.values]
  obtain ⟨vs, he, hm⟩ := @Aggr.hosts_eq _ _ _ agg ns arg1.now hn hv
  have hd : x.hdom ≠ 0 := by simpa [h.hdom] using hs
  have hl : vs.length = x.rotate.tspan := by
    simpa [h.tspan] using congrArg length hm
  refine ⟨x.rotate.put vs arg1.stamp, ?_, Nat.succ_ne_zero _, ?_⟩
  · simp only [cndInst, if_pos (And.intro h.valid hd), h.hosts, he]
    rfl
  · rw [put_now hl, hm]

theorem cndHost_eval {agg : Aggr ι τ ο} (hx : x.tspan = 1) (hv : arg1.valid ≠ 0)
    (hh : arg1.hdom = (v :: l).length) (hw : arg1.now = v :: l) :
    ∃ x', x.cndHost agg arg1 = some x' ∧ x'.valid ≠ 0 ∧ x'.now.map some = [agg.run (v :: l)] := by
  obtain ⟨r, hr, ha⟩ := @Aggr.aggregate_eq _ _ _ agg (v :: l).length _ (Nat.succ_pos _)
    (Nat.le_refl _)
  rw [take_length] at hr
  refine ⟨x.rotate.put [r] arg1.stamp, ?_, Nat.succ_ne_zero _, ?_⟩
  · have hd : arg1.hdom > 0 := hh ▸ Int.natCast_pos.mpr (Nat.succ_pos _)
    rw [cndHost, if_pos (And.intro hv hd), hh, hw, Int.toNat_natCast, ha]
    rfl
  · rw [put_now (by simp [hx]), hr]
    rfl

theorem laid_single {l : List ι} (v : ο) (h : l.length = ns.sum) :
    Laid ns (single ns.length 0 (ns.map fun n => ⟨.ofNat n, none⟩) (ns.map fun _ => v))
      (single 0 ns.sum [] l) where
  valid := Nat.one_ne_zero
  hdom := rfl
  tspan := length_map _
  metrics := map_map
  eIdom := rfl
  values := h

-- A value of the last instance of the first host reaches the second one.
theorem sum_shifted (ns : List Nat) (h₁ : 1 ≤ n₁) (h₂ : 1 ≤ n₂) :
    ∃ l : List Nat, l.length = (n₁ :: n₂ :: ns).sum ∧
      (Aggr.shifted (n₁ :: n₂ :: ns) l).map cndSum.run ≠
        ((n₁ :: n₂ :: ns).splitLengths l).map cndSum.run := by
  obtain ⟨k₁, rfl⟩ := Nat.exists_eq_add_of_le' h₁
  obtain ⟨k₂, rfl⟩ := Nat.exists_eq_add_of_le' h₂
  have hz : ∀ a k, (replicate k 0).foldl (· + ·) a = a := by
    intro a k
    induction k <;> simp [replicate_succ, *]
  refine ⟨replicate k₁ 0 ++ 1 :: replicate (k₂ + 1 + ns.sum) 0, ?_, fun h => ?_⟩
  · simp
    omega
  · have := congrArg (fun l => l[1]?) h
    simp [Aggr.shifted, drop_append, replicate_succ, Aggr.run, cndSum,
      hz] at this

-- The aggregates are those of the values of each host if there is only one.
theorem cndInst_own (hs : ns ≠ []) (hn : ∀ n ∈ ns, 1 ≤ n) :
    (∀ (ι τ ο : Type) (agg : Aggr ι τ ο) (x : Expr ο) (arg1 : Expr ι), Laid ns x arg1 →
      ∃ x', x.cndInst agg arg1 = some x' ∧ x'.valid ≠ 0 ∧
        x'.now.map some = (ns.splitLengths arg1.now).map agg.run) ↔ ns.length = 1 := by
  constructor
  · intro h
    match ns, hs, hn with
    | [_], _, _ => rfl
    | n₁ :: n₂ :: ns, _, hn =>
      obtain ⟨h₁, hn'⟩ := forall_mem_cons.mp hn
      obtain ⟨l, hl, hne⟩ := sum_shifted ns h₁ (hn' _ mem_cons_self)
      have hL := laid_single 0 hl
      obtain ⟨x', he, -, hm⟩ := h _ _ _ cndSum _ _ hL
      obtain ⟨x'', he', -, hm'⟩ := @Laid.eval _ _ _ _ _ _ cndSum hL (cons_ne_nil _ _) hn
      cases Option.some.inj (he.symm.trans he')
      exact absurd (hm'.symm.trans hm) (by simpa using hne)
  · intro h ι τ ο agg x arg1 hL
    obtain ⟨x', he, hv, hm⟩ := hL.eval hs hn
    refine ⟨x', he, hv, hm.trans ?_⟩
    obtain ⟨n, rfl⟩ := length_eq_one_iff.mp h
    simp [Aggr.shifted]

theorem cndInst_own_three : ∃ x', (single 1 0 [⟨3, none⟩] [0]).cndInst cndSum
    (single 0 3 [] [1, 2, 3]) = some x' ∧ x'.valid ≠ 0 ∧
      x'.now.map some = (List.splitLengths [3] [1, 2, 3]).map cndSum.run :=
  (cndInst_own (cons_ne_nil 3 []) (forall_mem_singleton.mpr (by decide))).mpr rfl
    _ _ _ cndSum _ _ (laid_single 0 rfl)

-- The sum of the second of two hosts, with the values 3 and 4, is 5.
theorem cndInst_shared : ((single 2 0 [⟨2, none⟩, ⟨2, none⟩] [0, 0]).cndInst cndSum
    (single 0 4 [] [1, 2, 3, 4])).map now = some [3, 5] ∧
      (List.splitLengths [2, 2] [1, 2, 3, 4]).map cndSum.run = [some 3, some 7] := by
  decide

end Expr

-- The conjunction and the disjunction of three-valued logic.
def forall3 (v : List Truth) : Truth :=
  if .FALSE ∈ v then .FALSE else if ∀ t ∈ v, t = .TRUE then .TRUE else .DUNNO

def exists3 (v : List Truth) : Truth :=
  if .TRUE ∈ v then .TRUE else if ∀ t ∈ v, t = .FALSE then .FALSE else .DUNNO

-- What an aggregate gives for the values of all hosts, or of all instances of one host.
structure Gives (agg : Aggr ι τ ο) (w : List ι) (r : ο) : Prop where
  host : ∀ (x : Expr ο) (arg1 : Expr ι), x.tspan = 1 → arg1.valid ≠ 0 → arg1.hdom = w.length →
    arg1.now = w → ∃ x', x.cndHost agg arg1 = some x' ∧ x'.valid ≠ 0 ∧ x'.now = [r]
  inst : ∀ (x : Expr ο) (arg1 : Expr ι), Expr.Laid [w.length] x arg1 → arg1.now = w →
    ∃ x', x.cndInst agg arg1 = some x' ∧ x'.valid ≠ 0 ∧ x'.now = [r]

theorem gives_iff {agg : Aggr ι τ ο} : Gives agg (v :: l) r ↔ agg.run (v :: l) = some r := by
  have hn : 1 ≤ (v :: l).length := Nat.succ_pos _
  constructor
  case mp =>
    intro h
    let arg1 := Expr.single (v :: l).length 0 [] (v :: l)
    have hw : arg1.now = v :: l := Expr.single_now
    obtain ⟨x', he, -, hx⟩ := h.host (.single 1 0 [] [r]) arg1 rfl Nat.one_ne_zero rfl hw
    obtain ⟨x'', he', -, hm⟩ := @Expr.cndHost_eval _ _ (.single 1 0 [] [r]) _ _ _ _ agg rfl
      Nat.one_ne_zero rfl hw
    cases Option.some.inj (he.symm.trans he')
    simpa [hx, eq_comm] using hm
  case mpr =>
    intro h
    constructor
    case host =>
      intro x arg1 hx hv hh hw
      obtain ⟨x', he, hv, hm⟩ := @Expr.cndHost_eval _ _ _ _ _ _ _ agg hx hv hh hw
      exact ⟨x', he, hv, by simpa [h, map_eq_cons_iff] using hm⟩
    case inst =>
      intro x arg1 hL hw
      obtain ⟨x', he, hv, hm⟩ := @Expr.Laid.eval _ _ _ _ _ _ agg hL (cons_ne_nil _ _)
        (forall_mem_singleton.mpr hn)
      refine ⟨x', he, hv, ?_⟩
      simpa [Aggr.shifted, hw, h, map_eq_cons_iff] using hm

structure Quantified (v : List Truth) : Prop where
  all : ∀ w, w.Perm v → Gives cndAll w (forall3 v)
  any : ∀ w, w.Perm v → Gives cndSome w (exists3 v)
  count : ∀ w, w.Perm v → Gives cndCount w (v.count .TRUE : Int)
  pcnt : ∀ quota w, w.Perm v → Gives (cndPcnt quota) w (.ofBool (v.count .TRUE ≥ quota v.length))

theorem forall3_perm (h : w.Perm v) : forall3 w = forall3 v := by
  simp [forall3, h.mem_iff]

theorem exists3_perm (h : w.Perm v) : exists3 w = exists3 v := by
  simp [exists3, h.mem_iff]

def decisive (t v : Truth) (l : List Truth) : Truth :=
  (l.reverse.find? (· ≠ t)).getD v

theorem foldl_decisive : ∀ {l : List Truth},
    l.foldl (fun a v => if v = t then a else v) a = decisive t a l
  | [] => rfl
  | v :: l => by
    rw [foldl_cons, foldl_decisive, decisive, decisive, reverse_cons, find?_append]
    by_cases h : v = t <;> cases l.reverse.find? (· ≠ t) <;> simp [h]

theorem decisive_mem : decisive t v l ∈ v :: l := by
  rw [decisive]
  cases h : l.reverse.find? (· ≠ t) with
  | none => exact mem_cons_self
  | some u => exact mem_cons_of_mem _ (mem_reverse.mp (mem_of_find?_eq_some h))

theorem eq_of_decisive (h : decisive t v l = t) : ∀ u ∈ v :: l, u = t := by
  rw [decisive] at h
  cases hf : l.reverse.find? (· ≠ t) with
  | none =>
    rw [hf] at h
    refine forall_mem_cons.mpr ⟨h, fun u hu => ?_⟩
    simpa using find?_eq_none.mp hf u (mem_reverse.mpr hu)
  | some u =>
    rw [hf, Option.getD_some] at h
    simpa [h] using find?_some hf

theorem cndAll_run : cndAll.run (v :: l) = some (decisive .TRUE v l) := by
  have hl : cndAll.loop = fun a v => if v = .TRUE then a else v := by
    funext a v
    cases a <;> cases v <;> rfl
  simp only [Aggr.run, hl, foldl_decisive]
  rfl

theorem cndSome_run : cndSome.run (v :: l) = some (decisive .FALSE v l) := by
  have hl : cndSome.loop = fun a v => if v = .FALSE then a else v := by
    funext a v
    cases a <;> cases v <;> rfl
  simp only [Aggr.run, hl, foldl_decisive]
  rfl

-- An unknown value counts as two true ones.
theorem foldl_count : ∀ {l : List Truth} {a : Nat},
    l.foldl (fun a v => a + v.toNat) a = a + l.count .TRUE + 2 * l.count .DUNNO
  | [], _ => rfl
  | v :: l, a => by
    rw [foldl_cons, foldl_count]
    cases v <;> simp [Truth.toNat] <;> omega

theorem toNat_foldl : l.foldl (fun a v => a + v.toNat) (Truth.toNat v) =
    (v :: l).count .TRUE + 2 * (v :: l).count .DUNNO := by
  rw [foldl_count]
  cases v <;> simp [Truth.toNat] <;> omega

theorem cndCount_run : cndCount.run (v :: l) =
    some (((v :: l).count .TRUE + 2 * (v :: l).count .DUNNO : Nat) : Int) :=
  congrArg (fun n : Nat => some (n : Int)) toNat_foldl

theorem cndPcnt_run : (cndPcnt quota).run (v :: l) = some (.ofBool
    (((v :: l).count .TRUE + 2 * (v :: l).count .DUNNO : Nat) ≥ quota (v :: l).length)) :=
  congrArg (fun n : Nat => some (Truth.ofBool (n ≥ quota (v :: l).length))) toNat_foldl

section Known

variable (h : Truth.DUNNO ∉ v :: l)
include h

theorem forall3_eq : forall3 (v :: l) = decisive .TRUE v l := by
  cases hd : decisive .TRUE v l with
  | FALSE => exact if_pos (hd ▸ decisive_mem)
  | TRUE =>
    have ha := eq_of_decisive hd
    have hf : Truth.FALSE ∉ v :: l := fun hf => nomatch ha .FALSE hf
    rw [forall3, if_neg hf, if_pos ha]
  | DUNNO => exact absurd (hd ▸ decisive_mem) h

theorem exists3_eq : exists3 (v :: l) = decisive .FALSE v l := by
  cases hd : decisive .FALSE v l with
  | TRUE => exact if_pos (hd ▸ decisive_mem)
  | FALSE =>
    have ha := eq_of_decisive hd
    have ht : Truth.TRUE ∉ v :: l := fun ht => nomatch ha .TRUE ht
    rw [exists3, if_neg ht, if_pos ha]
  | DUNNO => exact absurd (hd ▸ decisive_mem) h

end Known

end Pmie
