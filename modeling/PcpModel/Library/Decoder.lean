import Mathlib.Tactic.Ring
import PcpModel.Library.CInt
import PcpModel.Library.Memory

-- Programs that read a memory, keep a log of what they did, and may fail.
namespace Memory

open List Nat

structure Decoded (ω ε α : Type) where
  val : Except ε α
  log : List ω

structure Decoder (ω ε α : Type) where
  run : Bytes → Decoded ω ε α

namespace Decoder

instance : CoeFun (Decoder ω ε α) fun _ => Bytes → Decoded ω ε α where
  coe := run

instance : Monad (Decoder ω ε) where
  pure a := ⟨fun _ => ⟨.ok a, []⟩⟩
  bind x f := ⟨fun m =>
    match (x m).val with
    | .ok a => ⟨(f a m).val, (x m).log ++ (f a m).log⟩
    | .error e => ⟨.error e, (x m).log⟩⟩

def fail (e : ε) : Decoder ω ε α :=
  ⟨fun _ => ⟨.error e, []⟩⟩

def read (w : ω) (f : Bytes → α) : Decoder ω ε α :=
  ⟨fun m => ⟨.ok (f m), [w]⟩⟩

def tell (w : ω) : Decoder ω ε Unit :=
  read w fun _ => ()

-- An `int` in the order of bytes of the network.
def ntohl (a : Int) : Decoder Access ε Int :=
  read ⟨a, 4⟩ fun m => CInt.ofWord (be32 m a)

def require (p : Prop) [Decidable p] (e : ε) : Decoder ω ε Unit :=
  if p then pure () else fail e

-- A number of records, each of which tells where the next one starts.
def records (step : σ → Decoder ω ε (α × σ)) : Nat → σ → Decoder ω ε (List α × σ)
  | 0, s => pure ([], s)
  | n + 1, s => do
    let r ← step s
    let rs ← records step n r.2
    return (r.1 :: rs.1, rs.2)

def Logs (P : ω → Prop) (x : Decoder ω ε α) (m : Bytes) : Prop :=
  ∀ w ∈ (x m).log, P w

variable {P : ω → Prop} {x : Decoder ω ε α} {f : α → Decoder ω ε β} {m : Bytes}

@[simp]
theorem pure_val : ((pure a : Decoder ω ε α) m).val = .ok a :=
  rfl

@[simp]
theorem fail_val : ((fail e : Decoder ω ε α) m).val = .error e :=
  rfl

@[simp]
theorem read_val : ((read w g : Decoder ω ε α) m).val = .ok (g m) :=
  rfl

theorem bind_val_ok (h : (x m).val = .ok a) : ((x >>= f) m).val = (f a m).val := by
  simp [bind, h]

theorem bind_val_error (h : (x m).val = .error e) : ((x >>= f) m).val = .error e := by
  simp [bind, h]

theorem bind_pure_val {g : α → β} : ((x >>= fun a => pure (g a)) m).val = (x m).val.map g := by
  cases h : (x m).val
  case error e => rw [bind_val_error h, Except.map]
  case ok a => rw [bind_val_ok h, pure_val, Except.map]

@[simp]
theorem read_bind_val : ((read w g >>= f) m).val = (f (g m) m).val :=
  bind_val_ok rfl

@[simp]
theorem tell_bind_val {y : Decoder ω ε β} : ((tell w >>= fun _ => y) m).val = (y m).val :=
  bind_val_ok rfl

theorem require_bind_val [Decidable p] {y : Decoder ω ε β} (h : p) :
    ((require p e >>= fun _ => y) m).val = (y m).val :=
  bind_val_ok (a := ()) (by simp [require, h])

theorem require_bind_val_not [Decidable p] {y : Decoder ω ε β} (h : ¬p) :
    ((require p e >>= fun _ => y) m).val = .error e :=
  bind_val_error (by simp [require, h])

theorem bind_val_eq_ok : ((x >>= f) m).val = .ok b ↔
    ∃ a, (x m).val = .ok a ∧ (f a m).val = .ok b := by
  cases h : (x m).val
  case error e => simp [bind_val_error h]
  case ok a => simp [bind_val_ok h]

@[simp]
theorem logs_pure : Logs P (pure a : Decoder ω ε α) m :=
  nofun

@[simp]
theorem logs_fail : Logs P (fail e : Decoder ω ε α) m :=
  nofun

@[simp]
theorem logs_require [Decidable p] : Logs P (require p e : Decoder ω ε Unit) m := by
  by_cases h : p <;> simp [require, h]

@[simp]
theorem logs_read : Logs P (read w g : Decoder ω ε α) m ↔ P w := by
  simp [Logs, read]

@[simp]
theorem logs_tell : Logs P (tell w : Decoder ω ε Unit) m ↔ P w :=
  logs_read

theorem logs_bind : Logs P (x >>= f) m ↔
    Logs P x m ∧ ∀ a, (x m).val = .ok a → Logs P (f a) m := by
  cases h : (x m).val
  case error e => simp [Logs, bind, h]
  case ok a => simp [Logs, bind, h, or_imp, forall_and]

@[simp]
theorem logs_bind_pure {g : α → β} : Logs P (x >>= fun a => pure (g a)) m ↔ Logs P x m := by
  simp [logs_bind]

@[simp]
theorem logs_read_bind :
    Logs P (read w g >>= f) m ↔ P w ∧ Logs P (f (g m)) m := by
  simp [logs_bind]

@[simp]
theorem logs_tell_bind {y : Decoder ω ε β} :
    Logs P (tell w >>= fun _ => y) m ↔ P w ∧ Logs P y m :=
  logs_read_bind

@[simp]
theorem logs_require_bind [Decidable p] {y : Decoder ω ε β} :
    Logs P (require p e >>= fun _ => y) m ↔ (p → Logs P y m) := by
  by_cases h : p <;> simp [logs_bind, require, h]

section Records

variable {step : σ → Decoder ω ε (α × σ)}

-- The state in which a record is reached, if the ones before it can be decoded.
def reach (step : σ → Decoder ω ε (α × σ)) (m : Bytes) (s : σ) : Nat → Option σ
  | 0 => some s
  | k + 1 => (reach step m s k).bind fun s => (step s m).val.toOption.map (·.2)

theorem reach_succ (h : (step s m).val = .ok r) : reach step m s (k + 1) = reach step m r.2 k := by
  induction k
  case zero => simp [reach, h, Except.toOption]
  case succ k hi => rw [reach, hi, reach]

theorem reach_error (h : (step s m).val = .error e) : reach step m s (k + 1) = none := by
  induction k
  case zero => simp [reach, h, Except.toOption]
  case succ k hi => rw [reach, hi, Option.bind_none]

theorem logs_records : Logs P (records step n s) m ↔
    ∀ k < n, ∀ s' ∈ reach step m s k, Logs P (step s') m := by
  induction n generalizing s
  case zero => simp [records]
  case succ n hi =>
    rw [records, logs_bind, forall_lt_succ_left]
    refine and_congr (by simp [reach]) ?_
    cases h : (step s m).val
    case error e => simp [reach_error h]
    case ok r => simp [reach_succ h, hi]

-- The invariant is about the records that remain.
theorem records_val {I : σ → List β → Prop}
    (hs : ∀ s x xs, I s (x :: xs) → ∃ s', (step s m).val = .ok (g x, s') ∧ I s' xs) (h₀ : I s xs) :
    ∃ s', (records step xs.length s m).val = .ok (xs.map g, s') ∧ I s' [] := by
  induction xs generalizing s
  case nil => exact ⟨s, rfl, h₀⟩
  case cons x xs hi =>
    obtain ⟨s₁, h₁, hi₁⟩ := hs s x xs h₀
    obtain ⟨s₂, h₂, hi₂⟩ := hi hi₁
    refine ⟨s₂, ?_, hi₂⟩
    rw [length_cons, records, bind_val_ok h₁, bind_val_ok h₂, pure_val, map_cons]

theorem reach_of_records (h : (records step n s m).val = .ok (xs, s')) :
    s' ∈ reach step m s n := by
  induction n generalizing s xs
  case zero =>
    cases h
    rfl
  case succ n hi =>
    obtain ⟨r, hr, h⟩ := bind_val_eq_ok.mp h
    obtain ⟨rs, hrs, h⟩ := bind_val_eq_ok.mp h
    cases h
    rw [reach_succ hr]
    exact hi hrs

theorem records_image {step : Int → Decoder ω ε (β × Int)} {f : α → List UInt8}
    {xs : List α} (hs : ∀ x ∈ xs, ∀ a, Holds m a (f x) → a + (f x).length ≤ len →
      (step a m).val = .ok (g x, a + (f x).length))
    (h : Holds m a (xs.flatMap f)) (hl : a + (xs.flatMap f).length ≤ len) :
    (records step xs.length a m).val = .ok (xs.map g, a + (xs.flatMap f).length) := by
  induction xs generalizing a
  case nil => simp [records]
  case cons x xs hi =>
    rw [flatMap_cons, Holds.append] at h
    simp only [flatMap_cons, length_append, cast_add] at hl ⊢
    rw [forall_mem_cons] at hs
    rw [length_cons, records, bind_val_ok (hs.left a h.left (by omega)),
      bind_val_ok (hi hs.right h.right (by omega)), pure_val, map_cons, add_assoc]

theorem records_error (hk : k < n) (h : s' ∈ reach step m s k) (he : (step s' m).val = .error e) :
    (records step n s m).val = .error e := by
  induction n generalizing s k
  case zero => omega
  case succ n hi =>
    cases k
    case zero =>
      cases h
      rw [records, bind_val_error he]
    case succ k =>
      cases hv : (step s m).val
      case error e' => simp [reach_error hv] at h
      case ok r =>
        rw [reach_succ hv] at h
        rw [records, bind_val_ok hv, bind_val_error (hi (by omega) h)]

section Places

variable {place : Nat → σ} {Whole Near : Nat → Prop}
variable (hok : ∀ k, (∀ j < k, Whole j) → Whole k →
  ∃ a, (step (place k) m).val = .ok (a, place (k + 1)))
variable (herr : ∀ k, (∀ j < k, Whole j) → Near k → ¬Whole k → (step (place k) m).val = .error e)
include hok

-- If it is known where the records are, one is reached after records that are whole.
theorem reach_place (hw : ∀ j < k, Whole j) : place k ∈ reach step m (place 0) k := by
  induction k
  case zero => rfl
  case succ k hi =>
    have hw' : ∀ j < k, Whole j := fun j hj => hw j (lt_succ_of_lt hj)
    obtain ⟨a, ha⟩ := hok k hw' (hw k (lt_succ_self k))
    rw [reach, hi hw']
    simp [ha, Except.toOption]

include herr

theorem mem_reach_place (hn : ∀ j < k, (∀ i < j, Whole i) → Near j)
    (h : s ∈ reach step m (place 0) k) : s = place k ∧ ∀ j < k, Whole j := by
  induction k generalizing s
  case zero => exact ⟨(Option.some.inj h).symm, nofun⟩
  case succ k hi =>
    obtain ⟨s₁, h₁, hs⟩ := Option.bind_eq_some_iff.mp h
    obtain ⟨rfl, hw⟩ := hi (fun j hj => hn j (lt_succ_of_lt hj)) h₁
    by_cases hk : Whole k
    case pos =>
      obtain ⟨a, ha⟩ := hok k hw hk
      rw [ha] at hs
      exact ⟨(Option.some.inj hs).symm, forall_lt_succ_right.mpr ⟨hw, hk⟩⟩
    case neg =>
      rw [herr k hw (hn k (lt_succ_self k) hw) hk] at hs
      cases hs

theorem logs_records_place
    (hl : ∀ k < n, (∀ j < k, Whole j) → (Logs P (step (place k)) m ↔ Near k)) :
    Logs P (records step n (place 0)) m ↔ ∀ k < n, (∀ j < k, Whole j) → Near k := by
  rw [logs_records]
  constructor
  case mp => exact fun h k hk hw => (hl k hk hw).mp (h k hk _ (reach_place hok hw))
  case mpr =>
    intro h k hk s hs
    obtain ⟨rfl, hw⟩ := mem_reach_place hok herr (fun j hj => h j (hj.trans hk)) hs
    exact (hl k hk hw).mpr (h k hk hw)

-- The first record that is not whole makes the decoder fail.
theorem records_error_place (hn : ∀ k < n, (∀ j < k, Whole j) → Near k) (hk : k < n)
    (h : ¬Whole k) : (records step n (place 0) m).val = .error e := by
  induction k using Nat.strong_induction_on
  case h k hi =>
    by_cases hw : ∀ j < k, Whole j
    case pos => exact records_error hk (reach_place hok hw) (herr k hw (hn k hk hw) h)
    case neg =>
      obtain ⟨j, hj, hw⟩ := by simpa using hw
      exact hi j hj (hj.trans hk) hw

end Places

end Records

section Sized

variable {step : Int → Decoder ω ε (α × Int)} {size n : Nat} {len : Int} {g : Int → α}

theorem add_mul_succ (a : Int) (size k : Nat) :
    a + size + size * k = a + size * (k + 1 : Nat) := by
  push_cast
  ring

theorem reach_sized (hs : ∀ a < len, (step a m).val = .ok (g a, a + size))
    (he : ∀ a ≥ len, ∃ e, (step a m).val = .error e) :
    reach step m a k = some b ↔ b = a + size * k ∧ ∀ j < k, a + size * j < len := by
  induction k generalizing a
  case zero => simp [reach, eq_comm]
  case succ k hi =>
    rw [forall_lt_succ_left, cast_zero, mul_zero]
    by_cases h : a < len
    case pos => simp [reach_succ (hs a h), hi, add_mul_succ, h]
    case neg =>
      obtain ⟨e, he⟩ := he a (not_lt.mp h)
      simp [reach_error he, h]

theorem records_sized (hs : ∀ a < len, (step a m).val = .ok (g a, a + size))
    (h : ∀ k < n, a + size * k < len) :
    (records step n a m).val =
      .ok ((range n).map fun k => g (a + size * (k : Nat)), a + size * n) := by
  induction n generalizing a
  case zero => simp [records]
  case succ n hi =>
    simp only [forall_lt_succ_left, cast_zero, mul_zero, add_zero, ← add_mul_succ] at h
    rw [records, bind_val_ok (hs a h.left), bind_val_ok (hi h.right)]
    simp only [range_succ_eq_map, map_cons, map_map, cast_zero, mul_zero,
      add_zero, add_mul_succ]
    rfl

theorem records_sized_error (hs : ∀ a < len, (step a m).val = .ok (g a, a + size))
    (he : ∀ a ≥ len, ∃ e, (step a m).val = .error e) (h : ¬∀ k < n, a + size * k < len) :
    ∃ e, (records step n a m).val = .error e := by
  induction n generalizing a
  case zero => simp at h
  case succ n hi =>
    simp only [forall_lt_succ_left, cast_zero, mul_zero, add_zero, ← add_mul_succ] at h
    by_cases ha : a < len
    case pos =>
      obtain ⟨e, he⟩ := hi fun hn => h ⟨ha, hn⟩
      exact ⟨e, by rw [records, bind_val_ok (hs a ha), bind_val_error he]⟩
    case neg =>
      obtain ⟨e, he⟩ := he a (not_lt.mp ha)
      exact ⟨e, by rw [records, bind_val_error he]⟩

end Sized

end Decoder

end Memory
