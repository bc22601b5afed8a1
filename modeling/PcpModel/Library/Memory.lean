import Mathlib.Algebra.Order.Ring.Int

-- A memory of bytes, and programs that work on it and keep a log of what they did.
namespace Memory

open List

abbrev Bytes := Int → UInt8

structure Access where
  addr : Int
  size : Nat
  deriving DecidableEq

namespace Access

def Within (a : Access) (len : Int) : Prop :=
  0 ≤ a.addr ∧ a.addr + a.size ≤ len

instance {a : Access} : Decidable (a.Within len) :=
  inferInstanceAs (Decidable (_ ∧ _))

end Access

section Bytes

variable (m : Bytes) (a : Int)

def rev (n : Nat) : Bytes := fun i =>
  if a ≤ i ∧ i < a + n then m (2 * a + n - 1 - i) else m i

def write (l : List UInt8) : Bytes := fun i =>
  if a ≤ i then l.getD (i - a).toNat (m i) else m i

def copy (src : Bytes) (b : Int) (n : Nat) : Bytes := fun i =>
  if a ≤ i ∧ i < a + n then src (b + (i - a)) else m i

def be32 : Nat :=
  0x1000000 * (m a).toNat + 0x10000 * (m (a + 1)).toNat + 0x100 * (m (a + 2)).toNat +
    (m (a + 3)).toNat

def le32 : Nat :=
  0x1000000 * (m (a + 3)).toNat + 0x10000 * (m (a + 2)).toNat + 0x100 * (m (a + 1)).toNat +
    (m a).toNat

theorem be32_lt : be32 m a < 2 ^ 32 := by
  have h₀ := (m a).toNat_lt
  have h₁ := (m (a + 1)).toNat_lt
  have h₂ := (m (a + 2)).toNat_lt
  have h₃ := (m (a + 3)).toNat_lt
  unfold be32
  omega

theorem le32_lt : le32 m a < 2 ^ 32 := by
  have h₀ := (m a).toNat_lt
  have h₁ := (m (a + 1)).toNat_lt
  have h₂ := (m (a + 2)).toNat_lt
  have h₃ := (m (a + 3)).toNat_lt
  unfold le32
  omega

-- The bytes of a word, the most significant one first.
def be (n : Nat) : List UInt8 :=
  [.ofNat (n / 0x1000000), .ofNat (n / 0x10000), .ofNat (n / 0x100), .ofNat n]

def le (n : Nat) : List UInt8 :=
  (be n).reverse

@[simp]
theorem be_length : (be n).length = 4 :=
  rfl

@[simp]
theorem le_length : (le n).length = 4 :=
  rfl

def Holds (l : List UInt8) : Prop :=
  ∀ i (h : i < l.length), m (a + i) = l[i]

-- Nothing changes but in a set of addresses.
def Frame (s : Set Int) (m m' : Bytes) : Prop :=
  ∀ i ∉ s, m' i = m i

end Bytes

def span (a b : Int) : Set Int :=
  { i | a ≤ i ∧ i < b }

@[simp]
theorem mem_span : i ∈ span a b ↔ a ≤ i ∧ i < b :=
  .rfl

theorem span_subset (ha : a' ≤ a) (hb : b ≤ b') : span a b ⊆ span a' b' :=
  fun _ h => ⟨ha.trans h.left, h.right.trans_le hb⟩

theorem span_subset_right : b ≤ b' → span a b ⊆ span a b' :=
  span_subset le_rfl

namespace Holds

variable {m : Bytes}

@[simp]
theorem nil : Holds m a [] :=
  nofun

theorem append : Holds m a (l₁ ++ l₂) ↔ Holds m a l₁ ∧ Holds m (a + l₁.length) l₂ := by
  constructor
  · intro h
    constructor <;> intro i hi
    · have := h i (by simp; omega)
      rwa [getElem_append_left hi] at this
    · have := h (l₁.length + i) (by simpa using hi)
      simpa [add_assoc] using this
  · intro ⟨h₁, h₂⟩ i hi
    by_cases hl : i < l₁.length
    · rw [getElem_append_left hl, h₁ i hl]
    · have := h₂ (i - l₁.length) (by simp at hi; omega)
      rw [getElem_append_right (by omega), ← this]
      congr 1
      omega

@[simp]
theorem cons : Holds m a (b :: l) ↔ m a = b ∧ Holds m (a + 1) l := by
  rw [← singleton_append, append]
  simp [Holds]

theorem be32_eq (h : Holds m a (be n)) : be32 m a = n % 0x100000000 := by
  simp [be, add_assoc] at h
  simp [be32, h]
  omega

theorem le32_eq (h : Holds m a (le n)) : le32 m a = n % 0x100000000 := by
  simp [le, be, add_assoc] at h
  simp [le32, h]
  omega

theorem rev (h : Holds m a l) : Holds (rev m a l.length) a l.reverse := by
  intro i hi
  rw [length_reverse] at hi
  have := h (l.length - 1 - i) (by omega)
  rw [getElem_reverse, ← this, Memory.rev, if_pos (by omega)]
  congr 1
  omega

theorem write : Holds (write m a l) a l := by
  intro i hi
  simp [Memory.write, hi]

theorem copy (h : Holds src b l) (hn : l.length ≤ n) : Holds (copy m a src b n) a l := by
  intro i hi
  rw [Memory.copy, if_pos (by omega), ← h i hi]
  congr 1
  omega

theorem frame (h : Holds m a l) (hf : Frame s m m')
    (hd : ∀ i, a ≤ i → i < a + l.length → i ∉ s) : Holds m' a l := by
  intro i hi
  rw [hf _ <| hd _ (by omega) (by omega), h i hi]

end Holds

namespace Frame

theorem refl : Frame s m m :=
  fun _ _ => rfl

theorem trans (h : Frame s m m') (h' : Frame s m' m'') : Frame s m m'' :=
  fun i hi => (h' i hi).trans (h i hi)

theorem mono (h : Frame s m m') (hs : s ⊆ s') : Frame s' m m' :=
  fun i hi => h i (hi ∘ @hs i)

theorem rev {n : Nat} : Frame (span a (a + n)) m (rev m a n) :=
  fun _ hi => if_neg hi

theorem write : Frame (span a (a + l.length)) m (write m a l) := by
  intro i hi
  rw [mem_span] at hi
  by_cases h : a ≤ i
  · have : l[(i - a).toNat]? = none := by rw [getElem?_eq_none_iff]; omega
    simp [Memory.write, this]
  · simp [Memory.write, h]

end Frame

theorem Holds.beside_write (h : Holds m a l)
    (hd : a + l.length ≤ b ∨ b + k.length ≤ a) : Holds (Memory.write m b k) a l :=
  h.frame .write <| by simp only [mem_span]; omega

theorem Holds.beside_rev {n : Nat} (h : Holds m a l) (hd : a + l.length ≤ b ∨ b + n ≤ a) :
    Holds (Memory.rev m b n) a l :=
  h.frame .rev <| by simp only [mem_span]; omega

theorem rev_rev : rev (rev m a n) a n = m := by
  funext i
  by_cases h : a ≤ i ∧ i < a + n
  · have h' : a ≤ 2 * a + n - 1 - i ∧ 2 * a + n - 1 - i < a + n := by omega
    rw [rev, if_pos h, rev, if_pos h']
    congr 1
    omega
  · rw [rev, if_neg h, rev, if_neg h]

theorem rev_comm {b : Int} {n k : Nat} (h : a + n ≤ b ∨ b + k ≤ a) :
    rev (rev m a n) b k = rev (rev m b k) a n := by
  funext i
  by_cases ha : a ≤ i ∧ i < a + n
  · have hb : ¬(b ≤ i ∧ i < b + k) := by omega
    have hb' : ¬(b ≤ 2 * a + n - 1 - i ∧ 2 * a + n - 1 - i < b + k) := by omega
    simp [rev, hb, hb']
  · by_cases hb : b ≤ i ∧ i < b + k
    · have ha' : ¬(a ≤ 2 * b + k - 1 - i ∧ 2 * b + k - 1 - i < a + n) := by omega
      simp [rev, ha, ha']
    · simp [rev, ha, hb]

structure Outcome (ω α : Type) where
  val : α
  mem : Bytes
  log : List ω

structure Prog (ω α : Type) where
  run : Bytes → Outcome ω α

namespace Prog

instance : CoeFun (Prog ω α) fun _ => Bytes → Outcome ω α where
  coe := run

instance : Monad (Prog ω) where
  pure a := ⟨fun m => ⟨a, m, []⟩⟩
  bind x f := ⟨fun m =>
    let y := f (x m).val (x m).mem
    ⟨y.val, y.mem, (x m).log ++ y.log⟩⟩

variable {x : Prog ω α} {f : α → Prog ω β} {m : Bytes}

@[simp]
theorem pure_val : ((pure a : Prog ω α) m).val = a :=
  rfl

@[simp]
theorem pure_mem : ((pure a : Prog ω α) m).mem = m :=
  rfl

@[simp]
theorem pure_log : ((pure a : Prog ω α) m).log = [] :=
  rfl

@[simp]
theorem bind_val : ((x >>= f) m).val = (f (x m).val (x m).mem).val :=
  rfl

@[simp]
theorem bind_mem : ((x >>= f) m).mem = (f (x m).val (x m).mem).mem :=
  rfl

@[simp]
theorem bind_log : ((x >>= f) m).log = (x m).log ++ (f (x m).val (x m).mem).log :=
  rfl

theorem bind_apply : (x >>= f) m = ⟨(f (x m).val (x m).mem).val, (f (x m).val (x m).mem).mem,
    (x m).log ++ (f (x m).val (x m).mem).log⟩ :=
  rfl

theorem bind_eq (h : x m = ⟨a, m', l⟩) (hf : f a m' = ⟨b, m'', l'⟩) :
    (x >>= f) m = ⟨b, m'', l ++ l'⟩ := by
  simp [bind_apply, h, hf]

@[simp]
theorem ite_apply [Decidable p] :
    (if p then x else y) m = if p then x m else y m := by
  split <;> rfl

def load (a : Int) (n : Nat) (f : Bytes → α) : Prog Access α :=
  ⟨fun m => ⟨f m, m, [⟨a, n⟩]⟩⟩

def swap (a : Int) (n : Nat) : Prog Access Unit :=
  ⟨fun m => ⟨(), rev m a n, [⟨a, n⟩]⟩⟩

def store (a : Int) (l : List UInt8) : Prog Access Unit :=
  ⟨fun m => ⟨(), write m a l, [⟨a, l.length⟩]⟩⟩

-- Steps over a number of items that are packed one after the other.
def walk (step : Int → Prog ω Int) : Nat → Int → Prog ω Int
  | 0, base => return base
  | n + 1, base => do walk step n (← step base)

@[simp]
theorem load_apply {f : Bytes → α} : load a n f m = ⟨f m, m, [⟨a, n⟩]⟩ :=
  rfl

@[simp]
theorem swap_apply : swap a n m = ⟨(), rev m a n, [⟨a, n⟩]⟩ :=
  rfl

end Prog

-- A program yields a value and leaves bytes in place of others. All else is as it was.
structure Turns (x : Prog ω α) (m : Bytes) (a : Int) (l : List UInt8) (v : α) : Prop where
  val : (x m).val = v
  holds : Holds (x m).mem a l
  frame : Frame (span a (a + l.length)) m (x m).mem

namespace Turns

variable {x : Prog ω α} {f : α → Prog ω β} {m : Bytes}

theorem pure (h : Holds m a l) : Turns (pure v : Prog ω α) m a l v where
  val := rfl
  holds := h
  frame := .refl

theorem bind_read (h : (x m).val = v) (hm : (x m).mem = m) (hf : Turns (f v) m a l w) :
    Turns (x >>= f) m a l w := by
  obtain rfl := h
  obtain ⟨hv, hh, hs⟩ := hf
  constructor <;> simpa [hm]

theorem swap (h : Holds m a l) (hn : l.length = n) : Turns (.swap a n) m a l.reverse () where
  val := rfl
  holds := hn ▸ h.rev
  frame := by simpa [hn] using Frame.rev

theorem store : Turns (.store a l) m a l () where
  val := rfl
  holds := .write
  frame := .write

theorem beside (h : Turns x m a l v) (hk : Holds m b k)
    (hd : b + k.length ≤ a ∨ a + l.length ≤ b) : Holds (x m).mem b k :=
  hk.frame h.frame <| by simp only [mem_span]; omega

theorem seq {y : Prog ω' β} {z : Prog ω'' γ} (h : Turns x m a l v)
    (h' : Turns y (x m).mem b k w) (hb : b = a + l.length) (hv : (z m).val = u)
    (hz : (z m).mem = (y (x m).mem).mem) : Turns z m a (l ++ k) u := by
  refine ⟨hv, hz ▸ Holds.append.mpr ⟨?_, hb ▸ h'.holds⟩, hz ▸ .trans (h.frame.mono ?_)
    (h'.frame.mono ?_)⟩
  · exact h'.beside h.holds <| .inl hb.ge
  · exact span_subset_right <| by simp
  · exact span_subset (by omega) <| by simp; omega

theorem bind (h : Turns x m a l v) (hf : Turns (f v) (x m).mem b k w) (hb : b = a + l.length) :
    Turns (x >>= f) m a (l ++ k) w := by
  obtain rfl := h.val
  exact h.seq hf hb hf.val rfl

-- The program works on the first bytes, its continuation on those behind.
theorem next (h : Holds m a (l₀ ++ k₀)) (hx : Turns x m a l v) (hl : l.length = l₀.length)
    (hb : b = a + l.length) (hf : Holds (x m).mem b k₀ → Turns (f v) (x m).mem b k w) :
    Turns (x >>= f) m a (l ++ k) w := by
  have hk := hx.beside (Holds.append.mp h).right (by omega)
  exact hx.bind (hf <| by rwa [hb, hl]) hb

theorem append (h : Holds m a (l₀ ++ k)) (hx : Turns x m a l v) (hl : l.length = l₀.length) :
    Turns x m a (l ++ k) v where
  val := hx.val
  holds := Holds.append.mpr
    ⟨hx.holds, hx.beside (hl ▸ (Holds.append.mp h).right) (.inr le_rfl)⟩
  frame := hx.frame.mono <| span_subset_right <| by simp

-- The bytes in front change last.
theorem bind_front (h : Turns x m b k v) (hf : Turns (f v) (x m).mem a l w)
    (hb : b = a + l.length) : Turns (x >>= f) m a (l ++ k) w := by
  obtain ⟨rfl, hh, hs⟩ := h
  refine ⟨hf.val, Holds.append.mpr ⟨hf.holds, ?_⟩, .trans (hs.mono ?_) (hf.frame.mono ?_)⟩
  · exact hb ▸ hf.beside hh (.inr hb.ge)
  · exact span_subset (by omega) <| by simp; omega
  · exact span_subset_right <| by simp

theorem walk {step : Int → Prog ω Int} {f : β → List UInt8} {l : List β}
    (hl : ∀ y, (g y).length = (f y).length)
    (hs : ∀ y m a, Holds m a (f y) → Turns (step a) m a (g y) (a + (f y).length))
    (h : Holds m a (l.flatMap f)) :
    Turns (.walk step l.length a) m a (l.flatMap g) (a + (l.flatMap f).length) := by
  induction l generalizing m a
  case nil => simpa [Prog.walk] using Turns.pure h
  case cons y l hi =>
    rw [flatMap_cons, Holds.append] at h
    rw [length_cons, Prog.walk]
    have hy := hs y m a h.left
    have ht := hi <| hy.beside h.right (by simp [hl])
    simpa [add_assoc] using hy.bind ht (by simp [hl])

end Turns

structure Fills (x : Prog ω α) (m : Bytes) (a : Int) (l : List UInt8) (b : Int) (k : List UInt8)
    (v : α) : Prop where
  val : (x m).val = v
  left : Holds (x m).mem a l
  right : Holds (x m).mem b k
  frame : Frame (span a (a + l.length) ∪ span b (b + k.length)) m (x m).mem

namespace Fills

variable {x : Prog ω α} {f : α → Prog ω β} {m : Bytes}

theorem pure : Fills (pure v : Prog ω α) m a [] b [] v where
  val := rfl
  left := .nil
  right := .nil
  frame := .refl

theorem beside (h : Fills x m a l b k v) (hj : Holds m c j)
    (ha : c + j.length ≤ a ∨ a + l.length ≤ c) (hb : c + j.length ≤ b ∨ b + k.length ≤ c) :
    Holds (x m).mem c j :=
  hj.frame h.frame <| by simp only [Set.mem_union, mem_span]; omega

theorem bind (h : Fills x m a l b k v) (hf : Fills (f v) (x m).mem a' l' b' k' w)
    (ha : a' = a + l.length) (hb : b' = b + k.length) (hd : a' + l'.length ≤ b) :
    Fills (x >>= f) m a (l ++ l') b (k ++ k') w := by
  obtain ⟨rfl, hl, hk, hs⟩ := h
  refine ⟨hf.val, Holds.append.mpr ⟨?_, ha ▸ hf.left⟩, Holds.append.mpr ⟨?_, hb ▸ hf.right⟩, ?_⟩
  · exact hf.beside hl (by omega) (by omega)
  · exact hf.beside hk (by omega) (by omega)
  · refine .trans (hs.mono fun i hi => ?_) (hf.frame.mono fun i hi => ?_)
    all_goals
      simp only [Set.mem_union, mem_span, length_append] at *
      omega

end Fills

namespace Prog

def Logs (P : ω → Prop) (x : Prog ω α) (m : Bytes) : Prop :=
  ∀ w ∈ (x m).log, P w

variable {P : ω → Prop} {Q : Access → Prop} {x : Prog ω α} {f : α → Prog ω β} {m : Bytes}

@[simp]
theorem logs_pure : Logs P (pure a : Prog ω α) m :=
  nofun

@[simp]
theorem logs_bind : Logs P (x >>= f) m ↔ Logs P x m ∧ Logs P (f (x m).val) (x m).mem := by
  simp only [Logs, bind_log, mem_append, or_imp, forall_and]

@[simp]
theorem logs_load {g : Bytes → α} : Logs Q (load a n g) m ↔ Q ⟨a, n⟩ := by
  simp [Logs]

@[simp]
theorem logs_swap : Logs Q (swap a n) m ↔ Q ⟨a, n⟩ := by
  simp [Logs]

section Walk

variable {step : Int → Prog ω Int} {next : Int × Bytes → Int × Bytes}
variable (hn : ∀ a m, next (a, m) = ((step a m).val, (step a m).mem))
include hn

-- A walk repeats what a step does to the address and to the memory.
theorem walk_next : ∀ n a m, next^[n] (a, m) = ((walk step n a m).val, (walk step n a m).mem)
  | 0, _, _ => rfl
  | n + 1, a, m => by
    rw [Function.iterate_succ_apply, hn, walk_next]
    rfl

theorem logs_walk {R : Int × Bytes → Prop} (hs : ∀ a m, 0 ≤ a → (Logs P (step a) m ↔ R (a, m)))
    (h₀ : ∀ a m, 0 ≤ a → 0 ≤ (step a m).val) (ha : 0 ≤ a) :
    Logs P (walk step n a) m ↔ ∀ k < n, R (next^[k] (a, m)) := by
  induction n generalizing a m
  case zero => simp [walk]
  case succ n hi =>
    rw [walk, logs_bind, hs a m ha, hi (h₀ a m ha), Nat.forall_lt_succ_left]
    simp only [Function.iterate_zero, id_eq, Function.iterate_succ_apply, hn]

end Walk

end Prog

end Memory
