import Mathlib.Data.List.Basic

-- Computations that keep a log of what they did besides computing a value.
structure Logged (ω α : Type*) where
  val : α
  log : List ω
  deriving DecidableEq

namespace Logged

instance : Monad (Logged ω) where
  pure a := { val := a, log := [] }
  bind x f := { val := (f x.val).val, log := x.log ++ (f x.val).log }

def tell (l : List ω) : Logged ω Unit where
  val := ()
  log := l

-- Computes a value for each element of a list, from the first one to the last one.
def sweep (f : α → Logged ω β) (as : List α) : Logged ω (List β) where
  val := as.map (f · |>.val)
  log := as.flatMap (f · |>.log)

variable {x : Logged ω α} {f : α → Logged ω β}

@[simp]
theorem pure_val : (pure a : Logged ω α).val = a :=
  rfl

@[simp]
theorem pure_log : (pure a : Logged ω α).log = [] :=
  rfl

@[simp]
theorem bind_val : (x >>= f).val = (f x.val).val :=
  rfl

@[simp]
theorem bind_log : (x >>= f).log = x.log ++ (f x.val).log :=
  rfl

@[simp]
theorem tell_log : (tell l).log = l :=
  rfl

@[simp]
theorem sweep_val : (sweep f as).val = as.map (f · |>.val) :=
  rfl

@[simp]
theorem sweep_log : (sweep f as).log = as.flatMap (f · |>.log) :=
  rfl

end Logged
