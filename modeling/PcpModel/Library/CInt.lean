import Mathlib.Algebra.Order.Ring.Int

-- C's fixed-width integers as values of `Int`.
namespace CInt

def intMax : Int :=
  0x7fffffff

-- The value that is stored when `n` is assigned to an `int`.
def int (n : Int) : Int :=
  n.bmod (2 ^ 32)

def ofWord (n : Nat) : Int :=
  if n < 0x80000000 then n else n - 0x100000000

-- The value that is stored when `n` is assigned to an `unsigned int`.
def uint (n : Int) : Int :=
  n % 2 ^ 32

-- The value of `n` after its conversion to `size_t`.
def size (n : Int) : Int :=
  n % 2 ^ 64

theorem int_eq (hl : -2 ^ 31 ≤ n) (hu : n ≤ intMax) : int n = n := by
  simp only [int, intMax] at *
  rw [Int.bmod_def]
  split <;> omega

theorem int_int_add : int (int a + b) = int (a + b) :=
  Int.bmod_add_bmod ..

theorem int_bounds (n : Int) : -2 ^ 31 ≤ int n ∧ int n ≤ intMax := by
  simp only [int, intMax, Int.bmod_def]
  split <;> omega

theorem ofWord_bounds (h : n < 2 ^ 32) : -2 ^ 31 ≤ ofWord n ∧ ofWord n ≤ intMax := by
  simp only [ofWord, intMax]
  split <;> omega

theorem size_eq (hl : 0 ≤ n) (hu : n < 2 ^ 64) : size n = n :=
  Int.emod_eq_of_lt hl hu

end CInt
