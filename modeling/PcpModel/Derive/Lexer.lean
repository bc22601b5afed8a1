import Mathlib.Data.List.TakeWhile

-- The scanner of the expressions of derived metrics (derive.c of libpcp).
namespace Derive

-- Characters are signed. A string does not include its terminator.
abbrev Text := List Int8

inductive Op
  | plus
  | minus
  | star
  | slash
  deriving DecidableEq

inductive Func
  | avg
  | count
  | delta
  | max
  | min
  | sum
  | anon
  deriving DecidableEq

-- The lexical types except for `L_EOF`, with the contents of `tokbuf` for numbers and names.
inductive Sym
  | error
  | number (text : Text)
  | name (text : Text)
  | op (op : Op)
  | lparen
  | rparen
  | func (f : Func)
  deriving DecidableEq

-- The value that `get` returns at the end of the string. A character may have the same value.
def eof : Int8 :=
  -1

def isspace (c : Int8) : Bool :=
  c = 32 ∨ 9 ≤ c ∧ c ≤ 13

def isdigit (c : Int8) : Bool :=
  48 ≤ c ∧ c ≤ 57

def isalpha (c : Int8) : Bool :=
  65 ≤ c ∧ c ≤ 90 ∨ 97 ≤ c ∧ c ≤ 122

def inName (c : Int8) : Bool :=
  isalpha c || isdigit c || c = 95 || c = 46

def punct (c : Int8) : Sym :=
  if c = 43 then .op .plus
  else if c = 45 then .op .minus
  else if c = 42 then .op .star
  else if c = 47 then .op .slash
  else if c = 40 then .lparen
  else if c = 41 then .rparen
  else .error

def func : List (Text × Func) :=
  [([97, 118, 103], .avg), ([99, 111, 117, 110, 116], .count), ([100, 101, 108, 116, 97], .delta),
    ([109, 97, 120], .max), ([109, 105, 110], .min), ([115, 117, 109], .sum),
    ([97, 110, 111, 110], .anon)]

-- The variables of the scanner, where a pointer is represented by the characters that follow it.
structure Lexer where
  lexpeek : Int8
  string : Text
  -- What follows the first character of the current token.
  this : Text

namespace Lexer

-- What `get` returns: the character that has been pushed back, if there is one, and the string.
def input (lx : Lexer) : Text :=
  if lx.lexpeek = 0 then lx.string else lx.lexpeek :: lx.string

-- Pushes back the character that ends a token. At the end of the input it is 0.
def unget (this : Text) : Text → Lexer
  | [] => ⟨0, [], this⟩
  | c :: cs => ⟨if c = eof then 0 else c, cs, this⟩

end Lexer

-- A name is a function if it is directly followed by a parenthesis, which is part of the token.
def lexName (text rest this : Text) : Option Sym × Lexer :=
  match if rest.head? = some 40 then func.lookup text else none with
  | some f => (some (.func f), ⟨0, rest.tail, this⟩)
  | none => (some (.name text), .unget this rest)

-- There is no token at the end of the input.
def lex (lx : Lexer) : Option Sym × Lexer :=
  match lx.input.dropWhile isspace with
  | [] => (none, ⟨0, [], []⟩)
  | c :: cs =>
    if c = eof then (none, ⟨0, cs, cs⟩)
    else if isdigit c then
      (some (.number (c :: cs.takeWhile isdigit)), .unget cs (cs.dropWhile isdigit))
    else if isalpha c then lexName (c :: cs.takeWhile inName) (cs.dropWhile inName) cs
    else (some (punct c), ⟨0, cs, cs⟩)

section Facts

variable {lx : Lexer}

theorem Lexer.input_length_le : lx.input.length ≤ lx.string.length + 1 := by
  unfold input
  split <;> simp

theorem Lexer.input_unget_le (this rest : Text) : (unget this rest).input.length ≤ rest.length := by
  cases rest
  case nil => simp [unget, input]
  case cons c cs => exact input_length_le

theorem lexName_le (text rest this : Text) :
    (lexName text rest this).2.input.length ≤ rest.length := by
  unfold lexName
  split
  case h_1 => simp [Lexer.input]
  case h_2 => exact Lexer.input_unget_le this rest

-- Every token takes a character.
theorem lex_lt (h : (lex lx).1 ≠ none) : (lex lx).2.input.length < lx.input.length := by
  have hd := (List.dropWhile_sublist isspace (l := lx.input)).length_le
  unfold lex at *
  cases hc : lx.input.dropWhile isspace
  case nil => simp [hc] at h
  case cons c cs =>
    have hdig := (List.dropWhile_sublist isdigit (l := cs)).length_le
    have hname := (List.dropWhile_sublist inName (l := cs)).length_le
    rw [hc] at hd
    refine Nat.lt_of_lt_of_le (Nat.lt_succ_of_le ?_) hd
    dsimp only
    split_ifs
    · simp [Lexer.input]
    · exact (Lexer.input_unget_le _ _).trans hdig
    · exact (lexName_le _ _ _).trans hname
    · simp [Lexer.input]

end Facts

end Derive
