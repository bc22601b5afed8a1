import PcpModel.Derive.Lexer

-- The parser of the expressions of derived metrics, and their registration.
namespace Derive

inductive PmType
  | s32
  | u32
  | s64
  | u64
  | float
  | double
  deriving DecidableEq

-- The rest of the descriptor of a constant is fixed, and other nodes do not have one yet.
inductive Node
  | name (value : Text) (saveLast : Bool)
  | number (value : Text) (type : PmType) (saveLast : Bool)
  | func (f : Func) (left : Node)
  | binop (op : Op) (left right : Node)
  deriving DecidableEq

structure Frame where
  op : Op
  left : Node
  deriving DecidableEq

def plug (above : List Frame) (node : Node) : Node :=
  above.foldr (fun f n => .binop f.op f.left n) node

-- The node `curr` is on the right side of the tree `expr`, with the nodes in `above` over it.
inductive State
  | init
  | leaf (paren : Bool) (above : List Frame) (curr : Node)
  -- The node `curr` does not have a right branch.
  | binop (above : List Frame) (op : Op) (left : Node)
  -- The node `curr` is a function without an argument.
  | funcOp (above : List Frame) (f : Func)
  | funcEnd (expr : Node)
  deriving DecidableEq

-- The calls that wait for the end of an expression in parentheses are on a stack.
structure Parser where
  state : State
  calls : List State
  deriving DecidableEq

inductive Step
  | next (p : Parser)
  -- Returns from the first call. There is no tree if there is an error, which may have no message.
  | done (expr : Option Node) (errmsg : Option String)

namespace Parser

def start : Parser :=
  ⟨.init, []⟩

-- The value of a constant, as far as `strtoull` can represent it.
def strtoull (text : Text) : Nat :=
  min (text.foldl (fun n c => 10 * n + (c.toInt - 48).toNat) 0) 0xffffffffffffffff

def anonType : List (Text × PmType) :=
  [(pmType ++ [51, 50], .s32), (pmType ++ [85, 51, 50], .u32), (pmType ++ [54, 52], .s64),
    (pmType ++ [85, 54, 52], .u64), (pmType ++ [70, 76, 79, 65, 84], .float),
    (pmType ++ [68, 79, 85, 66, 76, 69], .double)]
where
  pmType : Text := [80, 77, 95, 84, 89, 80, 69, 95]

def number (text : Text) : Node :=
  .number text .u32 false

def argument (f : Func) (text : Text) : Option Node :=
  match f with
  | .anon => (anonType.lookup text).map (.number text · true)
  | _ => some (.name text true)

-- Returns the nodes over the operator and its left branch.
def operator (op : Op) (paren : Bool) (above : List Frame) : Node → List Frame × Node
  | .binop op' left right =>
    if paren ∨ op = .plus ∨ op = .minus then ([], .binop op' left right)
    else (above ++ [⟨op', left⟩], right)
  | curr => ([], curr)

-- The call that waits for the expression continues.
def resume (expr : Node) : State → State
  | .binop above op left => .leaf true above (.binop op left expr)
  | _ => .leaf true [] expr

def leave (p : Parser) (expr : Node) : Step :=
  match p.calls with
  | [] => .done (some expr) none
  | st :: calls => .next ⟨resume expr st, calls⟩

-- The lexical types for which a call may end.
def close (p : Parser) : Step :=
  match p.state with
  | .funcEnd expr => .next ⟨.leaf false [] expr, p.calls⟩
  | .leaf paren above curr =>
    if paren ∧ p.calls = [] then .done none "Unexpected ')'" else p.leave (plug above curr)
  | _ => .done none "Unexpected ')'"

def finish (p : Parser) : Step :=
  match p.state, p.calls with
  | .leaf _ above curr, [] => .done (some (plug above curr)) none
  | _, _ => .done none "End of input"

def enter (p : Parser) (st : State) : Step :=
  .next ⟨st, p.calls⟩

def shift (p : Parser) (s : Sym) : Step :=
  match p.state, s with
  | .init, .name text => p.enter (.leaf false [] (.name text false))
  | .init, .number text =>
    if strtoull text > 0xffffffff then .done none "Constant value too large"
    else p.enter (.leaf false [] (number text))
  | .init, .lparen => .next ⟨.init, .init :: p.calls⟩
  | .init, .func f => p.enter (.funcOp [] f)
  | .leaf paren above curr, .op op =>
    let (above, left) := operator op paren above curr
    p.enter (.binop above op left)
  | .binop above op left, .name text =>
    p.enter (.leaf false [] (plug above (.binop op left (.name text false))))
  | .binop above op left, .number text =>
    p.enter (.leaf false [] (plug above (.binop op left (number text))))
  | .binop above op left, .lparen => .next ⟨.init, .binop above op left :: p.calls⟩
  | .binop above op left, .func f => p.enter (.funcOp (above ++ [⟨op, left⟩]) f)
  | .funcOp above f, .name text =>
    match argument f text with
    | none => .done none none
    | some arg => p.enter (.funcEnd (plug above (.func f arg)))
  | _, _ => .done none none

def step (p : Parser) : Option Sym → Step
  | some .error => .done none "Illegal character"
  | none => p.finish
  | some .rparen => p.close
  | some s => p.shift s

theorem step_none {p : Parser} : p.step none ≠ .next q := by
  change p.finish ≠ .next q
  unfold finish
  split <;> simp

end Parser

structure Parsed where
  expr : Option Node
  errmsg : Option String
  last : Option Sym
  lexer : Lexer

def parse (p : Parser) (lx : Lexer) : Parsed :=
  match _h : p.step (lex lx).1 with
  | .next q => parse q (lex lx).2
  | .done expr errmsg => ⟨expr, errmsg, (lex lx).1, (lex lx).2⟩
termination_by lx.input.length
decreasing_by exact lex_lt fun he => Parser.step_none (he ▸ _h)

structure Metric where
  name : Text
  pmid : Nat
  expr : Node
  deriving DecidableEq

-- The registered metrics, and the variables that keep their values between calls.
structure Registry where
  metrics : List Metric
  lexpeek : Int8
  errmsg : Option String
  deriving DecidableEq

namespace Registry

def empty : Registry :=
  ⟨[], 0, none⟩

def names (r : Registry) : List Text :=
  r.metrics.map (·.name)

-- The identifier has 10 bits for the number of the metric.
def pmid (nmetric : Nat) : Nat :=
  511 * 4194304 + nmetric % 1024

-- The string ends before its terminator.
def lexer (r : Registry) (expr : Text) : Lexer :=
  ⟨r.lexpeek, expr.takeWhile (· ≠ 0), []⟩

def after (r : Registry) (parsed : Parsed) : Registry :=
  { r with lexpeek := parsed.lexer.lexpeek, errmsg := parsed.errmsg }

def add (r : Registry) (name : Text) (expr : Node) : Registry :=
  { r with metrics := r.metrics ++ [⟨name, pmid (r.metrics.length + 1), expr⟩] }

-- Returns the position in the expression at which there is an error, if there is one.
def pmRegisterDerived (r : Registry) (name expr : Text) : Registry × Option Int :=
  if name ∈ r.names then
    ({ r with errmsg := some "Duplicate derived metric name" }, some 0)
  else
    let lx := r.lexer expr
    let parsed := parse .start lx
    match parsed.expr with
    | none => (r.after parsed, some (lx.string.length - parsed.lexer.this.length - 1))
    | some node => ((r.after parsed).add name node, none)

variable {r : Registry}

theorem pmRegisterDerived_mem (hn : name ∈ r.names) : r.pmRegisterDerived name expr =
    ({ r with errmsg := some "Duplicate derived metric name" }, some 0) :=
  if_pos hn

theorem pmRegisterDerived_none (hn : name ∉ r.names)
    (he : (parse .start (r.lexer expr)).expr = none) :
    ∃ pos, r.pmRegisterDerived name expr =
      (r.after (parse .start (r.lexer expr)), some pos) := by
  simp only [pmRegisterDerived, if_neg hn, he]
  exact ⟨_, rfl⟩

theorem pmRegisterDerived_some (hn : name ∉ r.names)
    (he : (parse .start (r.lexer expr)).expr = some node) :
    r.pmRegisterDerived name expr =
      ((r.after (parse .start (r.lexer expr))).add name node, none) := by
  simp [pmRegisterDerived, if_neg hn, he]

end Registry

end Derive
