import PcpModel.Derive.Parser

-- The grammar of expressions, and the strings that are accepted.
namespace Derive

open List

def Func.Takes (f : Func) (arg : Text) : Prop :=
  ∃ n, Parser.argument f arg = some n

mutual

inductive Operand
  | name (text : Text)
  | number (text : Text)
  | paren (e : Phrase)
  | func (f : Func) (arg : Text) (takes : f.Takes arg)

inductive Phrase
  | one (o : Operand)
  | snoc (e : Phrase) (op : Op) (o : Operand)

end

mutual

def Operand.syms : Operand → List Sym
  | .name text => [.name text]
  | .number text => [.number text]
  | .paren e => .lparen :: e.syms ++ [.rparen]
  | .func f arg _ => [.func f, .name arg, .rparen]

def Phrase.syms : Phrase → List Sym
  | .one o => o.syms
  | .snoc e op o => e.syms ++ .op op :: o.syms

end

def Operand.isParen : Operand → Bool
  | .paren _ => true
  | _ => false

def Phrase.endsParen : Phrase → Bool
  | .one o | .snoc _ _ o => o.isParen

-- The value of a constant is only checked at the start of a phrase.
mutual

def Operand.Checked (first : Bool) : Operand → Prop
  | .number text => first → Parser.strtoull text ≤ 0xffffffff
  | .paren e => e.Checked
  | _ => True

def Phrase.Checked : Phrase → Prop
  | .one o => o.Checked true
  | .snoc e _ o => e.Checked ∧ o.Checked false

end

structure Leaf where
  paren : Bool
  above : List Frame
  curr : Node

namespace Leaf

def state (l : Leaf) : State :=
  .leaf l.paren l.above l.curr

def expr (l : Leaf) : Node :=
  plug l.above l.curr

def right (above : List Frame) (op : Op) (left : Node) (paren : Bool) (n : Node) : Leaf :=
  if paren then ⟨true, above, .binop op left n⟩ else ⟨false, [], plug above (.binop op left n)⟩

def pending (l : Leaf) (op : Op) : State :=
  .binop (Parser.operator op l.paren l.above l.curr).1 op
    (Parser.operator op l.paren l.above l.curr).2

def more (l : Leaf) (op : Op) (paren : Bool) (n : Node) : Leaf :=
  right (Parser.operator op l.paren l.above l.curr).1 op
    (Parser.operator op l.paren l.above l.curr).2 paren n

end Leaf

mutual

def Operand.node : Operand → Node
  | .name text => .name text false
  | .number text => Parser.number text
  | .paren e => e.leaf.expr
  | .func f arg _ => .func f ((Parser.argument f arg).getD (.name arg true))

def Phrase.leaf : Phrase → Leaf
  | .one o => ⟨o.isParen, [], o.node⟩
  | .snoc e op o => e.leaf.more op o.isParen o.node

end

-- The state after an operand, where the state `st` waits for one.
def State.take (paren : Bool) (n : Node) : State → State
  | .binop above op left => (Leaf.right above op left paren n).state
  | _ => .leaf paren [] n

def run (p : Parser) : List Sym → Option Node
  | [] =>
    match p.step none with
    | .next _ => none
    | .done expr _ => expr
  | s :: ss =>
    match p.step (some s) with
    | .next p => run p ss
    | .done expr _ => expr

theorem run_next (h : p.step (some s) = .next q) : run p (s :: ss) = run q ss := by
  simp [run, h]

theorem run_done (h : p.step (some s) = .done expr errmsg) : run p (s :: ss) = expr := by
  simp [run, h]

def State.Waits : State → Prop
  | .init | .binop _ _ _ => True
  | _ => False

theorem run_number (hw : st.Waits) (hc : st = .init → Parser.strtoull text ≤ 0xffffffff) :
    run ⟨st, cs⟩ (.number text :: ts) = run ⟨st.take false (Parser.number text), cs⟩ ts := by
  cases st
  case init =>
    have hs : Parser.step ⟨.init, cs⟩ (some (.number text)) =
        .next ⟨.leaf false [] (Parser.number text), cs⟩ :=
      if_neg (Nat.not_lt_of_le (hc rfl))
    exact run_next hs
  case binop => rfl
  all_goals contradiction

theorem step_argument (ha : Parser.argument f arg = some n) :
    Parser.step ⟨.funcOp above f, cs⟩ (some (.name arg)) =
      .next ⟨.funcEnd (plug above (.func f n)), cs⟩ := by
  simp [Parser.step, Parser.shift, Parser.enter, ha]

theorem run_func (hw : st.Waits) (ha : Parser.argument f arg = some n) :
    run ⟨st, cs⟩ (.func f :: .name arg :: .rparen :: ts) =
      run ⟨st.take false (.func f n), cs⟩ ts := by
  cases st
  case init => exact (run_next rfl).trans <| (run_next (step_argument ha)).trans (run_next rfl)
  case binop above op left =>
    refine (run_next rfl).trans <| (run_next (step_argument ha)).trans <| (run_next rfl).trans ?_
    simp [State.take, Leaf.right, Leaf.state, plug]
  all_goals contradiction

theorem step_rparen : Parser.step ⟨.leaf paren above curr, st :: cs⟩ (some .rparen) =
    .next ⟨Parser.resume (plug above curr) st, cs⟩ := by
  simp [Parser.step, Parser.close, Parser.leave]

theorem run_paren {l : Leaf} (hw : st.Waits)
    (he : run ⟨.init, st :: cs⟩ (ss ++ .rparen :: ts) = run ⟨l.state, st :: cs⟩ (.rparen :: ts)) :
    run ⟨st, cs⟩ (.lparen :: ss ++ .rparen :: ts) = run ⟨st.take true l.expr, cs⟩ ts := by
  have hr : Parser.resume l.expr st = st.take true l.expr := by
    cases st <;> rfl
  cases st
  case init | binop => exact (run_next rfl).trans <| he.trans (run_next step_rparen)
  all_goals contradiction

mutual

theorem Operand.run_eq (o : Operand) (hw : st.Waits) (hc : o.Checked (st = .init)) :
    run ⟨st, cs⟩ (o.syms ++ ts) = run ⟨st.take o.isParen o.node, cs⟩ ts := by
  cases o
  case name text => cases st <;> first | rfl | contradiction
  case number text => exact run_number hw (by simpa [Operand.Checked] using hc)
  case func f arg ht =>
    refine ht.elim fun n hn => ?_
    have hnode : (Operand.func f arg ht).node = .func f n := by simp [Operand.node, hn]
    rw [hnode]
    exact run_func hw hn
  case paren e =>
    rw [Operand.syms, append_assoc]
    exact run_paren hw (e.run_eq (by simpa [Operand.Checked] using hc))

theorem Phrase.run_eq (e : Phrase) (hc : e.Checked) :
    run ⟨.init, cs⟩ (e.syms ++ ts) = run ⟨e.leaf.state, cs⟩ ts := by
  cases e
  case one o => exact o.run_eq trivial (by simpa [Phrase.Checked] using hc)
  case snoc e op o =>
    rw [Phrase.syms, append_assoc, e.run_eq hc.left]
    refine (run_next rfl).trans ?_
    exact o.run_eq trivial (by simpa using hc.right)

end

theorem starts_of_run (hw : st.Waits) (hr : run ⟨st, cs⟩ ts = some n) :
    (∃ text ss, ts = .name text :: ss) ∨
    (∃ text ss, ts = .number text :: ss ∧ (st = .init → Parser.strtoull text ≤ 0xffffffff)) ∨
    (∃ ss, ts = .lparen :: ss) ∨ ∃ f ss, ts = .func f :: ss := by
  rcases ts with _ | ⟨s, ss⟩
  case nil => cases st <;> simp_all [run, Parser.step, Parser.finish, State.Waits]
  case cons =>
    cases s
    case name text => exact .inl ⟨text, ss, rfl⟩
    case number text =>
      refine .inr <| .inl ⟨text, ss, rfl, ?_⟩
      rintro rfl
      by_contra hc
      have hs : Parser.step ⟨.init, cs⟩ (some (.number text)) =
          .done none "Constant value too large" :=
        if_pos (Nat.lt_of_not_le hc)
      simp [run_done hs] at hr
    case lparen => exact .inr <| .inr <| .inl ⟨ss, rfl⟩
    case func f => exact .inr <| .inr <| .inr ⟨f, ss, rfl⟩
    all_goals cases st <;> simp_all [run, Parser.step, Parser.close, Parser.shift, State.Waits]

theorem funcEnd_of_run (hr : run ⟨.funcEnd expr, cs⟩ ts = some n) : ∃ ss, ts = .rparen :: ss := by
  rcases ts with _ | ⟨s, ss⟩
  case nil => simp [run, Parser.step, Parser.finish] at hr
  case cons =>
    cases s
    case rparen => exact ⟨ss, rfl⟩
    all_goals simp [run, Parser.step, Parser.shift] at hr

theorem funcOp_of_run (hr : run ⟨.funcOp above f, cs⟩ ts = some n) :
    ∃ arg ss, ts = .name arg :: .rparen :: ss ∧ f.Takes arg := by
  rcases ts with _ | ⟨s, ss⟩
  case nil => simp [run, Parser.step, Parser.finish] at hr
  case cons =>
    cases s
    case name arg =>
      cases ha : Parser.argument f arg
      case none => simp [run, Parser.step, Parser.shift, ha] at hr
      case some arg' =>
        rw [run_next (step_argument ha)] at hr
        obtain ⟨ss, rfl⟩ := funcEnd_of_run hr
        exact ⟨arg, ss, rfl, arg', ha⟩
    all_goals simp [run, Parser.step, Parser.shift, Parser.close] at hr

theorem leaf_of_run (hr : run ⟨.leaf paren above curr, cs⟩ ts = some n) :
    ts = [] ∨ (∃ ss, ts = .rparen :: ss) ∨ ∃ op ss, ts = .op op :: ss := by
  rcases ts with _ | ⟨s, ss⟩
  case nil => exact .inl rfl
  case cons =>
    cases s
    case rparen => exact .inr <| .inl ⟨ss, rfl⟩
    case op op => exact .inr <| .inr ⟨op, ss, rfl⟩
    all_goals simp_all [run, Parser.step, Parser.shift]

def Ends (ts : List Sym) : Prop :=
  ts = [] ∨ ∃ ss, ts = .rparen :: ss

def StartsOperand (st : State) (ts : List Sym) : Prop :=
  ∃ (o : Operand) (ss : List Sym),
    ts = o.syms ++ ss ∧ o.Checked (st = .init) ∧ ss.length < ts.length

def Continues (e : Phrase) (ts : List Sym) : Prop :=
  ∃ (e' : Phrase) (ss : List Sym), e.syms ++ ts = e'.syms ++ ss ∧ e'.Checked ∧ Ends ss

theorem phrase_of_operand (ho : StartsOperand .init ts)
    (hp : ∀ (e : Phrase) ss, ss.length < ts.length → e.Checked →
      run ⟨e.leaf.state, cs⟩ ss = some n → Continues e ss)
    (hr : run ⟨.init, cs⟩ ts = some n) :
    ∃ (e : Phrase) (ss : List Sym), ts = e.syms ++ ss ∧ e.Checked ∧ Ends ss := by
  obtain ⟨o, ss, rfl, hc, hl⟩ := ho
  exact hp (.one o) ss hl hc ((Phrase.one o).run_eq hc ▸ hr)

theorem paren_of_phrase
    (hp : ∃ (e : Phrase) (ss : List Sym), ts = e.syms ++ ss ∧ e.Checked ∧ Ends ss)
    (hr : run ⟨.init, st :: cs⟩ ts = some n) : StartsOperand st (.lparen :: ts) := by
  obtain ⟨e, ss, rfl, hc, rfl | ⟨ss, rfl⟩⟩ := hp
  · rw [e.run_eq hc] at hr
    simp [run, Parser.step, Parser.finish] at hr
  · have hc : (Operand.paren e).Checked (st = .init) := by simpa [Operand.Checked] using hc
    exact ⟨.paren e, ss, by simp [Operand.syms], hc, by simp; omega⟩

theorem run_lparen (hw : st.Waits) : run ⟨st, cs⟩ (.lparen :: ts) = run ⟨.init, st :: cs⟩ ts := by
  cases st
  case init => rfl
  case binop => rfl
  all_goals contradiction

theorem func_of_run (hw : st.Waits) (hr : run ⟨st, cs⟩ (.func f :: ts) = some n) :
    StartsOperand st (.func f :: ts) := by
  obtain ⟨above, hs⟩ : ∃ above, run ⟨st, cs⟩ (.func f :: ts) = run ⟨.funcOp above f, cs⟩ ts := by
    cases st
    case init => exact ⟨_, rfl⟩
    case binop => exact ⟨_, rfl⟩
    all_goals contradiction
  obtain ⟨arg, ss, rfl, ht⟩ := funcOp_of_run (hs ▸ hr)
  exact ⟨.func f arg ht, ss, rfl, trivial, by simp; omega⟩

-- The proof is by induction on the number of symbols.
theorem syntax_of_run (ts : List Sym) :
    (∀ st cs n, st.Waits → run ⟨st, cs⟩ ts = some n → StartsOperand st ts) ∧
    ∀ (e : Phrase) cs n, e.Checked → run ⟨e.leaf.state, cs⟩ ts = some n → Continues e ts := by
  induction hk : ts.length using Nat.strongRecOn generalizing ts
  case ind k ih =>
    subst hk
    constructor
    · intro st cs n hw hr
      rcases starts_of_run hw hr with ⟨t, ss, rfl⟩ | ⟨t, ss, rfl, hc⟩ | ⟨ss, rfl⟩ | ⟨f, ss, rfl⟩
      · exact ⟨.name t, ss, rfl, trivial, by simp⟩
      · exact ⟨.number t, ss, rfl, by simpa [Operand.Checked] using hc, by simp⟩
      · rw [run_lparen hw] at hr
        have ho := (ih ss.length (by simp) ss rfl).left .init _ n trivial hr
        refine paren_of_phrase (phrase_of_operand ho (fun e ss' hl he hr => ?_) hr) hr
        exact (ih ss'.length (by simp; omega) ss' rfl).right e _ n he hr
      · exact func_of_run hw hr
    · intro e cs n he hr
      rcases leaf_of_run hr with rfl | ⟨ss, rfl⟩ | ⟨op, ss, rfl⟩
      · exact ⟨e, [], rfl, he, .inl rfl⟩
      · exact ⟨e, _, rfl, he, .inr ⟨ss, rfl⟩⟩
      · obtain ⟨o, ss', rfl, ho, hl⟩ := (ih ss.length (by simp) ss rfl).left
          (e.leaf.pending op) cs n trivial hr
        have he' : (e.snoc op o).Checked := ⟨he, ho⟩
        have ho' : run ⟨e.leaf.pending op, cs⟩ (o.syms ++ ss') =
            run ⟨(e.snoc op o).leaf.state, cs⟩ ss' := o.run_eq trivial ho
        have hl' : ss'.length < (Sym.op op :: (o.syms ++ ss')).length := Nat.lt_succ_of_lt hl
        obtain ⟨e', ss, heq, hc⟩ := (ih ss'.length hl' ss' rfl).right _ cs n he' (ho' ▸ hr)
        exact ⟨e', ss, by simpa [Phrase.syms] using heq, hc⟩

theorem Phrase.leaf_paren (e : Phrase) : e.leaf.paren = e.endsParen := by
  cases e
  case one o => rfl
  case snoc e op o =>
    rw [Phrase.leaf, Leaf.more, Phrase.endsParen]
    cases o.isParen <;> rfl

-- A parenthesis that does not belong to the expression ends it, unless it follows another one.
def Accepted (ts : List Sym) : Prop :=
  ∃ e : Phrase, e.Checked ∧
    (ts = e.syms ∨ e.endsParen = false ∧ ∃ ss, ts = e.syms ++ .rparen :: ss)

theorem run_start_iff : (run .start ts).isSome ↔ Accepted ts := by
  constructor
  · intro hr
    obtain ⟨n, hr⟩ := Option.isSome_iff_exists.mp hr
    obtain ⟨e, ss, rfl, hc, he⟩ := phrase_of_operand ((syntax_of_run ts).left .init [] n trivial hr)
      (fun e ss _ he hr => (syntax_of_run ss).right e [] n he hr) hr
    refine ⟨e, hc, ?_⟩
    rcases he with rfl | ⟨ss, rfl⟩
    · exact .inl (append_nil _)
    · refine .inr ⟨?_, ss, rfl⟩
      by_contra hp
      rw [Parser.start, e.run_eq hc] at hr
      simp [run, Parser.step, Parser.close, Leaf.state, e.leaf_paren, hp] at hr
  · rintro ⟨e, hc, rfl | ⟨hp, ss, rfl⟩⟩
    · have hr : run ⟨.init, []⟩ (e.syms ++ []) = run ⟨e.leaf.state, []⟩ [] := e.run_eq hc
      rw [append_nil] at hr
      rw [Parser.start, hr]
      rfl
    · rw [Parser.start, e.run_eq hc]
      simp [run, Parser.step, Parser.close, Parser.leave, Leaf.state, e.leaf_paren, hp]

def syms (lx : Lexer) : List Sym :=
  match _h : (lex lx).1 with
  | none => []
  | some s => s :: syms (lex lx).2
termination_by lx.input.length
decreasing_by exact lex_lt (by simp [_h])

theorem syms_some (h : (lex lx).1 = some s) : syms lx = s :: syms (lex lx).2 := by
  rw [syms]
  split <;> simp_all

theorem syms_none (h : (lex lx).1 = none) : syms lx = [] := by
  rw [syms]
  split <;> simp_all

theorem lex_of_next (h : Parser.step p (lex lx).1 = .next q) : ∃ s, (lex lx).1 = some s :=
  Option.ne_none_iff_exists'.mp fun hn => Parser.step_none (hn ▸ h)

theorem parse_expr (p : Parser) (lx : Lexer) : (parse p lx).expr = run p (syms lx) := by
  fun_induction parse p lx
  case case1 p lx q hs ih =>
    obtain ⟨s, hl⟩ := lex_of_next hs
    rw [ih, syms_some hl, run_next (hl ▸ hs)]
  case case2 p lx expr errmsg hs =>
    cases hl : (lex lx).1
    case none =>
      rw [hl] at hs
      simp [syms_none hl, run, hs]
    case some s => rw [syms_some hl, run_done (hl ▸ hs)]

def InRange (ts : List Sym) : Prop :=
  ∀ text, .number text ∈ ts → Parser.strtoull text ≤ 0xffffffff

-- The character with the value of `L_EOF` is not allowed.
def Sentence (string : Text) : Prop :=
  eof ∉ string ∧ ∃ e : Phrase, syms ⟨0, string, []⟩ = e.syms ∧ InRange e.syms

def Lax (string : Text) : Prop :=
  ∃ e : Phrase, e.Checked ∧
    (syms ⟨0, string, []⟩ = e.syms ∧ (eof ∈ string ∨ ¬InRange e.syms) ∨
      e.endsParen = false ∧ ∃ ss, syms ⟨0, string, []⟩ = e.syms ++ .rparen :: ss)

mutual

theorem Operand.checked (o : Operand) (h : InRange o.syms) : o.Checked first := by
  cases o
  case name => trivial
  case number text => exact fun _ => h text (mem_singleton.mpr rfl)
  case paren e =>
    exact e.checked fun text ht => h text (by simp [Operand.syms, ht])
  case func => trivial

theorem Phrase.checked (e : Phrase) (h : InRange e.syms) : e.Checked := by
  cases e
  case one o => exact o.checked h
  case snoc e op o =>
    exact ⟨e.checked fun text ht => h text (by simp [Phrase.syms, ht]),
      o.checked fun text ht => h text (by simp [Phrase.syms, ht])⟩

end

theorem Phrase.syms_ne {e e' : Phrase} (hc : e.Checked) (hc' : e'.Checked)
    (hp : e.endsParen = false) : e'.syms ≠ e.syms ++ .rparen :: ss := by
  intro h
  -- What follows is read after one of the phrases, but not after the other one.
  have h₁ : run .start (e'.syms ++ [.error]) = none := by
    rw [Parser.start, e'.run_eq hc']
    rfl
  rw [h, Parser.start, append_assoc, e.run_eq hc] at h₁
  simp [run, Parser.step, Parser.close, Parser.leave, Leaf.state, e.leaf_paren, hp] at h₁

theorem accepts_iff (string : Text) :
    ((parse .start ⟨0, string, []⟩).expr.isSome ↔ Sentence string) ↔ ¬Lax string := by
  rw [parse_expr, run_start_iff]
  constructor
  · rintro h ⟨e, hc, ⟨hs, hb⟩ | ⟨hp, ss, hs⟩⟩
    · obtain ⟨he, e', hs', hr⟩ := h.mp ⟨e, hc, .inl hs⟩
      rcases hb with hb | hb
      · exact he hb
      · exact hb (hs ▸ hs' ▸ hr)
    · obtain ⟨-, e', hs', hr⟩ := h.mp ⟨e, hc, .inr ⟨hp, ss, hs⟩⟩
      exact Phrase.syms_ne hc (e'.checked hr) hp (hs' ▸ hs)
  · intro hl
    constructor
    · rintro ⟨e, hc, hs | hs⟩
      · have hb : ¬(eof ∈ string ∨ ¬InRange e.syms) := fun hb => hl ⟨e, hc, .inl ⟨hs, hb⟩⟩
        exact ⟨fun h => hb (.inl h), e, hs, of_not_not fun h => hb (.inr h)⟩
      · exact absurd ⟨e, hc, .inr hs⟩ hl
    · rintro ⟨-, e, hs, hr⟩
      exact ⟨e, e.checked hr, .inl hs⟩

section Register

variable {r : Registry}

def Registry.Accepts (r : Registry) (name expr : Text) : Prop :=
  (r.pmRegisterDerived name expr).2 = none

theorem Registry.accepts_iff (hn : name ∉ r.names) :
    r.Accepts name expr ↔ (parse .start (r.lexer expr)).expr.isSome := by
  cases he : (parse .start (r.lexer expr)).expr
  case none =>
    obtain ⟨pos, hr⟩ := pmRegisterDerived_none hn he
    simp [Accepts, hr]
  case some => simp [Accepts, pmRegisterDerived_some hn he]

theorem Registry.metrics_eq (h : ¬r.Accepts name expr) :
    (r.pmRegisterDerived name expr).1.metrics = r.metrics := by
  by_cases hn : name ∈ r.names
  case pos => rw [pmRegisterDerived_mem hn]
  case neg =>
    rw [accepts_iff hn, Option.not_isSome_iff_eq_none] at h
    obtain ⟨pos, hr⟩ := pmRegisterDerived_none hn h
    rw [hr]
    rfl

-- The exceptions are the defects of the scanner and the parser.
theorem accepts_sentence (hl : r.lexpeek = 0) (hn : name ∉ r.names) (expr : Text) :
    ((r.Accepts name expr ↔ Sentence (expr.takeWhile (· ≠ 0))) ↔
      ¬Lax (expr.takeWhile (· ≠ 0))) ∧
    (¬r.Accepts name expr → (r.pmRegisterDerived name expr).1.metrics = r.metrics) := by
  refine ⟨?_, Registry.metrics_eq⟩
  rw [Registry.accepts_iff hn, Registry.lexer, hl]
  exact accepts_iff _

theorem accepts_sentence_sum :
    Registry.empty.Accepts [120] [97, 43, 98] ↔ Sentence [97, 43, 98] := by
  refine (accepts_sentence rfl (by decide) [97, 43, 98]).left.mpr ?_
  have hs : syms ⟨0, [97, 43, 98], []⟩ = [.name [97], .op .plus, .name [98]] := by decide +kernel
  rintro ⟨e, -, ⟨he, hb⟩ | ⟨-, ss, he⟩⟩
  · refine hb.elim (by decide) fun hn => hn fun text ht => ?_
    simp [← (hs.symm.trans he)] at ht
  · have hm := congrArg (Sym.rparen ∈ ·) (hs.symm.trans he)
    simp at hm

-- The strings "a)(" and "a+4294967296" are accepted.
theorem accepts_not_sentence :
    let s : Text := [97, 41, 40]
    let t : Text := [97, 43, 52, 50, 57, 52, 57, 54, 55, 50, 57, 54]
    (Registry.empty.Accepts [120] s ∧ ¬Sentence s) ∧
      Registry.empty.Accepts [120] t ∧ ¬Sentence t := by
  refine ⟨⟨?_, ?_⟩, ?_, ?_⟩
  · unfold Registry.Accepts
    decide +kernel
  · rintro ⟨-, e, hs, hr⟩
    have he : (Phrase.one (.name [97])).Checked := trivial
    have hn : e.syms ≠ [.name [97]] ++ .rparen :: [.lparen] := Phrase.syms_ne he (e.checked hr) rfl
    exact hn (hs ▸ by decide +kernel)
  · unfold Registry.Accepts
    decide +kernel
  · rintro ⟨-, e, hs, hr⟩
    rw [← hs] at hr
    exact absurd (hr [52, 50, 57, 52, 57, 54, 55, 50, 57, 54] (by decide +kernel)) (by decide)

end Register

end Derive
