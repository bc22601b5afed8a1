import PcpModel.Derive.Grammar
import PcpModel.Library.Run

-- What one registration leaves to the next ones.
namespace Derive

open List

-- The character that follows a token, if it is a name or a number.
def following (this : Text) : Option Sym → Option Int8
  | some (.name text) | some (.number text) =>
    this.drop (text.length - 1) |>.head?.filter (· ≠ eof)
  | _ => none

def Parsed.follows (parsed : Parsed) : Option Int8 :=
  following parsed.lexer.this parsed.last

theorem unget_this (this rest : Text) : (Lexer.unget this rest).this = this := by
  cases rest <;> rfl

theorem unget_lexpeek (this rest : Text) :
    (Lexer.unget this rest).lexpeek = (rest.head?.filter (· ≠ eof)).getD 0 := by
  cases rest
  case nil => rfl
  case cons c cs =>
    by_cases hc : c = eof <;> simp [Lexer.unget, Option.filter, hc]

theorem drop_takeWhile (f : Int8 → Bool) (cs : Text) :
    cs.drop (cs.takeWhile f).length = cs.dropWhile f := by
  induction cs
  case nil => rfl
  case cons c cs ih => by_cases hc : f c <;> simp [hc, ih]

theorem lex_lexpeek (lx : Lexer) :
    (lex lx).2.lexpeek = (following (lex lx).2.this (lex lx).1).getD 0 := by
  unfold lex
  split
  case h_1 => rfl
  case h_2 c cs hc =>
    split_ifs
    · rfl
    · simp [unget_lexpeek, unget_this, following, drop_takeWhile]
    · unfold lexName
      split
      · rfl
      · simp [unget_lexpeek, unget_this, following, drop_takeWhile]
    · unfold punct
      split_ifs <;> rfl

theorem parse_lexpeek (p : Parser) (lx : Lexer) :
    (parse p lx).lexer.lexpeek = (parse p lx).follows.getD 0 := by
  fun_induction parse p lx
  case case1 ih => exact ih
  case case2 => exact lex_lexpeek _

theorem mem_of_following (h : following this s = some c) : c ∈ this := by
  unfold following at h
  split at h
  case h_3 => contradiction
  all_goals
    obtain ⟨h, -⟩ := Option.filter_eq_some_iff.mp h
    exact mem_of_mem_drop (mem_of_head? h)

theorem unget_string_sublist (this rest : Text) :
    (Lexer.unget this rest).string.Sublist rest := by
  cases rest
  case nil => exact .refl _
  case cons => exact sublist_cons_self _ _

theorem lexName_sublist (text rest this : Text) :
    (lexName text rest this).2.string.Sublist rest ∧ (lexName text rest this).2.this = this := by
  unfold lexName
  split
  · exact ⟨tail_sublist rest, rfl⟩
  · exact ⟨unget_string_sublist this rest, unget_this this rest⟩

theorem lex_sublist (lx : Lexer) :
    (lex lx).2.string.Sublist lx.input ∧ (lex lx).2.this.Sublist lx.input := by
  have hd := dropWhile_sublist isspace (l := lx.input)
  unfold lex
  split
  case h_1 => exact ⟨nil_sublist _, nil_sublist _⟩
  case h_2 c cs hc =>
    have hs : cs.Sublist lx.input := (sublist_cons_self c cs).trans (hc ▸ hd)
    split_ifs
    · exact ⟨hs, hs⟩
    · refine ⟨(unget_string_sublist _ _).trans ((dropWhile_sublist _).trans hs), ?_⟩
      rwa [unget_this]
    · obtain ⟨h₁, h₂⟩ := lexName_sublist (c :: cs.takeWhile inName) (cs.dropWhile inName) cs
      refine ⟨h₁.trans ((dropWhile_sublist _).trans hs), ?_⟩
      rwa [h₂]
    · exact ⟨hs, hs⟩

theorem notMem_input {lx : Lexer} (h : 0 ∉ lx.string) : 0 ∉ lx.input := by
  unfold Lexer.input
  split
  case isTrue => exact h
  case isFalse hp => exact not_mem_cons_of_ne_of_not_mem (Ne.symm hp) h

theorem parse_this (p : Parser) (lx : Lexer) (h : 0 ∉ lx.string) :
    0 ∉ (parse p lx).lexer.this := by
  fun_induction parse p lx
  case case1 p lx q hs ih => exact ih fun hm => notMem_input h ((lex_sublist lx).left.subset hm)
  case case2 p lx _ _ hs => exact fun hm => notMem_input h ((lex_sublist lx).right.subset hm)

theorem parse_lexpeek_iff (h : 0 ∉ lx.string) :
    (parse p lx).lexer.lexpeek = 0 ↔ (parse p lx).follows = none := by
  rw [parse_lexpeek]
  cases hf : (parse p lx).follows
  case none => simp
  case some c =>
    have hc : c ≠ 0 := fun hc => parse_this p lx h (hc ▸ mem_of_following hf)
    simp [hc]

theorem Parser.step_some {p : Parser} (h : p.step s = .done (some n) errmsg) :
    s = none ∨ s = some .rparen := by
  rcases s with _ | s
  case none => exact .inl rfl
  case some =>
    cases s
    case rparen => exact .inr rfl
    case error => cases h
    all_goals
      simp only [step, shift, enter] at h
      split at h <;> (try split at h) <;> cases h

theorem leaf_completes (cs : List State) (paren : Bool) (above : List Frame) (curr : Node) :
    ∃ ts, (run ⟨.leaf paren above curr, cs⟩ ts).isSome := by
  induction cs generalizing paren above curr
  case nil => exact ⟨[], rfl⟩
  case cons st cs hi =>
    obtain ⟨above', curr', hr⟩ : ∃ above' curr',
        Parser.resume (plug above curr) st = .leaf true above' curr' := by
      cases st <;> exact ⟨_, _, rfl⟩
    obtain ⟨ts, ht⟩ := hi true above' curr'
    exact ⟨.rparen :: ts, by rwa [run_next step_rparen, hr]⟩

-- There is no state in which nothing could be accepted any more.
theorem completes (p : Parser) : ∃ ts, (run p ts).isSome := by
  obtain ⟨st, cs⟩ := p
  cases st
  case init | binop => exact (leaf_completes cs _ _ _).imp' (.name [] :: ·) fun _ h => h
  case leaf => exact leaf_completes cs _ _ _
  case funcEnd => exact (leaf_completes cs _ _ _).imp' (.rparen :: ·) fun _ h => h
  case funcOp above f =>
    obtain ⟨arg, n, ha⟩ : ∃ arg n, Parser.argument f arg = some n := by
      cases f
      case anon => exact ⟨Parser.anonType.pmType ++ [51, 50], _, rfl⟩
      all_goals exact ⟨[], _, rfl⟩
    obtain ⟨ts, ht⟩ := leaf_completes cs false [] (plug above (.func f n))
    exact ⟨.name arg :: .rparen :: ts, by rwa [run_next (step_argument ha)]⟩

abbrev Parser.Accepts (p : Parser) (ts : List Sym) : Prop :=
  (run p ts).isSome

section Clean

variable (accepted : List Sym → Prop)

def Begins (ts : List Sym) : Prop :=
  ∃ ts', accepted (ts ++ ts')

-- The scanner after `k` tokens.
def Lexer.after (lx : Lexer) : Nat → Lexer
  | 0 => lx
  | k + 1 => after (lex lx).2 k

-- The first token with which no accepted expression begins is not a name or a number that is
-- followed by another character.
def Clean (lx : Lexer) : Prop :=
  ∀ k, Begins accepted ((syms lx).take k) → ¬Begins accepted ((syms lx).take (k + 1)) →
    following (lex (lx.after k)).2.this (lex (lx.after k)).1 = none

end Clean

theorem clean_of_accepted (h : accepted (syms lx)) : Clean accepted lx := by
  intro k _ hn
  exact absurd ⟨(syms lx).drop (k + 1), by rwa [take_append_drop]⟩ hn

theorem parse_clean (p : Parser) (lx : Lexer) :
    (parse p lx).follows = none ↔ Clean p.Accepts lx := by
  have h₀ (p : Parser) : Begins p.Accepts [] := completes p
  fun_induction parse p lx
  case case1 p lx q hs ih =>
    obtain ⟨s, hl⟩ := lex_of_next hs
    have hb (ts : List Sym) : Begins p.Accepts (s :: ts) ↔ Begins q.Accepts ts := by
      simp only [Begins, Parser.Accepts, cons_append, run_next (hl ▸ hs)]
    -- The token is taken, so that the condition is the one for what follows it.
    refine ih.trans <| .trans ?_ Nat.and_forall_add_one
    simp only [syms_some hl, take_succ_cons, take_zero, hb, h₀, not_true, false_implies,
      implies_true, true_and]
    rfl
  case case2 p lx expr errmsg hs =>
    cases hl : (lex lx).1
    case none =>
      refine iff_of_true (by simp [Parsed.follows, following]) fun k _ hn => absurd ?_ hn
      simpa [syms_none hl] using h₀ p
    case some s =>
      have hb (ts : List Sym) : Begins p.Accepts (s :: ts) ↔ expr.isSome := by
        simp only [Begins, Parser.Accepts, cons_append, run_done (hl ▸ hs), exists_const]
      refine .trans ?_ Nat.and_forall_add_one
      simp only [syms_some hl, take_succ_cons, hb]
      cases expr
      case none => simp [h₀, Parsed.follows, Lexer.after, hl]
      case some =>
        have hp : some s = some .rparen := (Parser.step_some (hl ▸ hs)).resolve_left (by simp)
        cases hp
        simp [Parsed.follows, following]

namespace Registry

structure Call where
  name : Text
  expr : Text

def step (r : Registry) (c : Call) : Option Registry :=
  some (r.pmRegisterDerived c.name c.expr).1

def Allows (r : Registry) (c : Call) : Prop :=
  c.name ∈ r.names ∨ Clean Accepted (empty.lexer c.expr)

theorem clean_iff : Clean Accepted lx ↔ (parse .start lx).follows = none := by
  have h : Parser.start.Accepts = Accepted := funext fun _ => propext run_start_iff
  rw [parse_clean, h]

def outcome (r : Registry) (name expr : Text) : Option Node × Option Int :=
  ((r.pmRegisterDerived name expr).1.metrics[r.metrics.length]?.map (·.expr),
    (r.pmRegisterDerived name expr).2)

variable {r r' : Registry}

theorem lexer_eq (h : r.lexpeek = 0) (expr : Text) : r.lexer expr = empty.lexer expr := by
  rw [lexer, h]
  rfl

theorem lexpeek_eq (hn : name ∉ r.names) : (r.pmRegisterDerived name expr).1.lexpeek =
    (parse .start (r.lexer expr)).lexer.lexpeek := by
  cases he : (parse .start (r.lexer expr)).expr
  case none =>
    obtain ⟨pos, hr⟩ := pmRegisterDerived_none hn he
    rw [hr]
    rfl
  case some =>
    rw [pmRegisterDerived_some hn he]
    rfl

theorem lexpeek_iff (h : r.lexpeek = 0) (hn : name ∉ r.names) :
    (r.pmRegisterDerived name expr).1.lexpeek = 0 ↔ Clean Accepted (empty.lexer expr) := by
  rw [lexpeek_eq hn, lexer_eq h, clean_iff]
  exact parse_lexpeek_iff fun h => by simpa using mem_takeWhile_imp h

theorem step_lexpeek (h : r.lexpeek = 0) (ha : r.Allows c) :
    ∃ r', r.step c = some r' ∧ r'.lexpeek = 0 := by
  refine ⟨_, rfl, ?_⟩
  by_cases hn : c.name ∈ r.names
  case pos => rwa [pmRegisterDerived_mem hn]
  case neg => exact (lexpeek_iff h hn).mpr (ha.resolve_left hn)

def outcomeOf (lx : Lexer) (parsed : Parsed) : Option Node × Option Int :=
  (parsed.expr, parsed.expr.elim (some (lx.string.length - parsed.lexer.this.length - 1))
    fun _ => none)

theorem outcome_mem (hn : name ∈ r.names) : r.outcome name expr = (none, some 0) := by
  simp [outcome, pmRegisterDerived_mem hn]

theorem outcome_notMem (hn : name ∉ r.names) : r.outcome name expr =
    outcomeOf (r.lexer expr) (parse .start (r.lexer expr)) := by
  simp only [outcome, pmRegisterDerived, if_neg hn, outcomeOf]
  cases (parse .start (r.lexer expr)).expr <;> simp [after, add]

theorem outcome_congr (h : r.lexpeek = 0) (h' : r'.lexpeek = 0)
    (hn : name ∈ r.names ↔ name ∈ r'.names) : r.outcome name expr = r'.outcome name expr := by
  by_cases hm : name ∈ r.names
  case pos => rw [outcome_mem hm, outcome_mem (hn.mp hm)]
  case neg => rw [outcome_notMem hm, outcome_notMem (hm ∘ hn.mpr), lexer_eq h, lexer_eq h']

theorem exec_forgets (hg : Run.Guarded step Allows empty cs)
    (hg' : Run.Guarded step Allows empty cs') :
    ∃ r r', Run.exec step empty cs = some r ∧ Run.exec step empty cs' = some r' ∧
      r.lexpeek = 0 ∧
      (∀ name expr, (name ∈ r.names ↔ name ∈ r'.names) →
        r.outcome name expr = r'.outcome name expr) ∧
      ∀ name expr, name ∉ r.names →
        ((r.pmRegisterDerived name expr).1.lexpeek = 0 ↔ Clean Accepted (empty.lexer expr)) ∧
        ((r.pmRegisterDerived name expr).2 = none → Clean Accepted (empty.lexer expr)) := by
  obtain ⟨r, he, h⟩ := Run.exec_invariant (fun _ _ => step_lexpeek) rfl hg
  obtain ⟨r', he', h'⟩ := Run.exec_invariant (fun _ _ => step_lexpeek) rfl hg'
  refine ⟨r, r', he, he', h, fun _ _ => outcome_congr h h', fun name expr hn => ?_⟩
  refine ⟨lexpeek_iff h hn, fun ha => clean_of_accepted ?_⟩
  rw [← run_start_iff, ← parse_expr, ← lexer_eq h]
  exact (accepts_iff hn).mp ha

theorem exec_forgets_two :
    ∃ r r', Run.exec step empty [⟨[120], [97]⟩, ⟨[121], [97, 43]⟩] = some r ∧
      Run.exec step empty [⟨[120], [98]⟩] = some r' ∧ r.lexpeek = 0 ∧
      ∀ expr, r.outcome [122] expr = r'.outcome [122] expr := by
  have hg : Run.Guarded step Allows empty [⟨[120], [97]⟩, ⟨[121], [97, 43]⟩] :=
    .cons (.inr (clean_iff.mpr (by decide +kernel))) rfl <|
      .cons (.inr (clean_iff.mpr (by decide +kernel))) rfl trivial
  have hg' : Run.Guarded step Allows empty [⟨[120], [98]⟩] :=
    .cons (.inr (clean_iff.mpr (by decide +kernel))) rfl trivial
  obtain ⟨r, r', he, he', hl, ho, -⟩ := exec_forgets hg hg'
  refine ⟨r, r', he, he', hl, fun expr => ho _ expr ?_⟩
  cases he
  cases he'
  decide +kernel

-- The string "a b+" is rejected at the second name, and then "c" is read as "+c".
theorem exec_remembers :
    ∃ r, Run.exec step empty [⟨[120], [97, 32, 98, 43]⟩] = some r ∧ r.names = empty.names ∧
      r.outcome [121] [99] = (none, some (-1)) ∧
      empty.outcome [121] [99] = (some (.name [99] false), none) := by
  refine ⟨_, rfl, ?_, ?_, ?_⟩
  · decide +kernel
  · decide +kernel
  · decide +kernel

end Registry

end Derive
