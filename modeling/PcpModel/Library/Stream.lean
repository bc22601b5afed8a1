import Mathlib.Data.List.Basic

-- Sequences that arrive in parts, possibly interrupted by faults.
namespace Stream

open List

variable {α ε : Type*}

inductive Arrival (α ε : Type*)
  | data (l : List α)
  | fault (e : ε)

def ready : List (Arrival α ε) → List α
  | .data l :: s => l ++ ready s
  | _ => []

-- What happens after that. The stream has ended if this is nothing.
def rest : List (Arrival α ε) → List (Arrival α ε)
  | .data _ :: s => rest s
  | s => s

structure Received (α ε : Type*) where
  got : List α
  fault : Option ε
  rest : List (Arrival α ε)

-- Takes elements as they arrive, until there are `n` of them.
def receive : List (Arrival α ε) → Nat → Received α ε
  | s, 0 => { got := [], fault := none, rest := s }
  | [], _ => { got := [], fault := none, rest := [] }
  | .fault e :: s, _ => { got := [], fault := e, rest := s }
  | .data l :: s, n =>
    if n < l.length then
      { got := l.take n, fault := none, rest := .data (l.drop n) :: s }
    else
      let r := receive s (n - l.length)
      { r with got := l ++ r.got }

def headFault : List (Arrival α ε) → Option ε
  | .fault e :: _ => e
  | _ => none

variable {s : List (Arrival α ε)}

theorem rest_eq_nil (h : headFault (rest s) = none) : rest s = [] := by
  induction s
  case nil => rfl
  case cons a s hi =>
    cases a
    case data l => exact hi h
    case fault e => simp [rest, headFault] at h

theorem receive_ready (h : n ≤ (ready s).length) :
    (receive s n).got = (ready s).take n ∧ (receive s n).fault = none ∧
      ready (receive s n).rest = (ready s).drop n ∧ rest (receive s n).rest = rest s := by
  induction s generalizing n
  case nil =>
    have hn : n = 0 := by simpa [ready] using h
    simp [hn, receive]
  case cons a s hi =>
    cases n
    case zero => simp [receive]
    case succ n =>
      cases a
      case fault e => simp [ready] at h
      case data l =>
        simp only [ready, length_append] at h
        by_cases hl : n + 1 < l.length
        · have hle := Nat.le_of_lt hl
          simp [receive, ready, rest, hl, take_append_of_le_length hle,
            drop_append_of_le_length hle]
        · have hle := Nat.le_of_not_lt hl
          have ⟨hg, hf, hr, hs⟩ := @hi (n + 1 - l.length) (by omega)
          simp [receive, ready, rest, hl, hg, hf, hr, hs, take_append, drop_append,
            take_of_length_le hle, drop_of_length_le hle]

theorem receive_short (h : (ready s).length < n) :
    (receive s n).got = ready s ∧ (receive s n).fault = headFault (rest s) ∧
      (receive s n).rest = (rest s).tail := by
  induction s generalizing n
  case nil =>
    cases n
    case zero => simp [receive, ready, rest, headFault]
    case succ => simp [receive, ready, rest, headFault]
  case cons a s hi =>
    cases n
    case zero => simp at h
    case succ n =>
      cases a
      case fault e => simp [receive, ready, rest, headFault]
      case data l =>
        simp only [ready, length_append] at h
        have hl : ¬n + 1 < l.length := by omega
        have ⟨hg, hf, hr⟩ := @hi (n + 1 - l.length) (by omega)
        simp [receive, ready, rest, hl, hg, hf, hr]

end Stream
