import Monkey.Diagnostic
import Monkey.Token

/-!
# One step of a parser

A parser reads tokens from the head of a list. Whether it succeeds or fails it says which tokens are
left and which errors it met, so that parsing can go on behind a mistake. A step also carries a
bound on the tokens left, which is why the parser ends.
-/

namespace Monkey

/-- The outcome of reading tokens, with at most `n` of them left. -/
structure Step (α : Type) (n : Nat) where
  value : α
  rest : List Token
  errors : List Diagnostic
  bound : rest.length ≤ n

namespace Step

variable {α β : Type} {m n : Nat}

/-- Reads nothing more. -/
def done (a : α) (rest : List Token) (h : rest.length ≤ n := by grind) : Step α n :=
  ⟨a, rest, [], h⟩

/-- Gives up with an error. -/
def fail (d : Diagnostic) (rest : List Token) (h : rest.length ≤ n := by grind) :
    Step (Option α) n :=
  ⟨none, rest, [d], h⟩

/-- The same step under a looser bound. -/
def widen (s : Step α m) (h : m ≤ n := by grind) : Step α n :=
  ⟨s.value, s.rest, s.errors, Nat.le_trans s.bound h⟩

def map (s : Step α m) (f : α → β) (h : m ≤ n := by grind) : Step β n :=
  ⟨f s.value, s.rest, s.errors, Nat.le_trans s.bound h⟩

/-- Changes the value, if there is one. -/
def mapSome (s : Step (Option α) m) (f : α → β) (h : m ≤ n := by grind) : Step (Option β) n :=
  s.map (Option.map f) h

/-- Goes on with what is left, whatever the outcome so far. -/
def next (s : Step α m) (f : α → (rest : List Token) → rest.length ≤ m → Step β n) : Step β n :=
  let t := f s.value s.rest s.bound
  ⟨t.value, t.rest, s.errors ++ t.errors, t.bound⟩

/-- Goes on with what is left if there is a value, and gives up otherwise. -/
def andThen (s : Step (Option α) m)
    (f : α → (rest : List Token) → rest.length ≤ m → Step (Option β) n)
    (h : m ≤ n := by grind) : Step (Option β) n :=
  match s.value with
  | none => ⟨none, s.rest, s.errors, Nat.le_trans s.bound h⟩
  | some a =>
    let t := f a s.rest s.bound
    ⟨t.value, t.rest, s.errors ++ t.errors, t.bound⟩

end Step

/-! ## The head of the list

An empty list stands for the end of the input, which never moves on. -/

def headKind : List Token → TokenKind
  | [] => .eof
  | t :: _ => t.kind

/-- The span of the first token. The end of the input is at `stop`. -/
def headSpan (stop : Span) : List Token → Span
  | [] => stop
  | t :: _ => t.span

def unexpected (stop : Span) (kind : TokenKind) (ts : List Token) : Diagnostic :=
  ⟨"expected next token to be " ++ kind.name ++ ", got " ++ (headKind ts).name ++ " instead",
    headSpan stop ts⟩

/-- Reads a token of the kind and goes on. Any other token is left alone and is an error. -/
def expect {α : Type} {n : Nat} (stop : Span) (kind : TokenKind) (ts : List Token)
    (f : Token → (rest : List Token) → rest.length < ts.length → Step (Option α) n)
    (h : ts.length ≤ n := by grind) : Step (Option α) n :=
  match ts with
  | [] => .fail (unexpected stop kind []) [] (Nat.zero_le n)
  | t :: rest =>
    if t.kind = kind then f t rest (Nat.lt_succ_self _)
    else .fail (unexpected stop kind (t :: rest)) (t :: rest) h

end Monkey
