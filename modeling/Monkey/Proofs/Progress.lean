import Monkey.Proofs.Lexing
import Monkey.Proofs.Walk

/-!
# The parser makes progress

The parser never goes back, and at the end of the input there is nothing to start with. Each loop of
the parser repeats one turn. A turn that is followed by another one has read a token, so there are
no more turns than tokens. A whole program is read up to the end of the input; asked for another
one, the parser gives an empty program and reports nothing.
-/

namespace Monkey

/-! ## Turns of a loop

A turn has the value `some true` if another turn follows, `some false` if it comes to the end of the
loop and `none` if it gives up. -/

namespace Step

variable {α β : Type} {m n k l : Nat}

/-- The errors of a step and the tokens behind it. -/
def trace (s : Step α n) : List Diagnostic × List Token := (s.errors, s.rest)

/-- A turn, and behind it what `run` makes of the tokens that it leaves to the next turn. -/
def goOn (run : List Token → List Diagnostic × List Token) (s : Step (Option Bool) n) :
    List Diagnostic × List Token :=
  if s.value = some true then (s.errors ++ (run s.rest).1, (run s.rest).2) else s.trace

variable {run : List Token → List Diagnostic × List Token}

theorem goOn_again (rest : List Token) (h : rest.length ≤ n) :
    (done (some true) rest h).goOn run = run rest := by
  simp [goOn, done]

theorem goOn_last (rest : List Token) (h : rest.length ≤ n) :
    (done (some false) rest h).goOn run = ([], rest) := by
  simp [goOn, done, trace]

theorem goOn_fail (d : Diagnostic) (rest : List Token) (h : rest.length ≤ n) :
    (fail d rest h).goOn run = ([d], rest) := by
  simp [goOn, fail, trace]

theorem goOn_andThen {s : Step (Option α) m}
    {f : α → (rest : List Token) → rest.length ≤ m → Step (Option β) k}
    {g : α → (rest : List Token) → rest.length ≤ m → Step (Option Bool) l}
    (hf : ∀ a rest h, (f a rest h).trace = (g a rest h).goOn run) (hk : m ≤ k) (hl : m ≤ l) :
    (s.andThen f hk).trace = (s.andThen g hl).goOn run := by
  unfold andThen
  cases hs : s.value with
  | none => simp [goOn, trace]
  | some a =>
    have h := hf a s.rest s.bound
    by_cases hagain : (g a s.rest s.bound).value = some true
    · simp only [goOn, trace, hagain, if_true, Prod.mk.injEq] at h ⊢
      rw [h.1, h.2, List.append_assoc]
      exact ⟨rfl, rfl⟩
    · simp only [goOn, trace, hagain, if_false, Prod.mk.injEq] at h ⊢
      rw [h.1, h.2]
      exact ⟨rfl, rfl⟩

/-- A turn that is followed by another one leaves fewer than `k` tokens. -/
def Shortens (s : Step (Option Bool) n) (k : Nat) : Prop := s.value = some true → s.rest.length < k

theorem shortens_last (rest : List Token) (h : rest.length ≤ n) :
    (done (some false) rest h).Shortens k := by
  intro hvalue
  cases hvalue

theorem shortens_fail (d : Diagnostic) (rest : List Token) (h : rest.length ≤ n) :
    (fail d rest h : Step (Option Bool) n).Shortens k := by
  intro hvalue
  cases hvalue

theorem shortens_andThen {s : Step (Option α) m}
    {f : α → (rest : List Token) → rest.length ≤ m → Step (Option Bool) n}
    (hf : ∀ a rest h, (f a rest h).Shortens k) (h : m ≤ n) : (s.andThen f h).Shortens k := by
  unfold andThen
  cases hs : s.value with
  | none =>
    intro hvalue
    cases hvalue
  | some a => exact hf a s.rest s.bound

end Step

section Expect

variable {α : Type} {m n k : Nat} {stop : Span} {kind : TokenKind} {ts : List Token}

theorem goOn_expect {run : List Token → List Diagnostic × List Token}
    {f : Token → (rest : List Token) → rest.length < ts.length → Step (Option α) m}
    {g : Token → (rest : List Token) → rest.length < ts.length → Step (Option Bool) n}
    (hf : ∀ t rest h, (f t rest h).trace = (g t rest h).goOn run)
    (hm : ts.length ≤ m) (hn : ts.length ≤ n) :
    (expect stop kind ts f hm).trace = (expect stop kind ts g hn).goOn run := by
  unfold expect
  split
  · exact (Step.goOn_fail _ _ _).symm
  · split
    · exact hf _ _ _
    · exact (Step.goOn_fail _ _ _).symm

theorem shortens_expect
    {f : Token → (rest : List Token) → rest.length < ts.length → Step (Option Bool) n}
    (hf : ∀ t rest h, (f t rest h).Shortens k) (h : ts.length ≤ n) :
    (expect stop kind ts f h).Shortens k := by
  unfold expect
  split
  · exact Step.shortens_fail _ _ _
  · split
    · exact hf _ _ _
    · exact Step.shortens_fail _ _ _

end Expect

/-! ## The loops of the parser -/

namespace Parser

variable (stop : Span)

/-- Where the parser goes round. -/
inductive Loop where
  | program
  | block
  | pairs
  | expressions (closing : TokenKind)
  | parameters
deriving DecidableEq

namespace Loop

/-- What the loop reports from here on, and the tokens behind it. -/
def run : Loop → List Token → List Diagnostic × List Token
  | program, ts => (statements stop ts).trace
  | block, ts => (Parser.block stop ts).trace
  | pairs, ts => (Parser.pairs stop ts).trace
  | expressions closing, ts => (moreExpressions stop closing ts).trace
  | parameters, ts => (moreParameters stop ts).trace

/-- One turn of the loop. The bound is a loose one; `turn_shortens` says more. -/
def turn (l : Loop) (ts : List Token) : Step (Option Bool) (ts.length + 1) :=
  match l, ts with
  | program, [] => .done (some false) []
  | program, t :: rest => (statement stop (t :: rest)).map fun _ => some true
  | block, [] => .done (some false) []
  | block, t :: rest =>
    if t.kind = .rightBrace then .done (some false) rest
    else (statement stop (t :: rest)).map fun _ => some true
  | pairs, ts =>
    if headKind ts = .rightBrace then .done (some false) ts.tail
    else
      (expression stop .lowest ts).andThen fun _ rest _ =>
        expect stop .colon rest fun _ rest _ =>
          (expression stop .lowest rest).andThen fun _ rest _ =>
            if headKind rest = .rightBrace then .done (some false) rest.tail
            else expect stop .comma rest fun _ rest _ => .done (some true) rest
  | expressions closing, [] => .fail (unexpected stop closing []) []
  | expressions closing, t :: rest =>
    if t.kind = .comma then
      (expression stop .lowest rest).andThen fun _ rest _ => .done (some true) rest
    else expect stop closing (t :: rest) fun _ rest _ => .done (some false) rest
  | parameters, [] => .fail (unexpected stop .rightParen []) []
  | parameters, t :: rest =>
    if t.kind = .comma then
      expect stop .identifier rest fun _ rest _ => .done (some true) rest
    else expect stop .rightParen (t :: rest) fun _ rest _ => .done (some false) rest

/-- The tokens that `n` turns leave to the next turn, if none of them ends the loop. -/
def turns? (l : Loop) : Nat → List Token → Option (List Token)
  | 0, ts => some ts
  | n + 1, ts =>
    if (l.turn stop ts).value = some true then l.turns? n (l.turn stop ts).rest else none

theorem run_eq (l : Loop) (ts : List Token) :
    l.run stop ts = (l.turn stop ts).goOn (l.run stop) := by
  -- Unfold the loop once on each side: what is left is the turn, and what it goes on with.
  cases l with
  | program =>
    cases ts with
    | nil =>
      simp only [run, turn]
      rw [statements]
      exact (Step.goOn_last _ _).symm
    | cons t rest =>
      simp only [run, turn]
      rw [statements]
      rfl
  | block =>
    cases ts with
    | nil =>
      simp only [run, turn]
      rw [Parser.block]
      exact (Step.goOn_last _ _).symm
    | cons t rest =>
      simp only [run, turn]
      rw [Parser.block]
      split
      · exact (Step.goOn_last _ _).symm
      · rfl
  | pairs =>
    simp only [run, turn]
    rw [Parser.pairs]
    split
    · exact (Step.goOn_last _ _).symm
    · refine Step.goOn_andThen (fun key rest _ => goOn_expect (fun _ rest _ => ?_) _ _) _ _
      refine Step.goOn_andThen (fun value rest _ => ?_) _ _
      split
      · exact (Step.goOn_last _ _).symm
      · refine goOn_expect (fun _ rest _ => ?_) _ _
        rw [Step.goOn_again]
        rfl
  | expressions closing =>
    cases ts with
    | nil =>
      simp only [run, turn]
      rw [moreExpressions]
      exact (Step.goOn_fail _ _ _).symm
    | cons t rest =>
      simp only [run, turn]
      rw [moreExpressions]
      split
      · refine Step.goOn_andThen (fun e rest _ => ?_) _ _
        rw [Step.goOn_again]
        rfl
      · refine goOn_expect (fun _ rest _ => ?_) _ _
        exact (Step.goOn_last _ _).symm
  | parameters =>
    cases ts with
    | nil =>
      simp only [run, turn]
      rw [moreParameters]
      exact (Step.goOn_fail _ _ _).symm
    | cons t rest =>
      simp only [run, turn]
      rw [moreParameters]
      split
      · refine goOn_expect (fun p rest _ => ?_) _ _
        rw [Step.goOn_again]
        rfl
      · refine goOn_expect (fun _ rest _ => ?_) _ _
        exact (Step.goOn_last _ _).symm

theorem turn_walks (l : Loop) (ts : List Token) :
    (l.turn stop ts).Walks stop ts ts.length lost := by
  have hexpression (rest : List Token) :
      (expression stop .lowest rest).Walks stop rest rest.length lost :=
    (expression_walks stop .lowest rest).whole
  unfold turn
  split
  · exact Step.walks_done _ _
  · exact (statement_walks stop _).free.mapToSome _ _
  · exact Step.walks_done _ _
  · split
    · exact (Step.walks_done _ _).behind _
    · exact (statement_walks stop _).free.mapToSome _ _
  · split
    · exact (Step.walks_done _ _).behindHead
    · refine (hexpression _).andThen (fun _ rest _ => walks_expect fun _ rest _ => ?_) _
      refine (hexpression rest).andThen (fun _ rest _ => ?_) _
      split
      · exact (Step.walks_done _ _).behindHead
      · exact walks_expect fun _ _ _ => Step.walks_done _ _
  · exact Step.walks_fail _ _
  · split
    · exact ((hexpression _).behind _).andThen (fun _ _ _ => Step.walks_done _ _) _
    · exact walks_expect fun _ _ _ => Step.walks_done _ _
  · exact Step.walks_fail _ _
  · split
    · exact (walks_expect fun _ _ _ => Step.walks_done _ _).behind _
    · exact walks_expect fun _ _ _ => Step.walks_done _ _

theorem turn_shortens (l : Loop) (ts : List Token) : (l.turn stop ts).Shortens ts.length := by
  have hstatement (t : Token) (rest : List Token) {n : Nat} (h : (t :: rest).length - 1 ≤ n) :
      ((statement stop (t :: rest)).map (fun _ => some true) h).Shortens (t :: rest).length := by
    intro _
    exact Nat.lt_of_le_of_lt (statement stop (t :: rest)).bound (Nat.lt_succ_self _)
  unfold turn
  split
  · exact Step.shortens_last _ _
  · exact hstatement _ _ _
  · exact Step.shortens_last _ _
  · split
    · exact Step.shortens_last _ _
    · exact hstatement _ _ _
  · split
    · exact Step.shortens_last _ _
    · refine Step.shortens_andThen (fun _ rest _ => shortens_expect (fun _ rest _ => ?_) _) _
      refine Step.shortens_andThen (fun _ rest _ => ?_) _
      split
      · exact Step.shortens_last _ _
      · refine shortens_expect (fun _ rest _ _ => ?_) _
        simp only [Step.done]
        omega
  · exact Step.shortens_fail _ _ _
  · split
    · refine Step.shortens_andThen (fun _ rest _ _ => ?_) _
      simp only [Step.done, List.length_cons]
      omega
    · exact shortens_expect (fun _ _ _ => Step.shortens_last _ _) _
  · exact Step.shortens_fail _ _ _
  · split
    · refine shortens_expect (fun _ rest _ _ => ?_) _
      simp only [Step.done, List.length_cons]
      omega
    · exact shortens_expect (fun _ _ _ => Step.shortens_last _ _) _

theorem turn_reads {l : Loop} {ts : List Token} (h : (l.turn stop ts).value = some true) :
    ∃ t read, ts = t :: read ++ (l.turn stop ts).rest := by
  have hshorter := l.turn_shortens stop ts h
  obtain ⟨read, hread⟩ := (l.turn_walks stop ts).along.suffix
  cases read with
  | nil =>
    rw [List.nil_append] at hread
    rw [hread] at hshorter
    omega
  | cons t read => exact ⟨t, read, hread.symm⟩

theorem turns?_length {l : Loop} {n : Nat} {ts us : List Token}
    (h : l.turns? stop n ts = some us) : n + us.length ≤ ts.length := by
  induction n generalizing ts with
  | zero =>
    cases h
    omega
  | succ n ih =>
    simp only [turns?] at h
    split at h
    · rename_i hagain
      have hshorter := l.turn_shortens stop ts hagain
      have hlength := ih h
      omega
    · cases h

end Loop

/-! ## The end of the input -/

theorem expression_nil (p : Precedence) : (expression stop p []).value = none := by
  rw [expression, operand]
  rfl

theorem statement_nil : (statement stop []).value = none := by
  rw [statement]
  simp only [headKind]
  rw [expression, operand]
  rfl

theorem program_again (p : Parser) :
    p.program.2.tokens = [] ∧ p.program.2.program = (⟨[]⟩, p.program.2) := by
  have htokens : p.program.2.tokens = [] := statements_rest p.stop p.tokens
  refine ⟨htokens, ?_⟩
  generalize p.program.2 = q at htokens
  obtain ⟨tokens, stop, errors⟩ := q
  obtain rfl : tokens = [] := htokens
  simp [program, statements, Step.done]

/-- Every part of the parser, started with `ts`, leaves the end of `ts`. -/
structure MovesOn (ts : List Token) : Prop where
  expression (p : Precedence) : (expression stop p ts).rest <:+ ts
  operand : (operand stop ts).rest <:+ ts
  operators (p : Precedence) (left : Expr) : (operators stop p left ts).rest <:+ ts
  expressions (closing : TokenKind) : (expressions stop closing ts).rest <:+ ts
  moreExpressions (closing : TokenKind) : (moreExpressions stop closing ts).rest <:+ ts
  pairs : (pairs stop ts).rest <:+ ts
  parameters : (parameters stop ts).rest <:+ ts
  moreParameters : (moreParameters stop ts).rest <:+ ts
  block : (block stop ts).rest <:+ ts
  statement : (statement stop ts).rest <:+ ts
  statements : (statements stop ts).rest <:+ ts

theorem movesOn (ts : List Token) : MovesOn stop ts where
  expression p := (expression_walks stop p ts).along.suffix
  operand := (operand_walks stop ts).along.suffix
  operators p left := (operators_walks stop p left ts).along.suffix
  expressions closing := (expressions_walks stop closing ts).along.suffix
  moreExpressions closing := (moreExpressions_walks stop closing ts).along.suffix
  pairs := (pairs_walks stop ts).along.suffix
  parameters := (parameters_walks stop ts).along.suffix
  moreParameters := (moreParameters_walks stop ts).along.suffix
  block := (block_walks stop ts).along.suffix
  statement := (statement_walks stop ts).along.suffix
  statements := (statements_walks stop ts).along.suffix

/-- The parser never goes back, reads a token in each turn, and ends at the end of the input. -/
theorem program_ends :
    (∀ ts, MovesOn stop ts) ∧
    (∀ p, (expression stop p []).value = none) ∧ (statement stop []).value = none ∧
    (∀ (l : Loop) ts, l.run stop ts = (l.turn stop ts).goOn (l.run stop)) ∧
    (∀ (l : Loop) ts, (l.turn stop ts).value = some true →
      ∃ t read, ts = t :: read ++ (l.turn stop ts).rest) ∧
    (∀ s : Cursor, ∀ t ∈ (ofCursor s).tokens, t.kind ≠ .eof) ∧
    (∀ (l : Loop) n ts us, l.turns? stop n ts = some us → n + us.length ≤ ts.length) ∧
    ∀ p : Parser, p.program.2.tokens = [] ∧ p.program.2.program = (⟨[]⟩, p.program.2) := by
  refine ⟨movesOn stop, expression_nil stop, statement_nil stop, Loop.run_eq stop, ?_, ?_, ?_,
    program_again⟩
  · intro l ts h
    exact Loop.turn_reads stop h
  · intro s t ht
    exact (Cursor.valid_of_mem_tokens ht).kind_ne_eof
  · intro l n ts us h
    exact Loop.turns?_length stop h

/-- The tokens of a hash that is never closed, behind its brace. -/
def unclosedHash : List Token := (Cursor.ofSource "1: 2, 3: 4, 5").tokens

theorem program_ends_unclosedHash :
    Loop.pairs.turns? .none 2 unclosedHash = some (unclosedHash.drop 8) ∧
      (∃ t read, unclosedHash = t :: read ++ (Loop.pairs.turn .none unclosedHash).rest) ∧
      2 + (unclosedHash.drop 8).length ≤ unclosedHash.length := by
  have hturn : (Loop.pairs.turn .none unclosedHash).value = some true := by decide +kernel
  have hturns : Loop.pairs.turns? .none 2 unclosedHash = some (unclosedHash.drop 8) := by
    decide +kernel
  obtain ⟨-, -, -, -, hreads, -, hlength, -⟩ := program_ends .none
  exact ⟨hturns, hreads _ _ hturn, hlength _ _ _ _ hturns⟩

end Parser

end Monkey
