import Monkey.Proofs.Everywhere
import Monkey.Proofs.Lexing
import Monkey.Proofs.Step

/-!
# Well-formed trees

A tree is well formed if its leaves can be written down: integers are not negative, strings hold no
quote and names are names. Whatever the parser builds is well formed, also from a source with
errors.
-/

namespace Monkey

/-- What can be written down as one token. -/
def wellFormed : NodeProperty where
  expr
    | .identifier name => IsName name
    | .integer n => 0 ≤ n.toInt
    | .string text => ∀ c ∈ text.toList, inString c
    | .function parameters _ => ∀ name ∈ parameters, IsName name
    | _ => True
  stmt
    | .bind name _ => IsName name
    | _ => True

abbrev Expr.WellFormed (e : Expr) : Prop := e.Everywhere wellFormed

abbrev Stmt.WellFormed (s : Stmt) : Prop := s.Everywhere wellFormed

def Program.WellFormed (P : Program) : Prop := ∀ s ∈ P.statements, s.WellFormed

theorem not_negative_of_ofDigits? {ds : List Char} {n : Int64} (h : Integer.ofDigits? ds = some n) :
    0 ≤ n.toInt := by
  rw [Integer.ofDigits?, Integer.ofInt?_eq_some_iff] at h
  omega

/-! ## What a step yields -/

def AllValid (ts : List Token) : Prop := ∀ t ∈ ts, t.terminal.Valid

theorem AllValid.tail {ts : List Token} (h : AllValid ts) : AllValid ts.tail :=
  fun t ht => h t (List.mem_of_mem_tail ht)

theorem AllValid.head {t : Token} {ts : List Token} (h : AllValid (t :: ts)) : t.terminal.Valid :=
  h t List.mem_cons_self

theorem AllValid.isName {t : Token} {ts : List Token} (h : AllValid (t :: ts))
    (hk : t.kind = .identifier) : IsName t.literal := by
  have hv := h.head
  rw [Terminal.Valid, Token.terminal_kind, hk] at hv
  exact hv

theorem AllValid.inString {t : Token} {ts : List Token} (h : AllValid (t :: ts))
    (hk : t.kind = .string) : ∀ c ∈ t.literal.toList, inString c := by
  have hv := h.head
  rw [Terminal.Valid, Token.terminal_kind, hk] at hv
  exact hv

theorem AllValid.skipSemicolon {ts : List Token} (h : AllValid ts) :
    AllValid (Parser.skipSemicolon ts) := by
  unfold Parser.skipSemicolon
  split
  · exact h
  · split
    · exact h.tail
    · exact h

namespace Step

variable {α β : Type} {m n : Nat}

/-- The value has the property, and the tokens left are valid. -/
def Yields (s : Step α n) (P : α → Prop) : Prop := P s.value ∧ AllValid s.rest

/-- The value has the property, if there is one, and the tokens left are valid. -/
def Gives (s : Step (Option α) n) (P : α → Prop) : Prop := s.Yields fun o => ∀ a ∈ o, P a

variable {P : α → Prop} {Q : β → Prop}

theorem gives_done {a : α} {rest : List Token} (h : rest.length ≤ n) (ha : P a)
    (hrest : AllValid rest) : (done (some a) rest h).Gives P := by
  refine ⟨?_, hrest⟩
  rintro b ⟨⟩
  exact ha

theorem gives_fail (d : Diagnostic) {rest : List Token} (h : rest.length ≤ n)
    (hrest : AllValid rest) : (fail d rest h).Gives P := by
  refine ⟨?_, hrest⟩
  rintro b ⟨⟩

theorem Gives.mapSome {s : Step (Option α) m} {f : α → β} (h : m ≤ n) (hs : s.Gives P)
    (hf : ∀ a, P a → Q (f a)) : (s.mapSome f h).Gives Q := by
  refine ⟨?_, hs.2⟩
  intro b hb
  obtain ⟨a, ha, rfl⟩ := Option.map_eq_some_iff.mp hb
  exact hf a (hs.1 a ha)

theorem Yields.map {s : Step α m} {f : α → β} (h : m ≤ n) (hs : s.Yields P)
    (hf : ∀ a, P a → Q (f a)) : (s.map f h).Yields Q :=
  ⟨hf _ hs.1, hs.2⟩

theorem Yields.next {s : Step α m}
    {f : α → (rest : List Token) → rest.length ≤ m → Step β n} (hs : s.Yields P)
    (hf : ∀ a rest h, P a → AllValid rest → (f a rest h).Yields Q) : (s.next f).Yields Q :=
  hf _ _ _ hs.1 hs.2

theorem Gives.andThen {s : Step (Option α) m}
    {f : α → (rest : List Token) → rest.length ≤ m → Step (Option β) n} (h : m ≤ n)
    (hs : s.Gives P) (hf : ∀ a rest h, P a → AllValid rest → (f a rest h).Gives Q) :
    (s.andThen f h).Gives Q := by
  unfold Step.andThen
  split
  · refine ⟨?_, hs.2⟩
    rintro b ⟨⟩
  · rename_i a ha
    exact hf a _ _ (hs.1 a ha) hs.2

end Step

theorem gives_expect {α : Type} {n : Nat} {Q : α → Prop} (stop : Span) {kind : TokenKind}
    {ts : List Token}
    {f : Token → (rest : List Token) → rest.length < ts.length → Step (Option α) n}
    (h : ts.length ≤ n) (hts : AllValid ts)
    (hf : ∀ t rest h, t.kind = kind → AllValid (t :: rest) → (f t rest h).Gives Q) :
    (expect stop kind ts f h).Gives Q := by
  unfold expect
  split
  · exact Step.gives_fail _ _ hts
  · split
    · rename_i hk
      exact hf _ _ _ hk hts
    · exact Step.gives_fail _ _ hts

/-! ## What the parser yields -/

namespace Parser

variable (stop : Span)

theorem moreParameters_wellFormed (ts : List Token) (hts : AllValid ts) :
    (moreParameters stop ts).Gives fun ps => ∀ name ∈ ps, IsName name := by
  rw [moreParameters.eq_def]
  split
  · exact Step.gives_fail _ _ hts
  · rename_i t rest
    split
    · refine gives_expect stop _ hts.tail fun p rest _ hp hrest => ?_
      refine (moreParameters_wellFormed rest hrest.tail).mapSome _ fun ps hps => ?_
      exact List.forall_mem_cons.mpr ⟨hrest.isName hp, hps⟩
    · refine gives_expect stop _ hts fun _ rest _ _ hrest => ?_
      exact Step.gives_done _ (by simp) hrest.tail
termination_by ts.length
decreasing_by
  all_goals
    subst_vars
    simp only [List.length_cons] at *
    omega

theorem parameters_wellFormed (ts : List Token) (hts : AllValid ts) :
    (parameters stop ts).Gives fun ps => ∀ name ∈ ps, IsName name := by
  unfold parameters
  split
  · exact Step.gives_done _ (by simp) hts.tail
  · refine gives_expect stop _ hts fun p rest _ hp hrest => ?_
    refine (moreParameters_wellFormed stop rest hrest.tail).mapSome _ fun ps hps => ?_
    exact List.forall_mem_cons.mpr ⟨hrest.isName hp, hps⟩

theorem finish_gives {n : Nat} {s : Stmt} {rest : List Token} (h : rest.length ≤ n)
    (hs : s.WellFormed) (hrest : AllValid rest) : (finish s rest h).Gives Stmt.WellFormed := by
  refine ⟨?_, hrest.skipSemicolon⟩
  rintro z ⟨⟩
  exact hs

theorem listEverywhere_toList_append {o : Option Stmt} {ss : List Stmt}
    (ho : ∀ s ∈ o, s.WellFormed) (hss : Stmt.ListEverywhere wellFormed ss) :
    Stmt.ListEverywhere wellFormed (o.toList ++ ss) := by
  cases o with
  | none => exact hss
  | some s => exact ⟨ho s rfl, hss⟩

mutual

theorem expression_wellFormed (p : Precedence) (ts : List Token) (hts : AllValid ts) :
    (expression stop p ts).Gives Expr.WellFormed := by
  rw [expression]
  refine (operand_wellFormed ts hts).andThen _ fun left rest _ hleft hrest => ?_
  exact operators_wellFormed p left rest hleft hrest
termination_by 4 * ts.length + 1
decreasing_by all_goals omega

theorem operators_wellFormed (p : Precedence) (left : Expr) (ts : List Token)
    (hleft : left.WellFormed) (hts : AllValid ts) :
    (operators stop p left ts).Gives Expr.WellFormed := by
  rw [operators.eq_def]
  split
  · exact Step.gives_done _ hleft hts
  · rename_i t rest
    split
    · split
      · refine (expression_wellFormed _ rest hts.tail).andThen _ fun right rest _ hright hrest => ?_
        exact operators_wellFormed p _ rest ⟨trivial, hleft, hright⟩ hrest
      · split
        · refine (expressions_wellFormed _ rest hts.tail).andThen _
            fun args rest _ hargs hrest => ?_
          exact operators_wellFormed p _ rest ⟨trivial, hleft, hargs⟩ hrest
        · refine (expression_wellFormed _ rest hts.tail).andThen _
            fun index rest _ hindex hrest => ?_
          refine gives_expect stop _ hrest fun _ rest _ _ hrest => ?_
          exact operators_wellFormed p _ rest ⟨trivial, hleft, hindex⟩ hrest.tail
    · exact Step.gives_done _ hleft hts
termination_by 4 * ts.length
decreasing_by
  all_goals
    subst_vars
    simp only [List.length_cons] at *
    omega

theorem operand_wellFormed (ts : List Token) (hts : AllValid ts) :
    (operand stop ts).Gives Expr.WellFormed := by
  rw [operand.eq_def]
  split
  · exact Step.gives_fail _ _ hts
  · rename_i t rest
    split
    · rename_i hk
      exact Step.gives_done _ ⟨hts.isName hk, trivial⟩ hts.tail
    · split
      · rename_i hn
        exact Step.gives_done _ ⟨not_negative_of_ofDigits? hn, trivial⟩ hts.tail
      · exact Step.gives_fail _ _ hts.tail
    · rename_i hk
      exact Step.gives_done _ ⟨hts.inString hk, trivial⟩ hts.tail
    · exact Step.gives_done _ ⟨trivial, trivial⟩ hts.tail
    · exact Step.gives_done _ ⟨trivial, trivial⟩ hts.tail
    · exact (expression_wellFormed _ rest hts.tail).mapSome _ fun e he => ⟨trivial, he⟩
    · exact (expression_wellFormed _ rest hts.tail).mapSome _ fun e he => ⟨trivial, he⟩
    · refine (expression_wellFormed _ rest hts.tail).andThen _ fun e rest _ he hrest => ?_
      exact gives_expect stop _ hrest fun _ _ _ _ hrest => Step.gives_done _ he hrest.tail
    · refine gives_expect stop _ hts.tail fun _ rest _ _ hrest => ?_
      refine (expression_wellFormed _ rest hrest.tail).andThen _ fun c rest _ hc hrest => ?_
      refine gives_expect stop _ hrest fun _ rest _ _ hrest => ?_
      refine gives_expect stop _ hrest.tail fun _ rest _ _ hrest => ?_
      refine (block_wellFormed rest hrest.tail).next fun consequence rest _ hcons hrest => ?_
      split
      · refine gives_expect stop _ hrest.tail fun _ rest _ _ hrest => ?_
        refine (block_wellFormed rest hrest.tail).map _ fun alternative halt => ?_
        rintro e ⟨⟩
        exact ⟨trivial, hc, hcons, halt⟩
      · exact Step.gives_done _ ⟨trivial, hc, hcons, trivial⟩ hrest
    · refine gives_expect stop _ hts.tail fun _ rest _ _ hrest => ?_
      refine (parameters_wellFormed stop rest hrest.tail).andThen _ fun ps rest _ hps hrest => ?_
      refine gives_expect stop _ hrest fun _ rest _ _ hrest => ?_
      refine (block_wellFormed rest hrest.tail).map _ fun body hbody => ?_
      rintro e ⟨⟩
      exact ⟨hps, hbody⟩
    · exact (expressions_wellFormed _ rest hts.tail).mapSome _ fun es hes => ⟨trivial, hes⟩
    · exact (pairs_wellFormed rest hts.tail).mapSome _ fun ps hps => ⟨trivial, hps⟩
    · exact Step.gives_fail _ _ hts.tail
termination_by 4 * ts.length
decreasing_by all_goals grind

theorem expressions_wellFormed (closing : TokenKind) (ts : List Token) (hts : AllValid ts) :
    (expressions stop closing ts).Gives (Expr.ListEverywhere wellFormed) := by
  rw [expressions]
  split
  · exact Step.gives_done _ trivial hts.tail
  · refine (expression_wellFormed _ ts hts).andThen _ fun e rest _ he hrest => ?_
    exact (moreExpressions_wellFormed closing rest hrest).mapSome _ fun es hes => ⟨he, hes⟩
termination_by 4 * ts.length + 2
decreasing_by all_goals omega

theorem moreExpressions_wellFormed (closing : TokenKind) (ts : List Token) (hts : AllValid ts) :
    (moreExpressions stop closing ts).Gives (Expr.ListEverywhere wellFormed) := by
  rw [moreExpressions.eq_def]
  split
  · exact Step.gives_fail _ _ hts
  · rename_i t rest
    split
    · refine (expression_wellFormed _ rest hts.tail).andThen _ fun e rest _ he hrest => ?_
      exact (moreExpressions_wellFormed closing rest hrest).mapSome _ fun es hes => ⟨he, hes⟩
    · exact gives_expect stop _ hts fun _ _ _ _ hrest => Step.gives_done _ trivial hrest.tail
termination_by 4 * ts.length
decreasing_by
  all_goals
    subst_vars
    simp only [List.length_cons] at *
    omega

theorem pairs_wellFormed (ts : List Token) (hts : AllValid ts) :
    (pairs stop ts).Gives (Expr.PairsEverywhere wellFormed) := by
  rw [pairs]
  split
  · exact Step.gives_done _ trivial hts.tail
  · refine (expression_wellFormed _ ts hts).andThen _ fun key rest _ hkey hrest => ?_
    refine gives_expect stop _ hrest fun _ rest _ _ hrest => ?_
    refine (expression_wellFormed _ rest hrest.tail).andThen _ fun value rest _ hvalue hrest => ?_
    split
    · exact Step.gives_done _ ⟨⟨hkey, hvalue⟩, trivial⟩ hrest.tail
    · refine gives_expect stop _ hrest fun _ rest _ _ hrest => ?_
      exact (pairs_wellFormed rest hrest.tail).mapSome _ fun ps hps => ⟨⟨hkey, hvalue⟩, hps⟩
termination_by 4 * ts.length + 2
decreasing_by all_goals omega

theorem block_wellFormed (ts : List Token) (hts : AllValid ts) :
    (block stop ts).Yields (Stmt.ListEverywhere wellFormed) := by
  rw [block.eq_def]
  split
  · exact ⟨trivial, hts⟩
  · rename_i t rest
    split
    · exact ⟨trivial, hts.tail⟩
    · refine (statement_wellFormed _ hts).next fun s rest _ hs hrest => ?_
      exact (block_wellFormed rest hrest).map _ fun ss hss => listEverywhere_toList_append hs hss
termination_by 4 * ts.length + 3
decreasing_by
  all_goals
    subst_vars
    simp only [List.length_cons] at *
    omega

theorem statement_wellFormed (ts : List Token) (hts : AllValid ts) :
    (statement stop ts).Gives Stmt.WellFormed := by
  rw [statement]
  split
  · refine gives_expect stop _ hts.tail fun name rest _ hname hrest => ?_
    refine gives_expect stop _ hrest.tail fun _ rest _ _ hrest' => ?_
    refine (expression_wellFormed _ rest hrest'.tail).andThen _ fun value rest _ hvalue hlast => ?_
    exact finish_gives _ ⟨hrest.isName hname, hvalue⟩ hlast
  · refine (expression_wellFormed _ _ hts.tail).andThen _ fun value rest _ hvalue hrest => ?_
    exact finish_gives _ ⟨trivial, hvalue⟩ hrest
  · refine (expression_wellFormed _ ts hts).andThen _ fun value rest _ hvalue hrest => ?_
    exact finish_gives _ ⟨trivial, hvalue⟩ hrest
termination_by 4 * ts.length + 2
decreasing_by all_goals grind

end

theorem statements_wellFormed (ts : List Token) (hts : AllValid ts) :
    (statements stop ts).Yields (Stmt.ListEverywhere wellFormed) := by
  rw [statements.eq_def]
  split
  · exact ⟨trivial, hts⟩
  · refine (statement_wellFormed stop _ hts).next fun s rest _ hs hrest => ?_
    exact (statements_wellFormed rest hrest).map _ fun ss hss => listEverywhere_toList_append hs hss
termination_by ts.length
decreasing_by
  all_goals
    subst_vars
    simp only [List.length_cons] at *
    omega

end Parser

theorem parse_wellFormed (source : String) : (parse source).program.WellFormed :=
  Stmt.listEverywhere_iff.mp
    (Parser.statements_wellFormed _ _ fun _ ht => Cursor.valid_of_mem_tokens ht).1

end Monkey
