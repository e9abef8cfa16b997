import Monkey.Syntax.Parser

/-!
# The way of the parser through its tokens

Whatever the tokens are, the parser reads them from left to right and reports each error at the
token it stands on. A step that succeeds has read at least as many tokens as it reports errors, and
one that gives up has at most one error more than that.
-/

namespace Monkey

/-! ## From some tokens to what is left of them -/

/-- The way from some tokens to the rest of them, with the errors that are reported on it. -/
inductive Along (stop : Span) : List Token → List Diagnostic → List Token → Prop
  | here (ts : List Token) : Along stop ts [] ts
  | read (t : Token) {ts rest : List Token} {ds : List Diagnostic} :
      Along stop ts ds rest → Along stop (t :: ts) ds rest
  | report (message : String) {ts rest : List Token} {ds : List Diagnostic} :
      Along stop ts ds rest → Along stop ts (⟨message, headSpan stop ts⟩ :: ds) rest

namespace Along

variable {stop : Span} {ts mid rest : List Token} {ds es : List Diagnostic}

theorem trans (h : Along stop ts ds mid) (k : Along stop mid es rest) :
    Along stop ts (ds ++ es) rest := by
  induction h with
  | here => exact k
  | read t _ ih => exact .read t (ih k)
  | report message _ ih => exact .report message (ih k)

theorem skipSemicolon (ts : List Token) : Along stop ts [] (Parser.skipSemicolon ts) := by
  unfold Parser.skipSemicolon
  split
  · exact .here []
  · split
    · exact .read _ (.here _)
    · exact .here _

theorem suffix (h : Along stop ts ds rest) : rest <:+ ts := by
  induction h with
  | here ts => exact List.suffix_refl ts
  | read t _ ih => exact ih.trans (List.suffix_cons t _)
  | report _ _ ih => exact ih

end Along

/-! ## Steps on their way -/

/-- One error more for a step that gives up. -/
def lost {α : Type} (o : Option α) : Nat := if o.isSome then 0 else 1

/-- No error more, whatever the value. -/
def free {α : Type} (_ : α) : Nat := 0

namespace Step

variable {α β : Type} {m n k : Nat} {stop : Span} {ts : List Token}

/-- The step goes from `ts` to its rest. Errors and tokens left are at most `k` together, but for
the `price` of the value. -/
structure Walks (s : Step α n) (stop : Span) (ts : List Token) (k : Nat) (price : α → Nat) :
    Prop where
  along : Along stop ts s.errors s.rest
  cost : s.errors.length + s.rest.length ≤ k + price s.value

theorem walks_done (a : α) (h : ts.length ≤ n) :
    (done (some a) ts h).Walks stop ts ts.length lost :=
  ⟨.here ts, by simp [done, lost]⟩

theorem walks_doneFree (a : α) (h : ts.length ≤ n) :
    (done a ts h).Walks stop ts ts.length free :=
  ⟨.here ts, by simp [done, free]⟩

theorem walks_fail (message : String) (h : ts.length ≤ n) :
    (fail ⟨message, headSpan stop ts⟩ ts h : Step (Option α) n).Walks stop ts ts.length lost := by
  refine ⟨.report message (.here ts), ?_⟩
  simp [fail, lost]
  omega

theorem walks_failRead (message : String) (t : Token) (h : ts.length ≤ n) :
    (fail ⟨message, t.span⟩ ts h : Step (Option α) n).Walks stop (t :: ts) ts.length lost := by
  refine ⟨.report message (.read t (.here ts)), ?_⟩
  simp [fail, lost]
  omega

variable {price : α → Nat}

theorem Walks.read {s : Step α n} (hs : s.Walks stop ts k price) (t : Token) :
    s.Walks stop (t :: ts) k price :=
  ⟨hs.along.read t, hs.cost⟩

theorem Walks.looser {s : Step α n} (hs : s.Walks stop ts m price) (h : m ≤ k) :
    s.Walks stop ts k price :=
  ⟨hs.along, by have := hs.cost; omega⟩

theorem Walks.whole {s : Step α n} (hs : s.Walks stop ts (ts.length - 1) price) :
    s.Walks stop ts ts.length price :=
  hs.looser (Nat.sub_le _ _)

theorem Walks.behind {s : Step α n} (hs : s.Walks stop ts ts.length price) (t : Token) :
    s.Walks stop (t :: ts) (t :: ts).length price :=
  (hs.read t).looser (by simp)

theorem Walks.behindHead {s : Step α n} (hs : s.Walks stop ts.tail ts.tail.length price) :
    s.Walks stop ts ts.length price := by
  cases ts with
  | nil => exact hs
  | cons t ts => exact hs.behind t

theorem Walks.free {s : Step (Option α) n} (hs : s.Walks stop ts k lost) :
    s.Walks stop ts (k + 1) Monkey.free := by
  refine ⟨hs.along, ?_⟩
  have hcost := hs.cost
  have hlost : lost s.value ≤ 1 := by unfold lost; split <;> omega
  simp only [Monkey.free]
  omega

theorem Walks.widen {s : Step α m} (hs : s.Walks stop ts k price) (h : m ≤ n) :
    (s.widen h).Walks stop ts k price :=
  ⟨hs.along, hs.cost⟩

theorem Walks.mapSome {s : Step (Option α) m} (hs : s.Walks stop ts k lost) (f : α → β)
    (h : m ≤ n) : (s.mapSome f h).Walks stop ts k lost := by
  refine ⟨hs.along, ?_⟩
  simpa [lost, Step.mapSome, Step.map] using hs.cost

theorem Walks.map {s : Step α m} (hs : s.Walks stop ts k Monkey.free) (f : α → β) (h : m ≤ n) :
    (s.map f h).Walks stop ts k Monkey.free :=
  ⟨hs.along, hs.cost⟩

theorem Walks.mapToSome {s : Step α m} (hs : s.Walks stop ts k Monkey.free) (f : α → β)
    (h : m ≤ n) : (s.map (fun a => some (f a)) h).Walks stop ts k lost :=
  ⟨hs.along, hs.cost⟩

theorem Walks.next {s : Step α m} {priceβ : β → Nat} (hs : s.Walks stop ts k Monkey.free)
    {f : α → (rest : List Token) → rest.length ≤ m → Step β n}
    (hf : ∀ a rest h, (f a rest h).Walks stop rest rest.length priceβ) :
    (s.next f).Walks stop ts k priceβ := by
  have ht := hf s.value s.rest s.bound
  refine ⟨hs.along.trans ht.along, ?_⟩
  have hcost := hs.cost
  have hcost' := ht.cost
  simp only [Step.next, List.length_append, Monkey.free] at *
  omega

theorem Walks.andThen {s : Step (Option α) m} (hs : s.Walks stop ts k lost)
    {f : α → (rest : List Token) → rest.length ≤ m → Step (Option β) n}
    (hf : ∀ a rest h, (f a rest h).Walks stop rest rest.length lost) (h : m ≤ n) :
    (s.andThen f h).Walks stop ts k lost := by
  unfold Step.andThen
  split
  · rename_i hv
    refine ⟨hs.along, ?_⟩
    simpa [lost, hv] using hs.cost
  · rename_i a hv
    have ht := hf a s.rest s.bound
    refine ⟨hs.along.trans ht.along, ?_⟩
    have hcost := hs.cost
    have hcost' := ht.cost
    simp only [hv, lost, Option.isSome_some, if_true] at hcost
    simp only [List.length_append]
    omega

end Step

theorem walks_expect {α : Type} {n : Nat} {stop : Span} {kind : TokenKind} {ts : List Token}
    {f : Token → (rest : List Token) → rest.length < ts.length → Step (Option α) n}
    {h : ts.length ≤ n} (hf : ∀ t rest h, (f t rest h).Walks stop rest rest.length lost) :
    (expect stop kind ts f h).Walks stop ts ts.length lost := by
  cases ts with
  | nil => exact Step.walks_fail _ _
  | cons t rest =>
    by_cases hk : t.kind = kind
    · simp only [expect, if_pos hk]
      exact (hf t rest _).behind t
    · simp only [expect, if_neg hk]
      exact Step.walks_fail _ _

/-! ## The way of each part of the parser -/

namespace Parser

variable (stop : Span)

theorem finish_walks {n : Nat} (s : Stmt) (rest : List Token) (h : rest.length ≤ n) :
    (finish s rest h).Walks stop rest rest.length lost := by
  refine ⟨.skipSemicolon rest, ?_⟩
  simpa [finish, lost] using skipSemicolon_length rest

theorem moreParameters_walks (ts : List Token) :
    (moreParameters stop ts).Walks stop ts ts.length lost := by
  rw [moreParameters.eq_def]
  split
  · exact Step.walks_fail _ _
  · rename_i t rest
    split
    · refine (walks_expect fun p rest _ => ?_).behind t
      exact (moreParameters_walks rest).mapSome _ _
    · exact walks_expect fun _ _ _ => Step.walks_done _ _
termination_by ts.length
decreasing_by
  all_goals
    subst_vars
    simp only [List.length_cons] at *
    omega

theorem parameters_walks (ts : List Token) :
    (parameters stop ts).Walks stop ts ts.length lost := by
  unfold parameters
  split
  · exact (Step.walks_done _ _).behindHead
  · exact walks_expect fun _ rest _ => (moreParameters_walks stop rest).mapSome _ _

mutual

theorem expression_walks (p : Precedence) (ts : List Token) :
    (expression stop p ts).Walks stop ts (ts.length - 1) lost := by
  rw [expression]
  exact (operand_walks ts).andThen (fun left rest _ => (operators_walks p left rest).widen _) _
termination_by 4 * ts.length + 1
decreasing_by all_goals omega

theorem operators_walks (p : Precedence) (left : Expr) (ts : List Token) :
    (operators stop p left ts).Walks stop ts ts.length lost := by
  rw [operators.eq_def]
  split
  · exact Step.walks_done _ _
  · rename_i t rest
    have hexpression (q : Precedence) :
        (expression stop q rest).Walks stop (t :: rest) (t :: rest).length lost :=
      (expression_walks q rest).whole.behind t
    split
    · split
      · exact (hexpression _).andThen (fun right rest _ => (operators_walks p _ rest).widen _) _
      · split
        · exact ((expressions_walks _ rest).behind t).andThen
            (fun arguments rest _ => (operators_walks p _ rest).widen _) _
        · refine (hexpression _).andThen (fun index rest _ => ?_) _
          exact walks_expect fun _ rest _ => (operators_walks p _ rest).widen _
    · exact Step.walks_done _ _
termination_by 4 * ts.length
decreasing_by
  all_goals
    subst_vars
    simp only [List.length_cons] at *
    omega

theorem operand_walks (ts : List Token) :
    (operand stop ts).Walks stop ts (ts.length - 1) lost := by
  rw [operand.eq_def]
  split
  · exact Step.walks_fail _ _
  · rename_i t rest
    have hexpression (q : Precedence) :
        (expression stop q rest).Walks stop (t :: rest) rest.length lost :=
      (expression_walks q rest).whole.read t
    split
    · exact (Step.walks_done _ _).read t
    · split
      · exact (Step.walks_done _ _).read t
      · exact Step.walks_failRead _ t _
    · exact (Step.walks_done _ _).read t
    · exact (Step.walks_done _ _).read t
    · exact (Step.walks_done _ _).read t
    · exact (hexpression _).mapSome _ _
    · exact (hexpression _).mapSome _ _
    · refine (hexpression _).andThen (fun e rest _ => ?_) _
      exact walks_expect fun _ _ _ => Step.walks_done _ _
    · refine (walks_expect fun _ rest _ => ?_).read t
      refine (expression_walks _ rest).whole.andThen (fun c rest _ => ?_) _
      refine walks_expect fun _ rest _ => walks_expect fun _ rest _ => ?_
      refine (block_walks rest).next fun consequence rest _ => ?_
      split
      · refine Step.Walks.behindHead (walks_expect fun _ rest _ => ?_)
        exact (block_walks rest).mapToSome _ _
      · exact Step.walks_done _ _
    · refine (walks_expect fun _ rest _ => ?_).read t
      refine (parameters_walks stop rest).andThen (fun ps rest _ => ?_) _
      exact walks_expect fun _ rest _ => (block_walks rest).mapToSome _ _
    · exact ((expressions_walks _ rest).read t).mapSome _ _
    · exact ((pairs_walks rest).read t).mapSome _ _
    · exact Step.walks_failRead _ t _
termination_by 4 * ts.length
decreasing_by
  all_goals
    subst_vars
    simp only [List.length_cons, List.length_tail] at *
    omega

theorem expressions_walks (closing : TokenKind) (ts : List Token) :
    (expressions stop closing ts).Walks stop ts ts.length lost := by
  rw [expressions]
  split
  · exact (Step.walks_done _ _).behindHead
  · refine (expression_walks _ ts).whole.andThen (fun e rest _ => ?_) _
    exact (moreExpressions_walks closing rest).mapSome _ _
termination_by 4 * ts.length + 2
decreasing_by all_goals omega

theorem moreExpressions_walks (closing : TokenKind) (ts : List Token) :
    (moreExpressions stop closing ts).Walks stop ts ts.length lost := by
  rw [moreExpressions.eq_def]
  split
  · exact Step.walks_fail _ _
  · rename_i t rest
    split
    · refine ((expression_walks _ rest).whole.behind t).andThen
        (fun e rest _ => ?_) _
      exact (moreExpressions_walks closing rest).mapSome _ _
    · exact walks_expect fun _ _ _ => Step.walks_done _ _
termination_by 4 * ts.length
decreasing_by
  all_goals
    subst_vars
    simp only [List.length_cons] at *
    omega

theorem pairs_walks (ts : List Token) : (pairs stop ts).Walks stop ts ts.length lost := by
  rw [pairs]
  split
  · exact (Step.walks_done _ _).behindHead
  · refine (expression_walks _ ts).whole.andThen (fun key rest _ => ?_) _
    refine walks_expect fun _ rest _ => ?_
    refine (expression_walks _ rest).whole.andThen (fun value rest _ => ?_) _
    split
    · exact (Step.walks_done _ _).behindHead
    · exact walks_expect fun _ rest _ => (pairs_walks rest).mapSome _ _
termination_by 4 * ts.length + 2
decreasing_by all_goals omega

/-- A statement of a block that gives up has read a token, which pays for its error. -/
theorem block_walks (ts : List Token) : (block stop ts).Walks stop ts ts.length free := by
  rw [block.eq_def]
  split
  · exact Step.walks_doneFree _ _
  · rename_i t rest
    split
    · exact (Step.walks_doneFree _ _).behind t
    · refine (statement_walks (t :: rest)).free.next fun s rest _ => ?_
      exact (block_walks rest).map _ _
termination_by 4 * ts.length + 3
decreasing_by
  all_goals
    subst_vars
    simp only [List.length_cons] at *
    omega

theorem statement_walks (ts : List Token) :
    (statement stop ts).Walks stop ts (ts.length - 1) lost := by
  rw [statement]
  split
  · cases ts with
    | nil => contradiction
    | cons t rest =>
      refine (walks_expect fun name rest _ => walks_expect fun _ rest _ => ?_).read t
      refine (expression_walks _ rest).whole.andThen (fun value rest _ => ?_) _
      exact finish_walks ..
  · cases ts with
    | nil => contradiction
    | cons t rest =>
      refine Step.Walks.read ?_ t
      refine (expression_walks _ rest).whole.andThen (fun value rest _ => ?_) _
      exact finish_walks ..
  · exact (expression_walks _ ts).andThen (fun value rest _ => finish_walks ..) _
termination_by 4 * ts.length + 2
decreasing_by all_goals grind

end

theorem statements_walks (ts : List Token) : (statements stop ts).Walks stop ts ts.length free := by
  rw [statements.eq_def]
  split
  · exact Step.walks_doneFree _ _
  · rename_i t rest
    refine (statement_walks stop (t :: rest)).free.next fun s rest _ => ?_
    exact (statements_walks rest).map _ _
termination_by ts.length
decreasing_by
  all_goals
    subst_vars
    simp only [List.length_cons] at *
    omega

theorem statements_rest (ts : List Token) : (statements stop ts).rest = [] := by
  rw [statements.eq_def]
  split
  · rfl
  · rename_i t rest
    have hbound := (statement stop (t :: rest)).bound
    exact statements_rest (statement stop (t :: rest)).rest
termination_by ts.length
decreasing_by
  subst_vars
  simp only [List.length_cons] at *
  omega

end Parser

end Monkey
