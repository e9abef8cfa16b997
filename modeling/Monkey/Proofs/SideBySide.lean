import Monkey.Proofs.Lexemes
import Monkey.Syntax.Parser

/-!
# Two runs of the parser side by side

Two lists of tokens with the same terminals give the same values and the same messages, wherever
the tokens stand. This stays true if one list goes on where the other one ends, as long as both have
a semicolon in front of that place and no brace: no part of the parser reads on behind a semicolon,
unless it is inside a block.
-/

namespace Monkey

/-! ## Tokens in front of two runs -/

/-- Tokens up to a semicolon, among which no block starts. -/
def Closed (us : List Token) : Prop :=
  us.getLast?.map Token.kind = some .semicolon ∧ ∀ t ∈ us, t.kind ≠ .leftBrace

/-- The tokens `ts` have the terminals of `us`, and then `more`. Where there are more, the second
run is in front of a semicolon. -/
structure Ready (more : List Terminal) (ts us : List Token) : Prop where
  terminals : ts.map Token.terminal = us.map Token.terminal ++ more
  closed : more = [] ∨ Closed us

/-- The same, but the second run may also have come to its end. -/
structure Resumes (more : List Terminal) (ts us : List Token) : Prop where
  terminals : ts.map Token.terminal = us.map Token.terminal ++ more
  closed : more = [] ∨ us = [] ∨ Closed us

/-- The first tokens of two runs. -/
inductive Heads (more : List Terminal) : List Token → List Token → Prop
  | none : Heads more [] []
  | both (t u : Token) (ts us : List Token) (kind : t.kind = u.kind)
      (literal : t.literal = u.literal) (resumes : Resumes more ts us)
      (ready : t.kind ≠ .semicolon → Ready more ts us) (noBlock : t.kind = .leftBrace → more = []) :
      Heads more (t :: ts) (u :: us)

variable {more : List Terminal} {ts us : List Token}

theorem Ready.resumes (h : Ready more ts us) : Resumes more ts us :=
  ⟨h.terminals, h.closed.imp_right .inr⟩

theorem Resumes.ready (h : Resumes more ts us) (hmore : more = []) : Ready more ts us :=
  ⟨h.terminals, .inl hmore⟩

theorem Ready.heads (h : Ready more ts us) : Heads more ts us := by
  obtain ⟨hterminals, hclosed⟩ := h
  cases us with
  | nil =>
    have hmore : more = [] := hclosed.resolve_right fun h => by simp [Closed] at h
    subst hmore
    have hts : ts = [] := by simpa using hterminals
    rw [hts]
    exact .none
  | cons u us =>
    cases ts with
    | nil => simp at hterminals
    | cons t ts =>
      simp only [List.map_cons, List.cons_append, List.cons.injEq] at hterminals
      obtain ⟨hterminal, hrest⟩ := hterminals
      have htail : Closed (u :: us) → (us = [] ∧ u.kind = .semicolon) ∨ Closed us := by
        rintro ⟨hlast, hbraces⟩
        cases us with
        | nil => exact .inl ⟨rfl, by simpa using hlast⟩
        | cons v us =>
          refine .inr ⟨by simpa using hlast, ?_⟩
          exact fun t ht => hbraces t (List.mem_cons_of_mem u ht)
      have hkind : t.kind = u.kind := congrArg Terminal.kind hterminal
      refine .both t u ts us hkind (congrArg Terminal.literal hterminal) ⟨hrest, ?_⟩
        (fun hk => ⟨hrest, ?_⟩) ?_
      · exact hclosed.imp_right fun h => (htail h).imp_left And.left
      · refine hclosed.imp_right fun h => (htail h).resolve_left ?_
        rintro ⟨-, hsemicolon⟩
        exact hk (hkind.trans hsemicolon)
      · intro hk
        refine hclosed.resolve_right fun h => ?_
        exact h.2 u List.mem_cons_self (hkind.symm.trans hk)

theorem Ready.headKind_eq (h : Ready more ts us) : headKind ts = headKind us := by
  cases h.heads with
  | none => rfl
  | both t u ts us kind => exact kind

theorem Ready.tail (h : Ready more ts us) {kind : TokenKind} (hhead : headKind ts = kind)
    (hk : kind ≠ .semicolon := by decide) : Ready more ts.tail us.tail := by
  cases h.heads with
  | none => exact h
  | both t u ts us _ _ _ ready => exact ready fun h => hk (hhead.symm.trans h)

theorem Ready.skipSemicolon (h : Ready more ts us) :
    Resumes more (Parser.skipSemicolon ts) (Parser.skipSemicolon us) := by
  cases h.heads with
  | none => exact h.resumes
  | both t u ts us kind _ resumes =>
    simp only [Parser.skipSemicolon, ← kind]
    split
    · exact resumes
    · exact h.resumes

/-! ## Two steps -/

/-- How two runs go on: as `G` says if they have a value, and if they have none, with a new
statement. -/
def Onward (more : List Terminal) (G : List Token → List Token → Prop) {α : Type} :
    Option α → List Token → List Token → Prop
  | some _ => G
  | none => Resumes more

theorem Onward.resumes {α : Type} {o : Option α} (h : Onward more (Resumes more) o ts us) :
    Resumes more ts us := by
  cases o with
  | none => exact h
  | some a => exact h

namespace Step

variable {α β : Type} {m n k l : Nat} {s : Step α m} {t : Step α n}

/-- The same value, the same messages, and tokens behind them that are related. -/
structure Alike (R : α → List Token → List Token → Prop) (s : Step α m) (t : Step α n) : Prop where
  value : s.value = t.value
  messages : s.errors.map Diagnostic.message = t.errors.map Diagnostic.message
  rest : R s.value s.rest t.rest

variable {R : α → List Token → List Token → Prop} {Q : β → List Token → List Token → Prop}
  {G : List Token → List Token → Prop}

theorem alike_done (a : α) (h : Ready more ts us) (hm : ts.length ≤ m) (hn : us.length ≤ n) :
    (done (some a) ts hm).Alike (Onward more (Ready more)) (done (some a) us hn) :=
  ⟨rfl, rfl, h⟩

theorem alike_fail {d e : Diagnostic} (hmessage : d.message = e.message)
    (h : Resumes more ts us) (hm : ts.length ≤ m) (hn : us.length ≤ n) :
    (fail d ts hm : Step (Option α) m).Alike (Onward more G) (fail e us hn) :=
  ⟨rfl, by simp [fail, hmessage], h⟩

theorem Alike.widen (h : s.Alike R t) (hm : m ≤ k) (hn : n ≤ l) :
    (s.widen hm).Alike R (t.widen hn) :=
  ⟨h.value, h.messages, h.rest⟩

theorem Alike.map (h : s.Alike R t) (f : α → β) (hm : m ≤ k) (hn : n ≤ l)
    (hf : ∀ a ts us, R a ts us → Q (f a) ts us) : (s.map f hm).Alike Q (t.map f hn) :=
  ⟨congrArg f h.value, h.messages, hf _ _ _ h.rest⟩

theorem Alike.mapSome {s : Step (Option α) m} {t : Step (Option α) n}
    (h : s.Alike (Onward more G) t) (f : α → β) (hm : m ≤ k) (hn : n ≤ l) :
    (s.mapSome f hm).Alike (Onward more G) (t.mapSome f hn) := by
  refine h.map _ hm hn fun o ts us ho => ?_
  cases o with
  | none => exact ho
  | some a => exact ho

theorem Alike.next (h : s.Alike R t)
    {f : α → (rest : List Token) → rest.length ≤ m → Step β k}
    {g : α → (rest : List Token) → rest.length ≤ n → Step β l}
    (hf : ∀ a ts us hm hn, R a ts us → (f a ts hm).Alike Q (g a us hn)) :
    (s.next f).Alike Q (t.next g) := by
  have hnext := hf s.value s.rest t.rest s.bound t.bound h.rest
  have hvalue := h.value
  unfold Step.next
  generalize t.value = b at hvalue ⊢
  subst hvalue
  refine ⟨hnext.value, ?_, hnext.rest⟩
  simp only [List.map_append, h.messages, hnext.messages]

theorem Alike.andThen {s : Step (Option α) m} {t : Step (Option α) n}
    (h : s.Alike (Onward more (Ready more)) t)
    {f : α → (rest : List Token) → rest.length ≤ m → Step (Option β) k}
    {g : α → (rest : List Token) → rest.length ≤ n → Step (Option β) l} (hm : m ≤ k) (hn : n ≤ l)
    (hf : ∀ a ts us hm hn, Ready more ts us → (f a ts hm).Alike (Onward more G) (g a us hn)) :
    (s.andThen f hm).Alike (Onward more G) (t.andThen g hn) := by
  obtain ⟨hvalue, hmessages, hrest⟩ := h
  unfold Step.andThen
  cases hs : s.value with
  | none =>
    rw [hs] at hvalue hrest
    rw [← hvalue]
    exact ⟨rfl, hmessages, hrest⟩
  | some a =>
    rw [hs] at hvalue hrest
    rw [← hvalue]
    have hnext := hf a s.rest t.rest s.bound t.bound hrest
    refine ⟨hnext.value, ?_, hnext.rest⟩
    simp only [List.map_append, hmessages, hnext.messages]

end Step

theorem unexpected_message {stop stop' : Span} {kind : TokenKind} (h : headKind ts = headKind us) :
    (unexpected stop kind ts).message = (unexpected stop' kind us).message := by
  unfold unexpected
  rw [h]

theorem alike_expect {α : Type} {m n : Nat} {stop stop' : Span} {kind : TokenKind}
    {G : List Token → List Token → Prop} (h : Ready more ts us)
    {f : Token → (rest : List Token) → rest.length < ts.length → Step (Option α) m}
    {g : Token → (rest : List Token) → rest.length < us.length → Step (Option α) n}
    (hm : ts.length ≤ m) (hn : us.length ≤ n)
    (hf : ∀ t u ts us hm hn, t.literal = u.literal → (kind = .leftBrace → more = []) →
      Ready more ts us → (f t ts hm).Alike (Onward more G) (g u us hn))
    (hk : kind ≠ .semicolon := by decide) :
    (expect stop kind ts f hm).Alike (Onward more G) (expect stop' kind us g hn) := by
  cases h.heads with
  | none =>
    simp only [expect]
    exact Step.alike_fail (unexpected_message rfl) h.resumes _ _
  | both t u ts us hkind hliteral _ ready noBlock =>
    by_cases ht : t.kind = kind
    · have hready : Ready more ts us := ready fun h => hk (ht.symm.trans h)
      simp only [expect, ← hkind, if_pos ht]
      exact hf t u ts us _ _ hliteral (fun h => noBlock (ht.trans h)) hready
    · simp only [expect, ← hkind, if_neg ht]
      exact Step.alike_fail (unexpected_message h.headKind_eq) h.resumes _ _

/-! ## Two runs of each part of the parser -/

namespace Parser

variable (stop stop' : Span)

theorem ne_semicolon_of_rank {p : Precedence} {kind : TokenKind}
    (h : p.rank < kind.precedence.rank) : kind ≠ .semicolon := by
  rintro rfl
  simp [TokenKind.precedence, Precedence.rank] at h

theorem finish_alike (z : Stmt) {m n : Nat} (h : Ready more ts us) (hm : ts.length ≤ m)
    (hn : us.length ≤ n) : (finish z ts hm).Alike (Onward more (Resumes more)) (finish z us hn) :=
  ⟨rfl, rfl, h.skipSemicolon⟩

theorem moreParameters_alike {ts us : List Token} (h : Ready more ts us) :
    (moreParameters stop ts).Alike (Onward more (Ready more)) (moreParameters stop' us) := by
  cases h.heads with
  | none =>
    rw [moreParameters, moreParameters]
    exact Step.alike_fail (unexpected_message rfl) h.resumes _ _
  | both t u ts us kind _ _ ready =>
    rw [moreParameters, moreParameters, ← kind]
    split
    · rename_i hcomma
      have hts : Ready more ts us := h.tail hcomma
      refine alike_expect hts _ _ fun p q ts us _ _ hp _ hrest => ?_
      rw [hp]
      exact (moreParameters_alike hrest).mapSome _ _ _
    · refine alike_expect h _ _ fun _ _ ts us _ _ _ _ hrest => ?_
      exact Step.alike_done _ hrest _ _
termination_by ts.length
decreasing_by
  all_goals
    subst_vars
    simp only [List.length_cons] at *
    omega

theorem parameters_alike (h : Ready more ts us) :
    (parameters stop ts).Alike (Onward more (Ready more)) (parameters stop' us) := by
  unfold parameters
  rw [← h.headKind_eq]
  split
  · rename_i hclosing
    exact Step.alike_done _ (h.tail hclosing) _ _
  · refine alike_expect h _ _ fun p q ts us _ _ hp _ hrest => ?_
    rw [hp]
    exact (moreParameters_alike stop stop' hrest).mapSome _ _ _

mutual

theorem expression_alike (p : Precedence) {ts us : List Token} (h : Ready more ts us) :
    (expression stop p ts).Alike (Onward more (Ready more)) (expression stop' p us) := by
  rw [expression, expression]
  refine (operand_alike h).andThen _ _ fun left ts us _ _ hrest => ?_
  exact (operators_alike p left hrest).widen _ _
termination_by 4 * ts.length + 1
decreasing_by all_goals omega

theorem operators_alike (p : Precedence) (left : Expr) {ts us : List Token}
    (h : Ready more ts us) :
    (operators stop p left ts).Alike (Onward more (Ready more)) (operators stop' p left us) := by
  cases h.heads with
  | none =>
    rw [operators, operators]
    exact Step.alike_done _ h _ _
  | both t u ts us kind _ _ ready =>
    rw [operators, operators, ← kind]
    split
    · rename_i hrank
      have hts : Ready more ts us := ready (ne_semicolon_of_rank hrank)
      split
      · refine (expression_alike _ hts).andThen _ _ fun right ts us _ _ hrest => ?_
        exact (operators_alike p _ hrest).widen _ _
      · split
        · refine (expressions_alike (by decide) hts).andThen _ _ fun args ts us _ _ hrest => ?_
          exact (operators_alike p _ hrest).widen _ _
        · refine (expression_alike _ hts).andThen _ _ fun index ts us _ _ hrest => ?_
          refine alike_expect hrest _ _ fun _ _ ts us _ _ _ _ hrest => ?_
          exact (operators_alike p _ hrest).widen _ _
    · exact Step.alike_done _ h _ _
termination_by 4 * ts.length
decreasing_by
  all_goals
    subst_vars
    simp only [List.length_cons] at *
    omega

theorem operand_alike {ts us : List Token} (h : Ready more ts us) :
    (operand stop ts).Alike (Onward more (Ready more)) (operand stop' us) := by
  cases h.heads with
  | none =>
    rw [operand, operand]
    refine Step.alike_fail ?_ h.resumes _ _
    rfl
  | both t u ts us kind literal resumes ready noBlock =>
    rw [operand, operand, ← kind, ← literal]
    by_cases hk : t.kind = .semicolon
    · -- The one token that the runs may not pass: both give up behind it.
      rw [hk]
      refine Step.alike_fail ?_ resumes _ _
      rfl
    have hts : Ready more ts us := ready hk
    split
    · exact Step.alike_done _ hts _ _
    · split
      · exact Step.alike_done _ hts _ _
      · refine Step.alike_fail ?_ resumes _ _
        rfl
    · exact Step.alike_done _ hts _ _
    · exact Step.alike_done _ hts _ _
    · exact Step.alike_done _ hts _ _
    · exact (expression_alike _ hts).mapSome _ _ _
    · exact (expression_alike _ hts).mapSome _ _ _
    · refine (expression_alike _ hts).andThen _ _ fun e ts us _ _ hrest => ?_
      refine alike_expect hrest _ _ fun _ _ ts us _ _ _ _ hrest => ?_
      exact Step.alike_done _ hrest _ _
    · refine alike_expect hts _ _ fun _ _ ts us _ _ _ _ hrest => ?_
      refine (expression_alike _ hrest).andThen _ _ fun condition ts us _ _ hrest => ?_
      refine alike_expect hrest _ _ fun _ _ ts us _ _ _ _ hrest => ?_
      refine alike_expect hrest _ _ fun _ _ ts us _ _ _ hbrace hrest => ?_
      refine (block_alike (hbrace rfl) hrest).next fun consequence ts us _ _ hrest => ?_
      rw [← hrest.headKind_eq]
      split
      · rename_i hk
        refine alike_expect (hrest.tail hk) _ _
          fun _ _ ts us _ _ _ hbrace hrest => ?_
        exact (block_alike (hbrace rfl) hrest).map _ _ _ fun _ _ _ h => h
      · exact Step.alike_done _ hrest _ _
    · refine alike_expect hts _ _ fun _ _ ts us _ _ _ _ hrest => ?_
      refine (parameters_alike stop stop' hrest).andThen _ _ fun ps ts us _ _ hrest => ?_
      refine alike_expect hrest _ _ fun _ _ ts us _ _ _ hbrace hrest => ?_
      exact (block_alike (hbrace rfl) hrest).map _ _ _ fun _ _ _ h => h
    · exact (expressions_alike (by decide) hts).mapSome _ _ _
    · exact (pairs_alike hts).mapSome _ _ _
    · refine Step.alike_fail ?_ resumes _ _
      rfl
termination_by 4 * ts.length
decreasing_by
  all_goals
    subst_vars
    simp only [List.length_cons, List.length_tail] at *
    omega

theorem expressions_alike {closing : TokenKind} (hclosing : closing ≠ .semicolon)
    {ts us : List Token} (h : Ready more ts us) :
    (expressions stop closing ts).Alike (Onward more (Ready more))
      (expressions stop' closing us) := by
  rw [expressions, expressions, ← h.headKind_eq]
  split
  · rename_i hhead
    exact Step.alike_done _ (h.tail hhead hclosing) _ _
  · refine (expression_alike _ h).andThen _ _ fun e ts us _ _ hrest => ?_
    exact (moreExpressions_alike hclosing hrest).mapSome _ _ _
termination_by 4 * ts.length + 2
decreasing_by all_goals omega

theorem moreExpressions_alike {closing : TokenKind} (hclosing : closing ≠ .semicolon)
    {ts us : List Token} (h : Ready more ts us) :
    (moreExpressions stop closing ts).Alike (Onward more (Ready more))
      (moreExpressions stop' closing us) := by
  cases h.heads with
  | none =>
    rw [moreExpressions, moreExpressions]
    exact Step.alike_fail (unexpected_message rfl) h.resumes _ _
  | both t u ts us kind _ _ ready =>
    rw [moreExpressions, moreExpressions, ← kind]
    split
    · rename_i hcomma
      have hts : Ready more ts us := h.tail hcomma
      refine (expression_alike _ hts).andThen _ _ fun e ts us _ _ hrest => ?_
      exact (moreExpressions_alike hclosing hrest).mapSome _ _ _
    · refine alike_expect h _ _ (fun _ _ ts us _ _ _ _ hrest => ?_) hclosing
      exact Step.alike_done _ hrest _ _
termination_by 4 * ts.length
decreasing_by
  all_goals
    subst_vars
    simp only [List.length_cons] at *
    omega

theorem pairs_alike {ts us : List Token} (h : Ready more ts us) :
    (pairs stop ts).Alike (Onward more (Ready more)) (pairs stop' us) := by
  rw [pairs, pairs, ← h.headKind_eq]
  split
  · rename_i hhead
    exact Step.alike_done _ (h.tail hhead) _ _
  · refine (expression_alike _ h).andThen _ _ fun key ts us _ _ hrest => ?_
    refine alike_expect hrest _ _ fun _ _ ts us _ _ _ _ hrest => ?_
    refine (expression_alike _ hrest).andThen _ _ fun value ts us _ _ hrest => ?_
    rw [← hrest.headKind_eq]
    split
    · rename_i hhead
      exact Step.alike_done _ (hrest.tail hhead) _ _
    · refine alike_expect hrest _ _ fun _ _ ts us _ _ _ _ hrest => ?_
      exact (pairs_alike hrest).mapSome _ _ _
termination_by 4 * ts.length + 2
decreasing_by all_goals omega

theorem block_alike (hmore : more = []) {ts us : List Token} (h : Ready more ts us) :
    (block stop ts).Alike (fun _ => Ready more) (block stop' us) := by
  cases h.heads with
  | none =>
    rw [block, block]
    exact ⟨rfl, rfl, h⟩
  | both t u ts us kind _ _ ready =>
    rw [block, block, ← kind]
    split
    · rename_i hclosing
      exact ⟨rfl, rfl, h.tail hclosing⟩
    -- There is nothing behind the shorter list, so both runs go on with the same tokens.
    · refine (statement_alike h).next fun o ts us _ _ hrest => ?_
      exact (block_alike hmore (hrest.resumes.ready hmore)).map _ _ _ fun _ _ _ h => h
termination_by 4 * ts.length + 3
decreasing_by
  all_goals
    subst_vars
    simp only [List.length_cons] at *
    omega

theorem statement_alike {ts us : List Token} (h : Ready more ts us) :
    (statement stop ts).Alike (Onward more (Resumes more)) (statement stop' us) := by
  rw [statement, statement, ← h.headKind_eq]
  split
  · rename_i hhead
    refine alike_expect (h.tail hhead) _ _
      fun name other ts us _ _ hname _ hrest => ?_
    refine alike_expect hrest _ _ fun _ _ ts us _ _ _ _ hrest => ?_
    rw [hname]
    refine (expression_alike _ hrest).andThen _ _ fun value ts us _ _ hrest => ?_
    exact finish_alike _ hrest _ _
  · rename_i hhead
    refine (expression_alike _ (h.tail hhead)).andThen _ _
      fun value ts us _ _ hrest => ?_
    exact finish_alike _ hrest _ _
  · refine (expression_alike _ h).andThen _ _ fun value ts us _ _ hrest => ?_
    exact finish_alike _ hrest _ _
termination_by 4 * ts.length + 2
decreasing_by
  all_goals
    simp only [List.length_tail] at *
    omega

end

theorem statements_alike {ts us : List Token} (h : Ready [] ts us) :
    (statements stop ts).Alike (fun _ => Ready []) (statements stop' us) := by
  cases h.heads with
  | none =>
    rw [statements, statements]
    exact ⟨rfl, rfl, h⟩
  | both t u ts us =>
    rw [statements, statements]
    refine (statement_alike stop stop' h).next fun o ts us _ _ hrest => ?_
    exact (statements_alike (hrest.resumes.ready rfl)).map _ _ _ fun _ _ _ h => h
termination_by ts.length
decreasing_by
  all_goals
    subst_vars
    simp only [List.length_cons] at *
    omega

theorem statements_turn (t : Token) (ts : List Token) :
    (statements stop (t :: ts)).value =
        (statement stop (t :: ts)).value.toList ++
          (statements stop (statement stop (t :: ts)).rest).value ∧
      (statements stop (t :: ts)).errors =
        (statement stop (t :: ts)).errors ++
          (statements stop (statement stop (t :: ts)).rest).errors := by
  rw [statements]
  exact ⟨rfl, rfl⟩

/-- The run on the longer list makes what the two runs make, one after the other. -/
theorem statements_resume (stop'' : Span) {vs ts us : List Token}
    (h : Resumes (vs.map Token.terminal) ts us) :
    (statements stop ts).value = (statements stop' us).value ++ (statements stop'' vs).value ∧
      (statements stop ts).errors.map Diagnostic.message =
        (statements stop' us).errors.map Diagnostic.message ++
          (statements stop'' vs).errors.map Diagnostic.message := by
  cases us with
  | nil =>
    have hbehind : Ready [] ts vs := ⟨by simpa using h.terminals, .inl rfl⟩
    obtain ⟨hvalue, hmessages, -⟩ := statements_alike stop stop'' hbehind
    rw [statements.eq_def stop' []]
    exact ⟨hvalue, hmessages⟩
  | cons u us =>
    have hready : Ready (vs.map Token.terminal) ts (u :: us) :=
      ⟨h.terminals, h.closed.imp_right fun h => h.resolve_left (List.cons_ne_nil u us)⟩
    cases hready.heads with
    | both t _ ts _ =>
      obtain ⟨hvalue, hmessages, hrest⟩ := statement_alike stop stop' hready
      have hbound := (statement stop (t :: ts)).bound
      obtain ⟨ihvalue, ihmessages⟩ := statements_resume stop'' hrest.resumes
      obtain ⟨hlongValue, hlongErrors⟩ := statements_turn stop t ts
      obtain ⟨hshortValue, hshortErrors⟩ := statements_turn stop' u us
      constructor
      · rw [hlongValue, hshortValue, hvalue, ihvalue, List.append_assoc]
      · rw [hlongErrors, hshortErrors, List.map_append, List.map_append, hmessages, ihmessages,
          List.append_assoc]
termination_by ts.length
decreasing_by
  all_goals
    subst_vars
    simp only [List.length_cons] at *
    omega

end Parser

/-! ## Whole sources -/

/-- The texts of the errors, without their places. -/
def Parsed.messages (p : Parsed) : List String := p.errors.map Diagnostic.message

/-- What is parsed hangs on the terminals of the unread text, not on where they stand. -/
theorem parseCursor_eq_of_terminals {s t : Cursor}
    (h : s.tokens.map Token.terminal = t.tokens.map Token.terminal) :
    (parseCursor s).program = (parseCursor t).program ∧
      (parseCursor s).messages = (parseCursor t).messages := by
  have hready : Ready [] s.tokens t.tokens := ⟨by rw [h, List.append_nil], .inl rfl⟩
  obtain ⟨hvalue, hmessages, -⟩ :=
    Parser.statements_alike (.point s.endPosition) (.point t.endPosition) hready
  exact ⟨congrArg Program.mk hvalue, hmessages⟩

namespace Cursor

theorem rest_next_suffix (s : Cursor) : s.next.2.rest <:+ s.rest := by
  cases h : s.rest.dropWhile isBlank with
  | nil =>
    rw [next_eq_end h]
    exact List.nil_suffix
  | cons c cs =>
    rw [(next_eq h).2]
    have hlexeme : (Lexeme.scan c cs).rest <:+ c :: cs :=
      ⟨_, Lexeme.scan_text_append_rest c cs⟩
    exact hlexeme.trans (h ▸ List.dropWhile_suffix isBlank)

theorem rest_drop_suffix (s : Cursor) (k : Nat) : (s.drop k).rest <:+ s.rest := by
  induction k generalizing s with
  | zero => exact List.suffix_refl _
  | succ k ih => exact (ih s.next.2).trans s.rest_next_suffix

theorem tokens_drop (s : Cursor) (k : Nat) : (s.drop k).tokens = s.tokens.drop k := by
  induction k generalizing s with
  | zero => rfl
  | succ k ih =>
    have hdrop : (s.drop (k + 1)).tokens = s.next.2.tokens.drop k := ih s.next.2
    rw [hdrop]
    cases h : s.rest.dropWhile isBlank with
    | nil =>
      rw [next_eq_end h, tokens_eq_nil h, tokens_eq_nil rfl, List.drop_nil, List.drop_nil]
    | cons c cs => rw [tokens_eq_cons h, List.drop_succ_cons]

end Cursor

/-- How a source is laid out makes no difference to the parser. -/
theorem parse_layoutFree :
    (∀ a b : String, (tokenize a).map Token.terminal = (tokenize b).map Token.terminal →
      (parse a).program = (parse b).program ∧ (parse a).messages = (parse b).messages) ∧
    ∀ (source : String) (k : Nat),
      let s := (Cursor.ofSource source).drop k
      s.rest <:+ source.toList ∧ s.tokens = (Cursor.ofSource source).tokens.drop k ∧
        (parseCursor s).program = (parse (String.ofList s.rest)).program ∧
        (parseCursor s).messages = (parse (String.ofList s.rest)).messages := by
  constructor
  · intro a b h
    simp only [tokenize, List.map_append] at h
    exact parseCursor_eq_of_terminals (List.append_inj_left' h rfl)
  · intro source k s
    refine ⟨Cursor.rest_drop_suffix _ k, Cursor.tokens_drop _ k, ?_⟩
    apply parseCursor_eq_of_terminals
    apply Cursor.map_terminal_tokens
    exact String.toList_ofList.symm

theorem parse_layoutFree_spread :
    (tokenize "let x=(1+;x").map Token.terminal =
        (tokenize " let x =\n( 1\t+ ;\r\n x").map Token.terminal ∧
      (parse "let x=(1+;x").program = (parse " let x =\n( 1\t+ ;\r\n x").program ∧
      (parse "let x=(1+;x").messages = (parse " let x =\n( 1\t+ ;\r\n x").messages := by
  have h : (tokenize "let x=(1+;x").map Token.terminal =
      (tokenize " let x =\n( 1\t+ ;\r\n x").map Token.terminal := by decide +kernel
  exact ⟨h, parse_layoutFree.1 _ _ h⟩

end Monkey
