import Monkey.Proofs.Discipline

/-!
# Quoting

Rewriting respects a discipline if its hooks do. Replacing the calls of `unquote` leaves none of
them behind, and it changes nothing in an expression without them.
-/

namespace Monkey

/-! ## Rewriting -/

section

variable {D : Discipline} {d : Nat}

/-- The hooks of the rewriter respect the discipline and keep names. They give nodes with the
property `p` if the nodes below have it and the node was made from one with the property `q`. -/
structure Discipline.RespectsHooks (D : Discipline) (q p : NodeProperty) (d : Nat)
    (w : Rewriter Eval) : Prop where
  expression : ∀ e e', q.expr e → e.Like e' → e'.Below p →
    D.Ensures d (Expr.Everywhere p) (w.expression e')
  statement : ∀ s s', q.stmt s → s.Like s' → s'.Below p →
    D.Ensures d (Stmt.Everywhere p) (w.statement s')
  block : ∀ b, Stmt.ListEverywhere p b → D.Ensures d (Stmt.ListEverywhere p) (w.block b)
  identifier : ∀ n, D.Ensures d (n = ·) (w.identifier n)

variable {q p : NodeProperty} {w : Rewriter Eval}

theorem Rewriter.names_ensures (h : D.RespectsHooks q p d w) :
    ∀ ns : List String, D.Ensures d (ns = ·) (w.names ns)
  | [] => Eval.ensures_pure rfl
  | n :: ns => by
    rw [Rewriter.names]
    refine Eval.ensures_bind (h.identifier n) fun n' hn => ?_
    refine Eval.ensures_bind (Rewriter.names_ensures h ns) fun ns' hns => ?_
    exact Eval.ensures_pure (by rw [hn, hns])

mutual

theorem Rewriter.expr_ensures (h : D.RespectsHooks q p d w) :
    ∀ e : Expr, e.Everywhere q → D.Ensures d (Expr.Everywhere p) (w.expr e)
  | .identifier name, he => by
    rw [Rewriter.expr]
    exact Eval.ensures_bind (h.identifier name) fun n hn => h.expression _ _ he.1 hn trivial
  | .integer n, he => by
    rw [Rewriter.expr]
    exact h.expression _ _ he.1 rfl trivial
  | .boolean b, he => by
    rw [Rewriter.expr]
    exact h.expression _ _ he.1 rfl trivial
  | .string text, he => by
    rw [Rewriter.expr]
    exact h.expression _ _ he.1 rfl trivial
  | .array es, he => by
    rw [Rewriter.expr]
    refine Eval.ensures_bind (Rewriter.exprs_ensures h es he.2) fun es' hes => ?_
    exact h.expression _ _ he.1 trivial hes
  | .hash ps, he => by
    rw [Rewriter.expr]
    refine Eval.ensures_bind (Rewriter.exprPairs_ensures h ps he.2) fun ps' hps => ?_
    exact h.expression _ _ he.1 trivial hps
  | .unary op right, he => by
    rw [Rewriter.expr]
    refine Eval.ensures_bind (Rewriter.expr_ensures h right he.2) fun a ha => ?_
    exact h.expression _ _ he.1 rfl ha
  | .binary left op right, he => by
    rw [Rewriter.expr]
    refine Eval.ensures_bind (Rewriter.expr_ensures h left he.2.1) fun a ha => ?_
    refine Eval.ensures_bind (Rewriter.expr_ensures h right he.2.2) fun b hb => ?_
    exact h.expression _ _ he.1 rfl ⟨ha, hb⟩
  | .conditional c ss o, he => by
    rw [Rewriter.expr]
    refine Eval.ensures_bind (Rewriter.expr_ensures h c he.2.1) fun c' hc => ?_
    refine Eval.ensures_bind (Rewriter.stmts_ensures h ss he.2.2.1) fun ss' hss => ?_
    refine Eval.ensures_bind (h.block ss' hss) fun ss' hss => ?_
    refine Eval.ensures_bind (Rewriter.alternativeBlock_ensures h o he.2.2.2) fun o' ho => ?_
    exact h.expression _ _ he.1 trivial ⟨hc, hss, ho⟩
  | .function ps ss, he => by
    rw [Rewriter.expr]
    refine Eval.ensures_bind (Rewriter.names_ensures h ps) fun ps' hps => ?_
    refine Eval.ensures_bind (Rewriter.stmts_ensures h ss he.2) fun ss' hss => ?_
    refine Eval.ensures_bind (h.block ss' hss) fun ss' hss => ?_
    exact h.expression _ _ he.1 hps hss
  | .call callee args, he => by
    rw [Rewriter.expr]
    refine Eval.ensures_bind (Rewriter.expr_ensures h callee he.2.1) fun f hf => ?_
    refine Eval.ensures_bind (Rewriter.exprs_ensures h args he.2.2) fun es hes => ?_
    exact h.expression _ _ he.1 trivial ⟨hf, hes⟩
  | .index left index, he => by
    rw [Rewriter.expr]
    refine Eval.ensures_bind (Rewriter.expr_ensures h left he.2.1) fun a ha => ?_
    refine Eval.ensures_bind (Rewriter.expr_ensures h index he.2.2) fun b hb => ?_
    exact h.expression _ _ he.1 trivial ⟨ha, hb⟩

theorem Rewriter.exprs_ensures (h : D.RespectsHooks q p d w) :
    ∀ es : List Expr, Expr.ListEverywhere q es → D.Ensures d (Expr.ListEverywhere p) (w.exprs es)
  | [], _ => by
    rw [Rewriter.exprs]
    exact Eval.ensures_pure trivial
  | e :: es, he => by
    rw [Rewriter.exprs]
    refine Eval.ensures_bind (Rewriter.expr_ensures h e he.1) fun e' he' => ?_
    exact Eval.ensures_bind (Rewriter.exprs_ensures h es he.2) fun es' hes =>
      Eval.ensures_pure ⟨he', hes⟩

theorem Rewriter.exprPairs_ensures (h : D.RespectsHooks q p d w) :
    ∀ ps : List (Expr × Expr), Expr.PairsEverywhere q ps →
      D.Ensures d (Expr.PairsEverywhere p) (w.exprPairs ps)
  | [], _ => by
    rw [Rewriter.exprPairs]
    exact Eval.ensures_pure trivial
  | (key, value) :: ps, he => by
    rw [Rewriter.exprPairs]
    refine Eval.ensures_bind (Rewriter.expr_ensures h key he.1.1) fun k hk => ?_
    refine Eval.ensures_bind (Rewriter.expr_ensures h value he.1.2) fun v hv => ?_
    exact Eval.ensures_bind (Rewriter.exprPairs_ensures h ps he.2) fun ps' hps =>
      Eval.ensures_pure ⟨⟨hk, hv⟩, hps⟩

theorem Rewriter.stmt_ensures (h : D.RespectsHooks q p d w) :
    ∀ s : Stmt, s.Everywhere q → D.Ensures d (Stmt.Everywhere p) (w.stmt s)
  | .bind name value, hs => by
    rw [Rewriter.stmt]
    refine Eval.ensures_bind (h.identifier name) fun n hn => ?_
    refine Eval.ensures_bind (Rewriter.expr_ensures h value hs.2) fun e he => ?_
    exact h.statement _ _ hs.1 hn he
  | .ret value, hs => by
    rw [Rewriter.stmt]
    refine Eval.ensures_bind (Rewriter.expr_ensures h value hs.2) fun e he => ?_
    exact h.statement _ _ hs.1 trivial he
  | .expr value, hs => by
    rw [Rewriter.stmt]
    refine Eval.ensures_bind (Rewriter.expr_ensures h value hs.2) fun e he => ?_
    exact h.statement _ _ hs.1 trivial he

theorem Rewriter.stmts_ensures (h : D.RespectsHooks q p d w) :
    ∀ ss : List Stmt, Stmt.ListEverywhere q ss → D.Ensures d (Stmt.ListEverywhere p) (w.stmts ss)
  | [], _ => by
    rw [Rewriter.stmts]
    exact Eval.ensures_pure trivial
  | s :: ss, hs => by
    rw [Rewriter.stmts]
    refine Eval.ensures_bind (Rewriter.stmt_ensures h s hs.1) fun s' hs' => ?_
    exact Eval.ensures_bind (Rewriter.stmts_ensures h ss hs.2) fun ss' hss =>
      Eval.ensures_pure ⟨hs', hss⟩

theorem Rewriter.alternativeBlock_ensures (h : D.RespectsHooks q p d w) :
    ∀ o : Option (List Stmt), Stmt.ElseEverywhere q o →
      D.Ensures d (Stmt.ElseEverywhere p) (w.alternativeBlock o)
  | none, _ => by
    rw [Rewriter.alternativeBlock]
    exact Eval.ensures_pure trivial
  | some b, hb => by
    rw [Rewriter.alternativeBlock]
    refine Eval.ensures_bind (Rewriter.stmts_ensures h b hb) fun b' hb' => ?_
    exact Eval.ensures_bind (h.block b' hb') fun b hb => Eval.ensures_pure hb

end

end

/-! ## Replacing the calls of `unquote` -/

/-- No call of `unquote` with one argument. -/
def unquoteFree : NodeProperty where
  expr e := e.unquoted? = none
  stmt _ := True

abbrev Expr.UnquoteFree (e : Expr) : Prop := e.Everywhere unquoteFree

section

variable (eval : Expr → Eval Value)

theorem unquoter_expression_eq {e : Expr} (h : e.unquoted? = none) :
    (unquoter eval).expression e = pure e := by
  simp only [unquoter, h]

theorem unquoter_names : ∀ ns : List String, (unquoter eval).names ns = pure ns
  | [] => rfl
  | n :: ns => by
    rw [Rewriter.names, unquoter_names ns]
    rfl

mutual

theorem unquoter_expr_eq : ∀ e : Expr, e.UnquoteFree → (unquoter eval).expr e = pure e
  | .identifier _, _ | .integer _, _ | .boolean _, _ | .string _, _ => by
    rw [Rewriter.expr]
    rfl
  | .array es, h => by
    rw [Rewriter.expr, unquoter_exprs_eq es h.2]
    rfl
  | .hash ps, h => by
    rw [Rewriter.expr, unquoter_exprPairs_eq ps h.2]
    rfl
  | .unary op right, h => by
    rw [Rewriter.expr, unquoter_expr_eq right h.2]
    rfl
  | .binary left op right, h => by
    rw [Rewriter.expr, unquoter_expr_eq left h.2.1, unquoter_expr_eq right h.2.2]
    rfl
  | .conditional c ss o, h => by
    rw [Rewriter.expr, unquoter_expr_eq c h.2.1, unquoter_stmts_eq ss h.2.2.1,
      unquoter_alternativeBlock_eq o h.2.2.2]
    rfl
  | .function ps ss, h => by
    rw [Rewriter.expr, unquoter_names eval ps, unquoter_stmts_eq ss h.2]
    rfl
  -- Only a call can be one of `unquote`, and this one is not.
  | .call callee args, h => by
    rw [Rewriter.expr, unquoter_expr_eq callee h.2.1, unquoter_exprs_eq args h.2.2]
    exact unquoter_expression_eq eval h.1
  | .index left index, h => by
    rw [Rewriter.expr, unquoter_expr_eq left h.2.1, unquoter_expr_eq index h.2.2]
    rfl

theorem unquoter_exprs_eq : ∀ es : List Expr, Expr.ListEverywhere unquoteFree es →
    (unquoter eval).exprs es = pure es
  | [], _ => by
    rw [Rewriter.exprs]
  | e :: es, h => by
    rw [Rewriter.exprs, unquoter_expr_eq e h.1, unquoter_exprs_eq es h.2]
    rfl

theorem unquoter_exprPairs_eq : ∀ ps : List (Expr × Expr), Expr.PairsEverywhere unquoteFree ps →
    (unquoter eval).exprPairs ps = pure ps
  | [], _ => by
    rw [Rewriter.exprPairs]
  | (key, value) :: ps, h => by
    rw [Rewriter.exprPairs, unquoter_expr_eq key h.1.1, unquoter_expr_eq value h.1.2,
      unquoter_exprPairs_eq ps h.2]
    rfl

theorem unquoter_stmt_eq : ∀ s : Stmt, s.Everywhere unquoteFree → (unquoter eval).stmt s = pure s
  | .bind name value, h => by
    rw [Rewriter.stmt, unquoter_expr_eq value h.2]
    rfl
  | .ret value, h => by
    rw [Rewriter.stmt, unquoter_expr_eq value h.2]
    rfl
  | .expr value, h => by
    rw [Rewriter.stmt, unquoter_expr_eq value h.2]
    rfl

theorem unquoter_stmts_eq : ∀ ss : List Stmt, Stmt.ListEverywhere unquoteFree ss →
    (unquoter eval).stmts ss = pure ss
  | [], _ => by
    rw [Rewriter.stmts]
  | s :: ss, h => by
    rw [Rewriter.stmts, unquoter_stmt_eq s h.1, unquoter_stmts_eq ss h.2]
    rfl

theorem unquoter_alternativeBlock_eq : ∀ o : Option (List Stmt),
    Stmt.ElseEverywhere unquoteFree o → (unquoter eval).alternativeBlock o = pure o
  | none, _ => by
    rw [Rewriter.alternativeBlock]
  | some b, h => by
    rw [Rewriter.alternativeBlock, unquoter_stmts_eq b h]
    rfl

end

end

/-- The syntax of integers and booleans is made of literals and operators, which have the property
`p`. -/
structure NodeProperty.HasLiterals (p : NodeProperty) : Prop where
  integer : ∀ n, (integerSyntax n).Everywhere p
  boolean : ∀ b, (Expr.boolean b).Everywhere p

theorem NodeProperty.hasLiterals_of_unquoted {p : NodeProperty}
    (hp : ∀ e, e.unquoted? = none → p.expr e) : p.HasLiterals := by
  refine ⟨fun n => ?_, fun b => ⟨hp _ rfl, trivial⟩⟩
  unfold integerSyntax
  split
  · exact ⟨hp _ rfl, trivial⟩
  · split
    · exact ⟨hp _ rfl, hp _ rfl, trivial⟩
    · exact ⟨hp _ rfl, ⟨hp _ rfl, hp _ rfl, trivial⟩, hp _ rfl, trivial⟩

theorem Value.toSyntax_everywhere {p : NodeProperty} {r : ValueProperty} (hp : p.HasLiterals)
    (hquote : ∀ e, r.quote e → e.Everywhere p) {v : Value} {node : Expr} (hv : v.Holds r)
    (h : v.toSyntax = .ok node) : node.Everywhere p := by
  unfold Value.toSyntax at h
  split at h
  · cases h
    exact hp.integer _
  · cases h
    exact hp.boolean _
  · cases h
    exact hquote _ hv
  · cases h

theorem Expr.unquoted?_everywhere {p : NodeProperty} {e argument : Expr}
    (h : e.unquoted? = some argument) (he : e.Below p) : argument.Everywhere p := by
  unfold Expr.unquoted? at h
  split at h
  · split at h
    · cases h
      exact he.2.1
    · cases h
  · cases h

/-- If the values of the arguments may be quoted, replacing gives nodes with the property `p`. -/
theorem unquoter_ensures {D : Discipline} {d : Nat} {q p : NodeProperty} {eval : Expr → Eval Value}
    (hexpr : ∀ e e', q.expr e → e.Like e' → e'.unquoted? = none → p.expr e')
    (hstmt : ∀ s s', q.stmt s → s.Like s' → p.stmt s') (hp : p.HasLiterals)
    (hquote : ∀ e, D.value.quote e → e.Everywhere p)
    (heval : ∀ e, e.Everywhere p → D.Ensures d (Value.Holds D.value) (eval e)) (e : Expr)
    (he : e.Everywhere q) : D.Ensures d (Expr.Everywhere p) ((unquoter eval).expr e) := by
  refine Rewriter.expr_ensures ⟨?_, ?_, ?_, ?_⟩ e he
  · intro e e' hq hlike he'
    unfold unquoter
    simp only
    split
    · rename_i argument harg
      have hargument := heval argument (Expr.unquoted?_everywhere harg he')
      refine Eval.ensures_bind hargument fun v hv => Eval.ensures_ofExcept fun node hn => ?_
      exact Value.toSyntax_everywhere hp hquote hv hn
    · rename_i hnone
      exact Eval.ensures_pure ⟨hexpr e e' hq hlike hnone, he'⟩
  · intro s s' hq hlike hs'
    exact Eval.ensures_pure ⟨hstmt s s' hq hlike, hs'⟩
  · intro b hb
    exact Eval.ensures_pure hb
  · intro n
    exact Eval.ensures_pure rfl

/-! ## A call of `quote` -/

theorem Expr.eval_quote (limits : Limits) (node : Expr) (env : ScopeId) :
    ∃ inner : Levels, (Expr.call (.identifier "quote") [node]).eval limits env = (do
      let node ← (unquoter fun e => e.evalWith .idle limits.calls inner env).expr node
      Eval.newQuote node) := by
  refine ⟨levelsAt .idle limits limits.calls limits.splices, ?_⟩
  rw [Expr.eval, Expr.watched, Expr.evalWith_quote, levels, levelsAt_quoted]

end Monkey
