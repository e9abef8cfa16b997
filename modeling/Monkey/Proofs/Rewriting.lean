import Monkey.Syntax.Rewrite

/-!
# Walks

A walk over a tree does nothing but run hooks one after the other. If hooks have no effects, a list
is rewritten element by element. In general, two rewriters whose hooks are related give related
results on every tree, whatever the relation, as long as doing nothing and doing one thing after the
other respect it.
-/

namespace Monkey.Rewriter

/-! ## Hooks without effects -/

section

variable (w : Rewriter Id)

theorem names_eq_map (ns : List String) : w.names ns = ns.map w.identifier := by
  induction ns with
  | nil => rfl
  | cons n ns ih => exact congrArg (w.identifier n :: ·) ih

theorem exprs_eq_map (es : List Expr) : w.exprs es = es.map w.expr := by
  induction es with
  | nil => rfl
  | cons e es ih => exact congrArg (w.expr e :: ·) ih

theorem exprPairs_eq_map (ps : List (Expr × Expr)) :
    w.exprPairs ps = ps.map fun p => (w.expr p.1, w.expr p.2) := by
  induction ps with
  | nil => rfl
  | cons p ps ih => exact congrArg ((w.expr p.1, w.expr p.2) :: ·) ih

theorem stmts_eq_map (ss : List Stmt) : w.stmts ss = ss.map w.stmt := by
  induction ss with
  | nil => rfl
  | cons s ss ih => exact congrArg (w.stmt s :: ·) ih

end

/-! ## Related hooks -/

variable {m n : Type → Type} [Monad m] [Monad n]

/-- A relation between computations in two monads which doing nothing, and doing one thing after the
other, respects. -/
structure Coupling (m n : Type → Type) [Monad m] [Monad n] where
  Holds : ∀ {α : Type}, m α → n α → Prop
  pure : ∀ {α : Type} (a : α), Holds (pure a : m α) (pure a : n α)
  bind : ∀ {α β : Type} {x : m α} {y : n α} {f : α → m β} {g : α → n β},
    Holds x y → (∀ a, Holds (f a) (g a)) → Holds (x >>= f) (y >>= g)

/-- Each hook of the one rewriter is related to that of the other. -/
structure Related (R : Coupling m n) (w : Rewriter m) (w' : Rewriter n) : Prop where
  expression : ∀ e, R.Holds (w.expression e) (w'.expression e)
  statement : ∀ s, R.Holds (w.statement s) (w'.statement s)
  block : ∀ b, R.Holds (w.block b) (w'.block b)
  identifier : ∀ name, R.Holds (w.identifier name) (w'.identifier name)

variable {R : Coupling m n} {w : Rewriter m} {w' : Rewriter n}

theorem Related.names (h : Related R w w') : ∀ ns : List String, R.Holds (w.names ns) (w'.names ns)
  | [] => R.pure []
  | n :: ns => R.bind (h.identifier n) fun n => R.bind (h.names ns) fun ns => R.pure (n :: ns)

mutual

theorem Related.expr (h : Related R w w') : ∀ e : Expr, R.Holds (w.expr e) (w'.expr e)
  | .identifier name => by
    rw [Rewriter.expr, Rewriter.expr]
    exact R.bind (h.identifier name) fun _ => h.expression _
  | .integer _ | .boolean _ | .string _ => by
    rw [Rewriter.expr, Rewriter.expr]
    exact h.expression _
  | .array es => by
    rw [Rewriter.expr, Rewriter.expr]
    exact R.bind (h.exprs es) fun _ => h.expression _
  | .hash ps => by
    rw [Rewriter.expr, Rewriter.expr]
    exact R.bind (h.exprPairs ps) fun _ => h.expression _
  | .unary _ right => by
    rw [Rewriter.expr, Rewriter.expr]
    exact R.bind (h.expr right) fun _ => h.expression _
  | .binary left _ right => by
    rw [Rewriter.expr, Rewriter.expr]
    exact R.bind (h.expr left) fun _ => R.bind (h.expr right) fun _ => h.expression _
  | .conditional c ss o => by
    rw [Rewriter.expr, Rewriter.expr]
    refine R.bind (h.expr c) fun _ => R.bind (h.stmts ss) fun _ => R.bind (h.block _) fun _ => ?_
    exact R.bind (h.alternativeBlock o) fun _ => h.expression _
  | .function ps ss => by
    rw [Rewriter.expr, Rewriter.expr]
    refine R.bind (h.names ps) fun _ => R.bind (h.stmts ss) fun _ => R.bind (h.block _) fun _ => ?_
    exact h.expression _
  | .call callee args => by
    rw [Rewriter.expr, Rewriter.expr]
    exact R.bind (h.expr callee) fun _ => R.bind (h.exprs args) fun _ => h.expression _
  | .index left index => by
    rw [Rewriter.expr, Rewriter.expr]
    exact R.bind (h.expr left) fun _ => R.bind (h.expr index) fun _ => h.expression _

theorem Related.exprs (h : Related R w w') : ∀ es : List Expr, R.Holds (w.exprs es) (w'.exprs es)
  | [] => by
    rw [Rewriter.exprs, Rewriter.exprs]
    exact R.pure []
  | e :: es => by
    rw [Rewriter.exprs, Rewriter.exprs]
    exact R.bind (h.expr e) fun _ => R.bind (h.exprs es) fun _ => R.pure _

theorem Related.exprPairs (h : Related R w w') :
    ∀ ps : List (Expr × Expr), R.Holds (w.exprPairs ps) (w'.exprPairs ps)
  | [] => by
    rw [Rewriter.exprPairs, Rewriter.exprPairs]
    exact R.pure []
  | (key, value) :: ps => by
    rw [Rewriter.exprPairs, Rewriter.exprPairs]
    refine R.bind (h.expr key) fun _ => R.bind (h.expr value) fun _ => ?_
    exact R.bind (h.exprPairs ps) fun _ => R.pure _

theorem Related.stmt (h : Related R w w') : ∀ s : Stmt, R.Holds (w.stmt s) (w'.stmt s)
  | .bind name value => by
    rw [Rewriter.stmt, Rewriter.stmt]
    exact R.bind (h.identifier name) fun _ => R.bind (h.expr value) fun _ => h.statement _
  | .ret value => by
    rw [Rewriter.stmt, Rewriter.stmt]
    exact R.bind (h.expr value) fun _ => h.statement _
  | .expr value => by
    rw [Rewriter.stmt, Rewriter.stmt]
    exact R.bind (h.expr value) fun _ => h.statement _

theorem Related.stmts (h : Related R w w') : ∀ ss : List Stmt, R.Holds (w.stmts ss) (w'.stmts ss)
  | [] => by
    rw [Rewriter.stmts, Rewriter.stmts]
    exact R.pure []
  | s :: ss => by
    rw [Rewriter.stmts, Rewriter.stmts]
    exact R.bind (h.stmt s) fun _ => R.bind (h.stmts ss) fun _ => R.pure _

theorem Related.alternativeBlock (h : Related R w w') :
    ∀ o : Option (List Stmt), R.Holds (w.alternativeBlock o) (w'.alternativeBlock o)
  | none => by
    rw [Rewriter.alternativeBlock, Rewriter.alternativeBlock]
    exact R.pure none
  | some b => by
    rw [Rewriter.alternativeBlock, Rewriter.alternativeBlock]
    exact R.bind (h.stmts b) fun _ => R.bind (h.block _) fun _ => R.pure _

end

theorem Related.program (h : Related R w w') (p : Program) : R.Holds (w.program p) (w'.program p) :=
  R.bind (h.stmts p.statements) fun _ => R.pure _

end Monkey.Rewriter
