import Monkey.Proofs.Simulation

/-!
# Levels side by side

Quoting and calling respect a simulation. So evaluating at some levels follows evaluating at others,
as long as running out of levels or reaching the limit does not make a difference, or cuts the first
evaluation off.
-/

namespace Monkey

/-! ## Quoting -/

theorem Value.toSyntax_agree (ρ : Renaming) (v : Value) :
    Agree (Expr.rename ρ.name) v.toSyntax (v.rename ρ).toSyntax := by
  cases v with
  | integer n =>
    have hsyntax := Agree.ok (f := Expr.rename ρ.name) (integerSyntax n)
    rw [integerSyntax_rename] at hsyntax
    exact hsyntax
  | boolean b => exact .ok (Expr.boolean b)
  | quote id node => exact .ok node
  | _ => exact .error rfl

/-- The second way to evaluate the arguments of `unquote` follows the first. -/
def Simulation.RespectsArguments (S : Simulation) (d : Nat) (eval eval' : Expr → Eval Value) :
    Prop :=
  ∀ a, S.Simulates d (Value.rename S.ρ) (eval a) (eval' (a.rename S.ρ.name))

section

variable {S : Simulation} {d : Nat} {eval eval' : Expr → Eval Value}

theorem unquoter_expression_simulates (h : S.RespectsArguments d eval eval') (e : Expr) :
    S.Simulates d (Expr.rename S.ρ.name) ((unquoter eval).expression e)
      ((unquoter eval').expression (e.rename S.ρ.name)) := by
  unfold unquoter
  simp only [Expr.unquoted?_rename]
  cases e.unquoted? with
  | none => exact Eval.simulates_pure e
  | some a =>
    refine Eval.simulates_bind (h a) fun v => ?_
    exact Eval.simulates_ofExcept (v.toSyntax_agree S.ρ)

mutual

theorem unquoter_expr_simulates (h : S.RespectsArguments d eval eval') :
    ∀ e : Expr, S.Simulates d (Expr.rename S.ρ.name) ((unquoter eval).expr e)
      ((unquoter eval').expr (e.rename S.ρ.name))
  | .identifier n => unquoter_expression_simulates h (.identifier n)
  | .integer n => unquoter_expression_simulates h (.integer n)
  | .boolean b => unquoter_expression_simulates h (.boolean b)
  | .string text => unquoter_expression_simulates h (.string text)
  | .array es => by
    rw [Expr.rename_array, Rewriter.expr, Rewriter.expr]
    refine Eval.simulates_bind (unquoter_exprs_simulates h es) fun es => ?_
    rw [← Expr.rename_array]
    exact unquoter_expression_simulates h _
  | .hash ps => by
    rw [Expr.rename_hash, Rewriter.expr, Rewriter.expr]
    refine Eval.simulates_bind (unquoter_exprPairs_simulates h ps) fun ps => ?_
    rw [← Expr.rename_hash]
    exact unquoter_expression_simulates h _
  | .unary op right => by
    rw [Expr.rename_unary, Rewriter.expr, Rewriter.expr]
    refine Eval.simulates_bind (unquoter_expr_simulates h right) fun a => ?_
    exact unquoter_expression_simulates h (.unary op a)
  | .binary left op right => by
    rw [Expr.rename_binary, Rewriter.expr, Rewriter.expr]
    refine Eval.simulates_bind (unquoter_expr_simulates h left) fun a => ?_
    refine Eval.simulates_bind (unquoter_expr_simulates h right) fun b => ?_
    exact unquoter_expression_simulates h (.binary a op b)
  | .conditional c ss o => by
    rw [Expr.rename_conditional, Rewriter.expr, Rewriter.expr]
    refine Eval.simulates_bind (unquoter_expr_simulates h c) fun c => ?_
    refine Eval.simulates_bind (unquoter_stmts_simulates h ss) fun ss => ?_
    refine Eval.simulates_bind (Eval.simulates_pure ss) fun ss => ?_
    refine Eval.simulates_bind (unquoter_alternativeBlock_simulates h o) fun o => ?_
    rw [← Expr.rename_conditional]
    exact unquoter_expression_simulates h _
  | .function ps ss => by
    rw [Expr.rename_function, Rewriter.expr, Rewriter.expr, unquoter_names, unquoter_names]
    refine Eval.simulates_bind (Eval.simulates_pure ps) fun ps => ?_
    refine Eval.simulates_bind (unquoter_stmts_simulates h ss) fun ss => ?_
    refine Eval.simulates_bind (Eval.simulates_pure ss) fun ss => ?_
    rw [← Expr.rename_function]
    exact unquoter_expression_simulates h _
  | .call callee args => by
    rw [Expr.rename_call, Rewriter.expr, Rewriter.expr]
    refine Eval.simulates_bind (unquoter_expr_simulates h callee) fun callee => ?_
    refine Eval.simulates_bind (unquoter_exprs_simulates h args) fun args => ?_
    rw [← Expr.rename_call]
    exact unquoter_expression_simulates h _
  | .index left index => by
    rw [Expr.rename_index, Rewriter.expr, Rewriter.expr]
    refine Eval.simulates_bind (unquoter_expr_simulates h left) fun a => ?_
    refine Eval.simulates_bind (unquoter_expr_simulates h index) fun b => ?_
    exact unquoter_expression_simulates h (.index a b)

theorem unquoter_exprs_simulates (h : S.RespectsArguments d eval eval') :
    ∀ es : List Expr, S.Simulates d (List.map (Expr.rename S.ρ.name)) ((unquoter eval).exprs es)
      ((unquoter eval').exprs (es.map (Expr.rename S.ρ.name)))
  | [] => by
    rw [List.map_nil, Rewriter.exprs, Rewriter.exprs]
    exact Eval.simulates_pure []
  | e :: es => by
    rw [List.map_cons, Rewriter.exprs, Rewriter.exprs]
    refine Eval.simulates_bind (unquoter_expr_simulates h e) fun e => ?_
    refine Eval.simulates_bind (unquoter_exprs_simulates h es) fun es => ?_
    exact Eval.simulates_pure (e :: es)

theorem unquoter_exprPairs_simulates (h : S.RespectsArguments d eval eval') :
    ∀ ps : List (Expr × Expr),
      S.Simulates d (List.map (Prod.map (Expr.rename S.ρ.name) (Expr.rename S.ρ.name)))
        ((unquoter eval).exprPairs ps)
        ((unquoter eval').exprPairs
          (ps.map (Prod.map (Expr.rename S.ρ.name) (Expr.rename S.ρ.name))))
  | [] => by
    rw [List.map_nil, Rewriter.exprPairs, Rewriter.exprPairs]
    exact Eval.simulates_pure []
  | (key, value) :: ps => by
    rw [List.map_cons, Prod.map, Rewriter.exprPairs, Rewriter.exprPairs]
    refine Eval.simulates_bind (unquoter_expr_simulates h key) fun k => ?_
    refine Eval.simulates_bind (unquoter_expr_simulates h value) fun v => ?_
    refine Eval.simulates_bind (unquoter_exprPairs_simulates h ps) fun ps => ?_
    exact Eval.simulates_pure ((k, v) :: ps)

theorem unquoter_stmt_simulates (h : S.RespectsArguments d eval eval') :
    ∀ s : Stmt, S.Simulates d (Stmt.rename S.ρ.name) ((unquoter eval).stmt s)
      ((unquoter eval').stmt (s.rename S.ρ.name))
  | .bind name value => by
    rw [Stmt.rename_bind, Rewriter.stmt, Rewriter.stmt]
    refine Eval.simulates_bind (Eval.simulates_pure name) fun n => ?_
    refine Eval.simulates_bind (unquoter_expr_simulates h value) fun e => ?_
    exact Eval.simulates_pure (Stmt.bind n e)
  | .ret value => by
    rw [Stmt.rename_ret, Rewriter.stmt, Rewriter.stmt]
    refine Eval.simulates_bind (unquoter_expr_simulates h value) fun e => ?_
    exact Eval.simulates_pure (Stmt.ret e)
  | .expr value => by
    rw [Stmt.rename_expr, Rewriter.stmt, Rewriter.stmt]
    refine Eval.simulates_bind (unquoter_expr_simulates h value) fun e => ?_
    exact Eval.simulates_pure (Stmt.expr e)

theorem unquoter_stmts_simulates (h : S.RespectsArguments d eval eval') :
    ∀ ss : List Stmt, S.Simulates d (Block.rename S.ρ.name) ((unquoter eval).stmts ss)
      ((unquoter eval').stmts (Block.rename S.ρ.name ss))
  | [] => by
    rw [Block.rename_nil, Rewriter.stmts, Rewriter.stmts]
    exact Eval.simulates_pure []
  | s :: ss => by
    rw [Block.rename_cons, Rewriter.stmts, Rewriter.stmts]
    refine Eval.simulates_bind (unquoter_stmt_simulates h s) fun s => ?_
    refine Eval.simulates_bind (unquoter_stmts_simulates h ss) fun ss => ?_
    exact Eval.simulates_pure (s :: ss)

theorem unquoter_alternativeBlock_simulates (h : S.RespectsArguments d eval eval') :
    ∀ o : Option (List Stmt), S.Simulates d (Option.map (Block.rename S.ρ.name))
      ((unquoter eval).alternativeBlock o)
      ((unquoter eval').alternativeBlock (o.map (Block.rename S.ρ.name)))
  | none => by
    rw [Option.map_none, Rewriter.alternativeBlock, Rewriter.alternativeBlock]
    exact Eval.simulates_pure none
  | some b => by
    rw [Option.map_some, Rewriter.alternativeBlock, Rewriter.alternativeBlock]
    refine Eval.simulates_bind (unquoter_stmts_simulates h b) fun b => ?_
    refine Eval.simulates_bind (Eval.simulates_pure b) fun b => ?_
    exact Eval.simulates_pure (some b)

end

end

/-! ## Calls -/

section

variable {S : Simulation} {limit limit' : Nat}

/-- The second evaluation may call as deep as the first one. If that is deeper, then reaching the
limit cuts the first one off. -/
structure Simulation.Deepens (S : Simulation) (limit limit' : Nat) : Prop where
  le : limit ≤ limit'
  exceeded : S.cutOff (.error (.callDepthExceeded limit)) ∨ limit = limit' ∧
    S.stop (.error (.callDepthExceeded limit)) (.error (.callDepthExceeded limit))

/-- Run one call deeper than `d`, which is only done below the limit, second bodies of functions
follow the first. -/
def Simulation.RespectsBodies (S : Simulation) (d limit : Nat)
    (body body' : Block → ScopeId → Eval Value) : Prop :=
  d < limit → ∀ b env, S.Simulates (d + 1) (Value.rename S.ρ) (body b env)
    (body' (Block.rename S.ρ.name b) (S.ρ.scope env))

theorem Value.call_simulates {d : Nat} {levels levels' : Levels} (hlimit : S.Deepens limit limit')
    (hbody : S.RespectsBodies d limit levels.body levels'.body) (f : Value) (args : List Value) :
    S.Simulates d (Value.rename S.ρ) (f.call limit levels args)
      ((f.rename S.ρ).call limit' levels' (args.map (Value.rename S.ρ))) := by
  cases f with
  | function id ps b scope =>
    simp only [Value.call, Value.rename, List.length_map]
    split
    · exact Eval.simulates_fail rfl
    · refine Eval.simulates_get fun m m' hm => ?_
      rw [hm.depth.1, hm.depth.2]
      by_cases hdepth : limit ≤ d
      · rw [if_pos hdepth]
        rcases hlimit.exceeded with hcut | ⟨rfl, hstop⟩
        · exact Eval.simulates_cutOff hcut _
        · rw [if_pos hdepth]
          exact Eval.simulates_throw hstop
      · have hle := hlimit.le
        rw [if_neg hdepth, if_neg (by omega)]
        have hbindings : (ps.map S.ρ.name).zip (args.map (Value.rename S.ρ)) =
            Bindings.rename S.ρ (ps.zip args) := by
          rw [List.zip_map]
          rfl
        refine Eval.simulates_bind (Eval.simulates_enclose scope) fun inner => ?_
        rw [hbindings]
        refine Eval.simulates_bind (Eval.simulates_defineAll inner (ps.zip args)) fun _ => ?_
        have hrun := Eval.simulates_deeper (hbody (by omega) b inner)
        refine Eval.simulates_bind hrun fun v => ?_
        rw [Value.unwrapReturn_rename]
        exact Eval.simulates_pure v.unwrapReturn
  | builtin b => exact b.apply_simulates args
  | _ => exact Eval.simulates_fail rfl

/-! ## Levels -/

/-- The second evaluation has as many levels as the first one. If it has more, then running out of
them cuts the first one off. -/
def Simulation.Covers (S : Simulation) (n n' : Nat) : Prop :=
  S.cutOff .exhausted ∧ n ≤ n' ∨ S.stop .exhausted .exhausted ∧ n = n'

theorem quotedAt_simulates {d : Nat} {body body' : Block → ScopeId → Eval Value}
    (hlimit : S.Deepens limit limit') (hbody : S.RespectsBodies d limit body body') (n : Nat) :
    ∀ n', S.Covers n n' → ∀ e env, S.Simulates d (Expr.rename S.ρ.name)
      (quotedAt .idle limit body n e env)
      (quotedAt .idle limit' body' n' (e.rename S.ρ.name) (S.ρ.scope env)) := by
  induction n with
  | zero =>
    intro n' hn e env
    cases n' with
    | zero =>
      refine unquoter_expr_simulates (fun a => ?_) e
      rcases hn with ⟨hcut, -⟩ | ⟨hstop, -⟩
      · exact Eval.simulates_cutOff hcut _
      · exact Eval.simulates_throw hstop
    | succ n' =>
      rcases hn with ⟨hcut, -⟩ | ⟨-, hn⟩
      · exact unquoter_expr_simulates (fun a => Eval.simulates_cutOff hcut _) e
      · omega
  | succ n ih =>
    intro n' hn e env
    cases n' with
    | zero =>
      rcases hn with ⟨-, hn⟩ | ⟨-, hn⟩ <;> omega
    | succ n' =>
      have hn' : S.Covers n n' :=
        hn.imp (fun h => ⟨h.1, by omega⟩) (fun h => ⟨h.1, by omega⟩)
      rw [quotedAt_succ, quotedAt_succ]
      refine unquoter_expr_simulates (fun a => ?_) e
      refine Expr.evalWith_simulates ⟨fun f args => ?_, ih n' hn'⟩ a env
      exact Value.call_simulates hlimit hbody f args

/-- Levels of calls are used up while the depth grows. So they run out only where that cuts the
first evaluation off, or where both are stopped by the limit before. -/
def Simulation.CoversCalls (S : Simulation) (d limit limit' calls calls' : Nat) : Prop :=
  S.cutOff .exhausted ∧ calls ≤ calls' ∨ limit ≤ calls + d ∧ limit' ≤ calls' + d

variable {limits limits' : Limits}

theorem levelsAt_simulates (hlimit : S.Deepens limits.calls limits'.calls)
    (hsplices : S.Covers (limits.splices + 1) (limits'.splices + 1)) (calls calls' d : Nat)
    (hcalls : S.CoversCalls d limits.calls limits'.calls calls calls') :
    S.Respects d limits.calls limits'.calls (levelsAt .idle limits calls (limits.splices + 1))
      (levelsAt .idle limits' calls' (limits'.splices + 1)) := by
  have hle := hlimit.le
  have hbody : S.RespectsBodies d limits.calls (bodyAt .idle limits calls)
      (bodyAt .idle limits' calls') := by
    intro hd b env
    match calls, calls' with
    | 0, calls' =>
      rcases hcalls with ⟨hcut, -⟩ | ⟨hcalls, -⟩
      · exact Eval.simulates_cutOff hcut _
      · omega
    | calls + 1, 0 =>
      rcases hcalls with ⟨-, hcalls⟩ | ⟨-, hcalls⟩ <;> omega
    | calls + 1, calls' + 1 =>
      have hcalls' : S.CoversCalls (d + 1) limits.calls limits'.calls calls calls' :=
        hcalls.imp (fun h => ⟨h.1, by omega⟩) (fun h => ⟨by omega, by omega⟩)
      have hlevels := levelsAt_simulates hlimit hsplices calls calls' (d + 1) hcalls'
      exact Block.evalWith_simulates hlevels b .null env
  refine ⟨fun f args => ?_, quotedAt_simulates hlimit hbody _ _ hsplices⟩
  exact Value.call_simulates hlimit hbody f args
termination_by calls

theorem Program.evalAt_simulates (hlimit : S.Deepens limits.calls limits'.calls)
    (hsplices : S.Covers (limits.splices + 1) (limits'.splices + 1)) {calls calls' d : Nat}
    (hcalls : S.CoversCalls d limits.calls limits'.calls calls calls') (p : Program)
    (env : ScopeId) :
    S.Simulates d (Value.rename S.ρ) (p.evalAt limits calls env)
      ((p.rename S.ρ.name).evalAt limits' calls' (S.ρ.scope env)) := by
  have hlevels := levelsAt_simulates hlimit hsplices calls calls' d hcalls
  refine Eval.simulates_bind (Block.evalWith_simulates hlevels p.statements .null env) fun v => ?_
  rw [Value.unwrapReturn_rename]
  exact Eval.simulates_pure v.unwrapReturn

end

end Monkey
