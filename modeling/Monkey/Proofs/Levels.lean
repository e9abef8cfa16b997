import Monkey.Proofs.Quoting

/-!
# Levels

The evaluator is tied off with a number of levels of calls and, within each, a number of levels of
`unquote`. Levels respect a discipline if their quoting does, as long as running out of levels
either is allowed or cannot happen before the limit on calls is reached.
-/

namespace Monkey

/-- Evaluates a program with levels of calls, be they more or less than the limit asks for. -/
def Program.evalAt (limits : Limits) (calls : Nat) (p : Program) (env : ScopeId) : Eval Value := do
  let v ← Block.evalWith .idle limits.calls (levelsAt .idle limits calls (limits.splices + 1))
    p.statements .null env
  return v.unwrapReturn

/-! ## Levels and disciplines -/

section

variable {D : Discipline} {p : NodeProperty} {limits : Limits}

/-- What a discipline has to say about code, and about quoting it, so that levels respect it. -/
structure Discipline.Admits (D : Discipline) (p : NodeProperty) (limit splices : Nat) : Prop where
  function : ∀ ps b env, (Expr.function ps b).Everywhere p → D.scope env →
    D.value.function ps b env
  body : ∀ ps b env, D.value.function ps b env → Stmt.ListEverywhere p b
  quoted : ∀ d body, D.RespectsBodies d limit body → ∀ e env, e.Everywhere p → D.scope env →
    D.Ensures d D.value.quote (quotedAt .idle limit body splices e env)

/-- The levels of calls are used up one by one while the depth grows to the limit. -/
theorem levelsAt_respects (h : D.Admits p limits.calls (limits.splices + 1)) (calls d : Nat)
    (hcalls : D.stop .exhausted ∨ limits.calls ≤ calls + d) :
    D.Respects p d limits.calls (levelsAt .idle limits calls (limits.splices + 1)) := by
  have hbody : D.RespectsBodies d limits.calls (bodyAt .idle limits calls) := by
    intro hd ps b scope env hb henv
    cases calls with
    | zero =>
      rcases hcalls with hstop | hle
      · exact Eval.ensures_throw hstop
      · omega
    | succ n =>
      have hn : D.stop .exhausted ∨ limits.calls ≤ n + (d + 1) :=
        hcalls.imp_right fun hle => by omega
      have hlevels := levelsAt_respects h n (d + 1) hn
      exact Block.evalWith_ensures hlevels b .null env (h.body ps b scope hb) trivial henv
  refine ⟨h.function, ?_, h.quoted d _ hbody⟩
  intro f args hf hargs
  exact Value.call_ensures hbody f args hf hargs
termination_by calls

theorem levels_respect (h : D.Admits p limits.calls (limits.splices + 1)) (d : Nat) :
    D.Respects p d limits.calls (levels .idle limits) :=
  levelsAt_respects h limits.calls d (.inr (Nat.le_add_right limits.calls d))

end

/-- A discipline that asks the same of quotes as of code admits code with a local property. -/
theorem Discipline.admits_of_isLocal {D : Discipline} {p : NodeProperty}
    (hstop : D.stop .exhausted)
    (hfunction : ∀ ps b env, (Expr.function ps b).Everywhere p → D.scope env →
      D.value.function ps b env)
    (hbody : ∀ ps b env, D.value.function ps b env → Stmt.ListEverywhere p b)
    (hquote : ∀ e, D.value.quote e ↔ e.Everywhere p) (hlocal : p.IsLocal) (hp : p.HasLiterals)
    (limit splices : Nat) : D.Admits p limit splices := by
  refine ⟨hfunction, hbody, ?_⟩
  intro d body hrun e env he henv
  have hreplace : ∀ eval : Expr → Eval Value,
      (∀ a, a.Everywhere p → D.Ensures d (Value.Holds D.value) (eval a)) →
        ∀ e, e.Everywhere p → D.Ensures d D.value.quote ((unquoter eval).expr e) := by
    intro eval heval e he
    refine Eval.ensures_mono (P := Expr.Everywhere p) ?_ fun e he => (hquote e).mpr he
    exact unquoter_ensures (fun e e' hq hlike _ => hlocal.expr e e' hlike hq)
      (fun s s' hq hlike => hlocal.stmt s s' hlike hq) hp (fun e hq => (hquote e).mp hq) heval e he
  induction splices generalizing e env with
  | zero => exact hreplace _ (fun _ _ => Eval.ensures_throw hstop) e he
  | succ n ih =>
    rw [quotedAt_succ]
    refine hreplace _ (fun a ha => ?_) e he
    refine Expr.evalWith_ensures ⟨hfunction, ?_, ih⟩ a env ha henv
    intro f args hf hargs
    exact Value.call_ensures hrun f args hf hargs

theorem Discipline.admits_any {D : Discipline} (hstop : D.stop .exhausted)
    (hfunction : ∀ ps b env, D.value.function ps b env) (hquote : ∀ e, D.value.quote e)
    (limit splices : Nat) : D.Admits .any limit splices := by
  refine D.admits_of_isLocal hstop (fun ps b env _ _ => hfunction ps b env)
    (fun _ b _ _ => Stmt.listEverywhere_any b)
    (fun e => ⟨fun _ => e.everywhere_any, fun _ => hquote e⟩)
    ⟨fun _ _ _ _ => trivial, fun _ _ _ _ => trivial⟩ ?_ limit splices
  exact NodeProperty.hasLiterals_of_unquoted fun _ _ => trivial

end Monkey
