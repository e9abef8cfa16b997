import Monkey.Proofs.Approximation
import Monkey.Proofs.Sessions

/-!
# Evaluation ends

In a session that starts with nothing bound, no quote ever holds a call of `unquote`. So the
argument of an `unquote` has no further `unquote` in it once the quotes are spliced in, one level of
them is enough, and the limit on calls bounds the rest. No evaluation runs out of levels, and it
makes no difference how many there are.
-/

namespace Monkey

/-! ## Quotes without `unquote` -/

theorem Stop.error_ne_exhausted (e : EvalError) : Stop.error e ≠ .exhausted := by
  intro h
  cases h

/-- Quotes hold no call of `unquote`, and levels do not run out. -/
def endingDiscipline : Discipline where
  value := ⟨fun _ _ _ => True, Expr.UnquoteFree⟩
  store _ := True
  scope _ := True
  stop e := e ≠ .exhausted
  store_define _ _ := trivial
  store_enclose _ := trivial
  scope_new _ := trivial
  store_fresh _ := trivial
  store_depth _ := trivial
  stop_error := Stop.error_ne_exhausted

theorem quotedAt_eq_pure {limit : Nat} {body : Block → ScopeId → Eval Value} {e : Expr}
    (h : e.UnquoteFree) (n : Nat) (env : ScopeId) : quotedAt .idle limit body n e env = pure e := by
  cases n with
  | zero => exact unquoter_expr_eq _ e h
  | succ n => exact unquoter_expr_eq _ e h

/-- One level of `unquote` is enough: what is evaluated in it has no `unquote` left. -/
theorem endingDiscipline_admits (limit splices : Nat) :
    endingDiscipline.Admits .any limit (splices + 1) := by
  refine ⟨fun _ _ _ _ _ => trivial, fun _ b _ _ => Stmt.listEverywhere_any b, ?_⟩
  intro d body hbody e env _ _
  rw [quotedAt_succ]
  refine unquoter_ensures (q := .any) (fun _ _ _ _ h => h) (fun _ _ _ _ => trivial)
    (NodeProperty.hasLiterals_of_unquoted fun _ h => h) (fun _ h => h) ?_ e e.everywhere_any
  intro a ha
  refine Expr.evalWith_ensures ⟨fun _ _ _ _ _ => trivial, ?_, ?_⟩ a env ha trivial
  · intro f args hf hargs
    exact Value.call_ensures hbody f args hf hargs
  · intro node env' hnode _
    change endingDiscipline.Ensures d Expr.UnquoteFree (quotedAt .idle limit body splices node env')
    rw [quotedAt_eq_pure hnode]
    exact Eval.ensures_pure hnode

/-! ## Programs -/

section

variable {m : Machine} (limits : Limits)

theorem Program.eval_ensures (p : Program) (env : ScopeId) :
    endingDiscipline.Ensures 0 (Value.Holds endingDiscipline.value) (p.eval limits env) := by
  have hlevels := levels_respect (endingDiscipline_admits limits.calls limits.splices) 0
  refine Eval.ensures_bind (Block.evalWith_ensures hlevels p.statements .null env
    (Stmt.listEverywhere_any _) trivial trivial) fun v hv => ?_
  exact Eval.ensures_pure hv.unwrapReturn

theorem Discipline.Ensures.stop {D : Discipline} {d : Nat} {α : Type} {Q : α → Prop} {x : Eval α}
    (hx : D.Ensures d Q x) (hm : D.Inv d m) {e : Stop} {m' : Machine} (he : x m = .error e m') :
    D.stop e := by
  have hxm := hx m hm
  rw [he] at hxm
  exact hxm.2

theorem Program.evalAt_eq_eval (hm : endingDiscipline.Inv 0 m) (calls splices : Nat) (p : Program)
    (env : ScopeId) :
    p.evalAt ⟨limits.calls, splices⟩ (limits.calls + calls) env m = p.eval limits env m := by
  -- Even without splices nothing runs out, so nothing is cut off.
  have hleast : ∀ splices calls, limits.calls ≤ calls →
      p.evalAt ⟨limits.calls, splices⟩ calls env m = p.eval ⟨limits.calls, 0⟩ env m := by
    intro splices calls hcalls
    rcases p.evalAt_more limits.calls (Nat.zero_le splices) hcalls env m with ⟨m', hout⟩ | heq
    · exact absurd rfl ((p.eval_ensures ⟨limits.calls, 0⟩ env).stop hm hout)
    · exact heq
  rw [hleast splices _ (Nat.le_add_right _ calls)]
  exact (hleast limits.splices _ (Nat.le_refl _)).symm

end

/-! ## Sessions -/

namespace Session

/-- The session in which the programs were evaluated one after another, from nothing. -/
def afterPrograms (limits : Limits) (ps : List Program) : Session :=
  ps.foldl (fun s p => (s.evalProgram p).2) (Session.new limits)

theorem new_inv (limits : Limits) : endingDiscipline.Inv 0 (Session.new limits).machine :=
  ⟨trivial, new_holds _ limits, rfl⟩

/-- Along a session no quote gets hold of an `unquote`, and each program comes back to depth zero.
-/
theorem afterPrograms_inv (limits : Limits) (ps : List Program) :
    (afterPrograms limits ps).limits = limits ∧
      endingDiscipline.Inv 0 (afterPrograms limits ps).machine := by
  have hstep : ∀ (s : Session) (p : Program), s.limits = limits ∧ endingDiscipline.Inv 0 s.machine →
      (s.evalProgram p).2.limits = limits ∧ endingDiscipline.Inv 0 (s.evalProgram p).2.machine := by
    rintro s p ⟨hlimits, hm⟩
    rw [evalProgram_limits, evalProgram_machine]
    exact ⟨hlimits, (p.eval_ensures s.limits s.scope).after hm⟩
  have hrun : ∀ s : Session, s.limits = limits ∧ endingDiscipline.Inv 0 s.machine →
      (ps.foldl (fun s p => (s.evalProgram p).2) s).limits = limits ∧
        endingDiscipline.Inv 0 (ps.foldl (fun s p => (s.evalProgram p).2) s).machine := by
    induction ps with
    | nil => exact fun s hs => hs
    | cons p ps ih => exact fun s hs => ih _ (hstep s p hs)
  exact hrun (Session.new limits) ⟨rfl, new_inv limits⟩

/-- After any programs, a program gives a value or an error, and with more levels the same one. -/
theorem evalProgram_ends (limits : Limits) (ps : List Program) (p : Program) :
    ((∃ v, ((afterPrograms limits ps).evalProgram p).1 = .ok v) ∨
        ∃ e, ((afterPrograms limits ps).evalProgram p).1 = .error (.error e)) ∧
      ∀ calls splices : Nat,
        (p.evalAt ⟨limits.calls, splices⟩ (limits.calls + calls)
            (afterPrograms limits ps).scope).run (afterPrograms limits ps).machine =
          (p.eval limits (afterPrograms limits ps).scope).run
            (afterPrograms limits ps).machine := by
  obtain ⟨hlimits, hm⟩ := afterPrograms_inv limits ps
  refine ⟨?_, fun calls splices => p.evalAt_eq_eval limits hm calls splices _⟩
  have hends := p.eval_ensures limits (afterPrograms limits ps).scope _ hm
  unfold Session.evalProgram EStateM.run
  rw [hlimits]
  cases hresult :
      p.eval limits (afterPrograms limits ps).scope (afterPrograms limits ps).machine with
  | ok v m => exact .inl ⟨v, rfl⟩
  | error e m =>
    rw [hresult] at hends
    cases e with
    | error e => exact .inr ⟨e, rfl⟩
    | exhausted => exact absurd rfl hends.2

end Session

end Monkey
