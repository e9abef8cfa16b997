import Monkey.Proofs.Approximation

/-!
# The limit on calls

The limit on the depth of calls only cuts evaluations off. One that is not cut off goes the same way
with any higher limit, and one that is cut off says which limit it met.
-/

namespace Monkey

theorem Stop.error_ne_exceeded (e : EvalError) (h : ∀ n, e ≠ .callDepthExceeded n) :
    ∀ n, Stop.error e ≠ .error (.callDepthExceeded n) := by
  intro n hn
  exact h n (Stop.error.inj hn)

/-- Meeting the limit cuts an evaluation off, and no other limit is met. -/
def Simulation.ofLimit (limit : Nat) : Simulation :=
  .alike (· = .error (.callDepthExceeded limit))
    (fun e => ∀ n, e ≠ .error (.callDepthExceeded n)) Stop.error_ne_exceeded

/-- The result `r`, with a limit on calls, is either cut off by that limit or the same as `r'`. -/
def OnlyCutOff (limit : Nat) (r r' : EStateM.Result Stop Machine Value) : Prop :=
  ((∀ n m, r ≠ .error (.error (.callDepthExceeded n)) m) → r' = r) ∧
    ∀ n m, r = .error (.error (.callDepthExceeded n)) m → n = limit

/-- An evaluation that does not exceed its limit on calls goes the same way with any higher one. -/
theorem Program.eval_onlyCutOff {limit limit' : Nat} (h : limit ≤ limit') (splices : Nat)
    (p : Program) (env : ScopeId) (m : Machine) :
    OnlyCutOff limit ((p.eval ⟨limit, splices⟩ env).run m)
      ((p.eval ⟨limit', splices⟩ env).run m) := by
  have hlimit : (Simulation.ofLimit limit).Deepens limit limit' := ⟨h, .inl rfl⟩
  have hsplices : (Simulation.ofLimit limit).Covers (splices + 1) (splices + 1) :=
    .inr ⟨⟨rfl, fun n hn => by cases hn⟩, rfl⟩
  -- Both have as many levels of calls as their limits allow, so none runs out of them.
  have hcalls : (Simulation.ofLimit limit).CoversCalls m.depth limit limit' limit limit' :=
    .inr ⟨Nat.le_add_right limit m.depth, Nat.le_add_right limit' m.depth⟩
  rcases Program.evalAt_alike ⟨limit, splices⟩ ⟨limit', splices⟩ hlimit hsplices hcalls p env
    with ⟨e, m', hx, rfl⟩ | ⟨heq, hother⟩
  · refine ⟨fun hnot => absurd hx (hnot limit m'), fun n m₁ hn => ?_⟩
    have hsame := hn.symm.trans hx
    cases hsame
    rfl
  · exact ⟨fun _ => heq, fun n m₁ hn => absurd rfl (hother _ m₁ hn n)⟩

/-- A function without parameters is called, and calls another one. -/
def nestedCall : Program :=
  ⟨[.expr (.call (.function [] [.expr (.call (.function [] [.expr (.integer 7)]) [])]) [])]⟩

theorem Program.eval_onlyCutOff_nestedCall :
    2 ≤ 5 ∧
      (∃ m, (nestedCall.eval ⟨1, 0⟩ 0).run Machine.empty.addScope.2 =
        .error (.error (.callDepthExceeded 1)) m) ∧
      (∃ m, (nestedCall.eval ⟨2, 0⟩ 0).run Machine.empty.addScope.2 = .ok (.integer 7) m) ∧
      (nestedCall.eval ⟨5, 0⟩ 0).run Machine.empty.addScope.2 =
        (nestedCall.eval ⟨2, 0⟩ 0).run Machine.empty.addScope.2 := by
  have hrun : ∃ m, (nestedCall.eval ⟨2, 0⟩ 0).run Machine.empty.addScope.2 = .ok (.integer 7) m :=
    ⟨_, rfl⟩
  refine ⟨by decide, ⟨_, rfl⟩, hrun, ?_⟩
  refine (Program.eval_onlyCutOff (by decide : 2 ≤ 5) 0 nestedCall 0 _).1 fun n m hexceeded => ?_
  obtain ⟨m', hok⟩ := hrun
  rw [hok] at hexceeded
  cases hexceeded

end Monkey
