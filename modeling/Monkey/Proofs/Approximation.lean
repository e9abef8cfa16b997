import Monkey.Proofs.Lockstep

/-!
# Approximation

One evaluation approximates another if it is cut off or does the same. That is a simulation that
renames nothing. Evaluating with fewer levels approximates evaluating with more, and so does
evaluating with a lower limit on calls.
-/

namespace Monkey

/-! ## Renaming nothing -/

mutual

theorem Value.rename_identical : ∀ v : Value, v.rename .identical = v
  | .integer _ | .boolean _ | .string _ _ | .null | .builtin _ => rfl
  | .array _ vs => congrArg (Value.array _) (Value.renameList_identical vs)
  | .hash _ entries => congrArg (Value.hash _) (Value.renameEntries_identical entries)
  | .returned v => congrArg Value.returned v.rename_identical
  | .function i ps b scope => by
    change Value.function i (ps.map id) (Block.rename id b) scope = _
    rw [List.map_id, Block.rename_id]
  | .quote _ node => congrArg (Value.quote _) node.rename_id

theorem Value.renameList_identical : ∀ vs : List Value, Value.renameList .identical vs = vs
  | [] => rfl
  | v :: vs => by
    rw [Value.renameList, v.rename_identical, Value.renameList_identical vs]

theorem Value.renameEntries_identical :
    ∀ entries : List (Key × Value), Value.renameEntries .identical entries = entries
  | [] => rfl
  | (k, v) :: entries => by
    rw [Value.renameEntries, v.rename_identical, Value.renameEntries_identical entries]

end

theorem Scope.rename_identical : Scope.rename .identical = id := by
  have hbinding : Prod.map Renaming.identical.name (Value.rename .identical) = id := by
    funext b
    exact congrArg (b.1, ·) b.2.rename_identical
  funext s
  rw [Scope.rename, Bindings.rename, hbinding, List.map_id]
  change Scope.mk s.bindings (s.enclosing.map id) = s
  rw [List.map_id]

theorem Program.rename_identical (p : Program) : p.rename Renaming.identical.name = p :=
  congrArg Program.mk (Block.rename_id p.statements)

theorem Machine.renamed_identical (m : Machine) : Machine.Renamed .identical m.depth m m := by
  refine ⟨fun i => ?_, fun _ => rfl, fun _ => rfl, rfl, rfl⟩
  rw [Scope.rename_identical, Option.map_id]
  rfl

theorem Machine.Renamed.eq {d : Nat} {m m' : Machine} (h : Machine.Renamed .identical d m m') :
    m' = m := by
  have hscopes : m'.scopes = m.scopes.map (Scope.rename .identical) := h.scopes_eq
  rw [Scope.rename_identical, Array.map_id] at hscopes
  have hfresh : m.fresh = m'.fresh := h.newIdentity
  obtain ⟨hdepth, hdepth'⟩ := h.depth
  cases m
  cases m'
  simp_all

/-! ## Approximating programs -/

theorem EvalError.ne_of_isPlain {e : EvalError} (h : e.isPlain) (n : Nat) :
    e ≠ .callDepthExceeded n := by
  rintro rfl
  cases h

theorem EvalError.undefinedName_ne (name : String) (n : Nat) :
    EvalError.undefinedName name ≠ .callDepthExceeded n := by
  intro h
  cases h

/-- Nothing is renamed, and an evaluation that is not cut off stops for a reason in `kept`. -/
def Simulation.alike (cutOff kept : Stop → Prop)
    (hkept : ∀ e : EvalError, (∀ n, e ≠ .callDepthExceeded n) → kept (.error e)) : Simulation where
  ρ := .identical
  cutOff := cutOff
  stop e e' := e' = e ∧ kept e
  stop_plain e he := ⟨rfl, hkept e (EvalError.ne_of_isPlain he)⟩
  stop_undefined name := ⟨rfl, hkept _ (EvalError.undefinedName_ne name)⟩

section

variable {cutOff kept : Stop → Prop}
  {hkept : ∀ e : EvalError, (∀ n, e ≠ .callDepthExceeded n) → kept (.error e)}

theorem Simulation.Simulates.cases_alike {x y : Eval Value} {m : Machine}
    (h : (alike cutOff kept hkept).Simulates m.depth (Value.rename .identical) x y) :
    (∃ e m', x m = .error e m' ∧ cutOff e) ∨
      y m = x m ∧ ∀ e m', x m = .error e m' → kept e := by
  have hm := h m m m.renamed_identical
  generalize x m = r at hm ⊢
  generalize y m = r' at hm ⊢
  -- The simulation renames nothing, so a match is an equality.
  cases hm with
  | ok hm =>
    rw [hm.eq, Value.rename_identical]
    refine .inr ⟨rfl, ?_⟩
    rintro _ _ ⟨⟩
  | stop he hm =>
    rw [hm.eq, he.1]
    refine .inr ⟨rfl, ?_⟩
    rintro _ _ ⟨⟩
    exact he.2
  | cutOff he => exact .inl ⟨_, _, rfl, he⟩

theorem Program.evalAt_alike (limits limits' : Limits) {calls calls' : Nat} {m : Machine}
    (hlimit : (Simulation.alike cutOff kept hkept).Deepens limits.calls limits'.calls)
    (hsplices : (Simulation.alike cutOff kept hkept).Covers (limits.splices + 1)
      (limits'.splices + 1))
    (hcalls : (Simulation.alike cutOff kept hkept).CoversCalls m.depth limits.calls limits'.calls
      calls calls') (p : Program) (env : ScopeId) :
    (∃ e m', p.evalAt limits calls env m = .error e m' ∧ cutOff e) ∨
      p.evalAt limits' calls' env m = p.evalAt limits calls env m ∧
        ∀ e m', p.evalAt limits calls env m = .error e m' → kept e := by
  have hsame : p.rename (Simulation.alike cutOff kept hkept).ρ.name = p := p.rename_identical
  have hsimulates := p.evalAt_simulates hlimit hsplices hcalls env
  rw [hsame] at hsimulates
  exact hsimulates.cases_alike

end

/-! ## More levels -/

/-- Running out of levels cuts an evaluation off. -/
def Simulation.ofLevels : Simulation := .alike (· = .exhausted) (fun _ => True) fun _ _ => trivial

/-- More levels than there are make a difference only if these run out. -/
theorem Program.evalAt_more (limit : Nat) {splices splices' calls calls' : Nat}
    (hsplices : splices ≤ splices') (hcalls : calls ≤ calls') (p : Program) (env : ScopeId)
    (m : Machine) :
    (∃ m', p.evalAt ⟨limit, splices⟩ calls env m = .error .exhausted m') ∨
      p.evalAt ⟨limit, splices'⟩ calls' env m = p.evalAt ⟨limit, splices⟩ calls env m := by
  have hlimit : Simulation.ofLevels.Deepens limit limit :=
    ⟨Nat.le_refl limit, .inr ⟨rfl, rfl, trivial⟩⟩
  have hcovers : Simulation.ofLevels.Covers (splices + 1) (splices' + 1) :=
    .inl ⟨rfl, Nat.succ_le_succ hsplices⟩
  have hcoversCalls : Simulation.ofLevels.CoversCalls m.depth limit limit calls calls' :=
    .inl ⟨rfl, hcalls⟩
  rcases Program.evalAt_alike ⟨limit, splices⟩ ⟨limit, splices'⟩ hlimit hcovers hcoversCalls p env
    with ⟨e, m', hx, rfl⟩ | ⟨heq, -⟩
  · exact .inl ⟨m', hx⟩
  · exact .inr heq

/-- No limit on splices shows in an evaluation that does not run out of them. -/
theorem Program.eval_moreSplices (limit : Nat) {splices splices' : Nat}
    (hsplices : splices ≤ splices') (p : Program) (env : ScopeId) (m : Machine) :
    (∃ m', p.eval ⟨limit, splices⟩ env m = .error .exhausted m') ∨
      p.eval ⟨limit, splices'⟩ env m = p.eval ⟨limit, splices⟩ env m :=
  p.evalAt_more limit hsplices (Nat.le_refl limit) env m

end Monkey
