import Monkey.Proofs.CallLimit
import Monkey.Proofs.Conformity
import Monkey.Proofs.Sessions

/-!
# The depth of calls

Calls never go deeper than the limit, and every evaluation comes back to the depth that it started
at, whether it succeeds or fails. So nothing that happens in a session takes depth away from later
inputs, and inputs that do not parse may as well be left out.
-/

namespace Monkey

/-! ## Evaluations -/

/-- Started on `m`, the evaluation never goes deeper than the limit and comes back to the depth of
`m`, however it ends. -/
structure KeepsDepth (limit : Nat) (m : Machine) {α : Type} (x : Watch → Eval α) : Prop where
  below : AtAllTimes (fun _ m' => m'.depth ≤ limit) x m
  restored : ((x .idle).after m).depth = m.depth

theorem Regime.Follows.depth_after {R : Regime} {limit : Nat} {w : R.Stage} {d : Nat} {α : Type}
    {Q : R.Stage → α → Prop} {x : Watch → Eval α} (h : R.Follows limit w d Q x) {m : Machine}
    (hm : R.At w d m) : ((x .idle).after m).depth = d := by
  obtain ⟨w', -, hm'⟩ := h.after hm
  exact hm'.depth

theorem Regime.Follows.keepsDepth {limit : Nat} {m : Machine} (hm : m.depth ≤ limit) {α : Type}
    {Q : Regime.any.Stage → α → Prop} {x : Watch → Eval α}
    (h : Regime.any.Follows limit m.fresh m.depth Q x) : KeepsDepth limit m x := by
  refine ⟨h.atAllTimes (Regime.at_any m) fun k hk w m' hm' => ?_, h.depth_after (Regime.at_any m)⟩
  have hdepth : m'.depth ≤ limit := by
    rw [hm'.depth]
    omega
  exact ⟨hdepth, fun _ _ _ => hdepth⟩

theorem Program.depth_after_eval (limits : Limits) (p : Program) (env : ScopeId) (m : Machine) :
    ((p.eval limits env).after m).depth = m.depth :=
  (p.watched_follows False.elim trivial).depth_after (Regime.at_any m)

/-! ## Sessions -/

namespace Session

/-- Whether an answer says that the input does not parse. -/
def isRefused : Except SessionError Value → Bool
  | .error (.parse _) => true
  | .error (.eval _) | .ok _ => false

theorem eval_cases (s : Session) (source : String) :
    (isRefused (s.eval source).1 = true ∧ (s.eval source).2 = s) ∨
      isRefused (s.eval source).1 = false ∧
        (s.eval source).2 = (s.evalProgram (parse source).program).2 := by
  unfold Session.eval
  simp only
  split
  · right
    cases hresult : s.evalProgram (parse source).program with
    | mk answer s' =>
      cases answer with
      | ok v => exact ⟨rfl, rfl⟩
      | error e => exact ⟨rfl, rfl⟩
  · exact .inl ⟨rfl, rfl⟩

theorem eval_limits (s : Session) (source : String) : (s.eval source).2.limits = s.limits := by
  rcases s.eval_cases source with ⟨-, hsame⟩ | ⟨-, hafter⟩
  · rw [hsame]
  · rw [hafter, evalProgram_limits]

theorem eval_depth (s : Session) (source : String) :
    (s.eval source).2.machine.depth = s.machine.depth := by
  rcases s.eval_cases source with ⟨-, hsame⟩ | ⟨-, hafter⟩
  · rw [hsame]
  · rw [hafter, evalProgram_machine, Program.depth_after_eval]

/-- The inputs of a session that were not refused. -/
def accepted (s : Session) (sources : List String) : List String :=
  ((sources.zip (s.evalAll sources).1).filter fun input => !isRefused input.2).map (·.1)

theorem evalAll_accepted (sources : List String) : ∀ s : Session,
    s.evalAll (s.accepted sources) =
      ((s.evalAll sources).1.filter fun answer => !isRefused answer, (s.evalAll sources).2) := by
  induction sources with
  | nil => exact fun s => rfl
  | cons source sources ih =>
    intro s
    -- A refused input leaves the session as it is, so the rest starts from the same one.
    rcases s.eval_cases source with ⟨hrefused, hsame⟩ | ⟨haccepted, -⟩
    · have hskip : s.accepted (source :: sources) = s.accepted sources := by
        simp [accepted, evalAll, hrefused, hsame]
      rw [hskip, ih s]
      simp [evalAll, hrefused, hsame]
    · have hkeep : s.accepted (source :: sources) =
          source :: (s.eval source).2.accepted sources := by
        simp [accepted, evalAll, haccepted]
      rw [hkeep]
      simp [evalAll, ih (s.eval source).2, haccepted]

theorem evalAll_unchanged {α : Type} {f : Session → α}
    (h : ∀ (s : Session) (source : String), f (s.eval source).2 = f s) (sources : List String) :
    ∀ s : Session, f (s.evalAll sources).2 = f s := by
  induction sources with
  | nil => exact fun s => rfl
  | cons source sources ih =>
    intro s
    have hrest := ih (s.eval source).2
    rw [h] at hrest
    exact hrest

end Session

/-- Every evaluation stays within the limit and comes back to its depth, and refused inputs do
nothing. -/
theorem callDepth_restored (limits : Limits) :
    (∀ m : Machine, m.depth ≤ limits.calls →
      (∀ (p : Program) (env : ScopeId),
        KeepsDepth limits.calls m fun watch => p.watched watch limits env) ∧
      (∀ (b : Block) (env : ScopeId),
        KeepsDepth limits.calls m fun watch => Block.watched watch limits b env) ∧
      (∀ (s : Stmt) (env : ScopeId),
        KeepsDepth limits.calls m fun watch => s.watched watch limits env) ∧
      (∀ (e : Expr) (env : ScopeId),
        KeepsDepth limits.calls m fun watch => e.watched watch limits env) ∧
      ∀ (f : Value) (args : List Value),
        KeepsDepth limits.calls m fun watch => f.applyWatched watch limits args) ∧
    ∀ (s : Session) (sources : List String),
      s.evalAll (s.accepted sources) =
          ((s.evalAll sources).1.filter fun answer => !Session.isRefused answer,
            (s.evalAll sources).2) ∧
        (s.evalAll sources).2.limits = s.limits ∧
        (s.evalAll sources).2.machine.depth = s.machine.depth := by
  refine ⟨fun m hm => ⟨fun p env => ?_, fun b env => ?_, fun s env => ?_, fun e env => ?_,
    fun f args => ?_⟩, fun s sources => ⟨?_, ?_, ?_⟩⟩
  · exact (p.watched_follows False.elim trivial).keepsDepth hm
  · exact (Block.watched_follows b False.elim trivial).keepsDepth hm
  · exact (s.watched_follows False.elim trivial).keepsDepth hm
  · exact (e.watched_follows False.elim trivial).keepsDepth hm
  · exact (Value.applyWatched_follows (Regime.value_any _ f) fun a _ =>
      Regime.value_any _ a).keepsDepth hm
  · exact Session.evalAll_accepted sources s
  · exact Session.evalAll_unchanged Session.eval_limits sources s
  · exact Session.evalAll_unchanged (f := fun s => s.machine.depth) Session.eval_depth sources s

theorem callDepth_restored_nestedCall :
    Machine.empty.addScope.2.depth ≤ 1 ∧
      (∃ m, nestedCall.eval ⟨1, 0⟩ 0 Machine.empty.addScope.2 =
        .error (.error (.callDepthExceeded 1)) m ∧ m.depth = 0) ∧
      KeepsDepth 1 Machine.empty.addScope.2 fun watch => nestedCall.watched watch ⟨1, 0⟩ 0 :=
  ⟨by decide, ⟨_, rfl, rfl⟩,
    ((callDepth_restored ⟨1, 0⟩).1 Machine.empty.addScope.2 (by decide)).1 nestedCall 0⟩

/-- A watch is told of what is done two calls deep. -/
theorem nestedCall_goesDeep :
    ¬ AtAllTimes (fun _ m' => m'.depth ≤ 1) (fun watch => nestedCall.watched watch ⟨2, 0⟩ 0)
      Machine.empty.addScope.2 :=
  not_atAllTimes (fun _ m' => 1 < m'.depth) (fun _ _ h => decide_eq_false (Nat.not_lt.mpr h)) rfl
    rfl

end Monkey
