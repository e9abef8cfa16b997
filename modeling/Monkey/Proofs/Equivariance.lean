import Monkey.Proofs.Lockstep
import Monkey.Proofs.Sessions

/-!
# Names do not matter

A program with other names does the same with these names. Only the names that evaluation knows by
itself, those of the builtins, `quote` and `unquote`, have to stay.
-/

namespace Monkey

/-! ## Renamed results -/

/-- Only one error speaks of a name. -/
def EvalError.rename (r : String → String) : EvalError → EvalError
  | undefinedName name => undefinedName (r name)
  | e => e

def Stop.rename (r : String → String) : Stop → Stop
  | error e => error (e.rename r)
  | exhausted => exhausted

theorem Stop.rename_plain (r : String → String) (e : EvalError) (h : e.isPlain) :
    Stop.error e = (Stop.error e).rename r := by
  cases e with
  | undefinedName name => cases h
  | _ => rfl

/-- Nothing is cut off, and errors are renamed. -/
def Simulation.ofRenaming (ρ : Renaming) : Simulation where
  ρ := ρ
  cutOff _ := False
  stop e e' := e' = e.rename ρ.name
  stop_plain := Stop.rename_plain ρ.name
  stop_undefined _ := rfl

section

variable (ρ : Renaming)

theorem levels_rename (limits : Limits) (d : Nat) :
    (Simulation.ofRenaming ρ).Respects d limits.calls limits.calls (levels .idle limits)
      (levels .idle limits) :=
  levelsAt_simulates ⟨Nat.le_refl _, .inr ⟨rfl, rfl⟩⟩ (.inr ⟨rfl, rfl⟩) limits.calls limits.calls d
    (.inr ⟨Nat.le_add_right _ d, Nat.le_add_right _ d⟩)

theorem Program.eval_rename (limits : Limits) (d : Nat) (p : Program) (env : ScopeId) :
    (Simulation.ofRenaming ρ).Simulates d (Value.rename ρ) (p.eval limits env)
      ((p.rename ρ.name).eval limits (ρ.scope env)) := by
  have hblock := Block.evalWith_simulates (levels_rename ρ limits d) p.statements .null env
  refine Eval.simulates_bind hblock fun v => ?_
  rw [Value.unwrapReturn_rename]
  exact Eval.simulates_pure v.unwrapReturn

theorem Value.apply_rename (limits : Limits) (d : Nat) (f : Value) (args : List Value) :
    (Simulation.ofRenaming ρ).Simulates d (Value.rename ρ) (f.apply limits args)
      ((f.rename ρ).apply limits (args.map (Value.rename ρ))) := by
  rw [Value.apply_eq_call, Value.apply_eq_call]
  exact (levels_rename ρ limits d).call f args

end

/-! ## Sessions -/

namespace Session

theorem evalProgram_renamed {ρ : Renaming} {s s' : Session} (hlimits : s'.limits = s.limits)
    (hscope : s'.scope = ρ.scope s.scope) (hm : Machine.Renamed ρ 0 s.machine s'.machine)
    (p : Program) :
    (s'.evalProgram (p.rename ρ.name)).1 =
        ((s.evalProgram p).1.map (Value.rename ρ)).mapError (Stop.rename ρ.name) ∧
      Machine.Renamed ρ 0 (s.evalProgram p).2.machine
        (s'.evalProgram (p.rename ρ.name)).2.machine := by
  have hmatches := p.eval_rename ρ s.limits 0 s.scope _ _ hm
  unfold Session.evalProgram EStateM.run
  rw [hlimits, hscope]
  generalize p.eval s.limits s.scope s.machine = r at hmatches ⊢
  generalize (p.rename ρ.name).eval s.limits (ρ.scope s.scope) s'.machine = r' at hmatches ⊢
  cases hmatches with
  | ok hm => exact ⟨rfl, hm⟩
  | stop he hm => exact ⟨congrArg Except.error he, hm⟩
  | cutOff he => exact he.elim

theorem new_renamed {r : String → String} (hr : Function.Injective r)
    (hkeeps : ∀ n ∈ reservedNames, r n = n) (limits : Limits) :
    Machine.Renamed (.ofName r hr hkeeps) 0 (Session.new limits).machine
      (Session.new limits).machine := by
  refine ⟨fun i => ?_, fun _ => rfl, fun _ => rfl, rfl, rfl⟩
  have hscopes : (Session.new limits).machine.scopes = #[].push ⟨[], []⟩ := rfl
  change (Session.new limits).machine.scopes[i]? = _
  rw [hscopes, Array.getElem?_push]
  split
  · rfl
  · simp

/-- Evaluated from nothing, a program with other names gives the same answer with other names. -/
theorem evalProgram_rename {r : String → String} (hr : Function.Injective r)
    (hkeeps : ∀ n ∈ reservedNames, r n = n) (limits : Limits) (p : Program) :
    let ρ := Renaming.ofName r hr hkeeps
    let before := (Session.new limits).evalProgram p
    let after := (Session.new limits).evalProgram ((renamer r).program p)
    after.1 = (before.1.map (Value.rename ρ)).mapError (Stop.rename r) ∧
      after.2.machine.scopes = before.2.machine.scopes.map (Scope.rename ρ) ∧
      after.2.names.Perm (before.2.names.map r) := by
  intro ρ before after
  have hnew := new_renamed hr hkeeps limits
  obtain ⟨hanswer, hmachine⟩ := evalProgram_renamed (s := Session.new limits) rfl rfl hnew p
  have hnames := hmachine.names (Session.new limits).scope
  refine ⟨hanswer, hmachine.scopes_eq, ?_⟩
  unfold Session.names
  rw [evalProgram_scope, evalProgram_scope]
  exact hnames

/-- Two names take each other's place. -/
def swapped (name : String) : String :=
  if name = "x" then "y" else if name = "y" then "x" else name

theorem swapped_injective : Function.Injective swapped := by
  have htwice : ∀ n, swapped (swapped n) = n := by
    intro n
    unfold swapped
    split <;> simp_all
  intro a b h
  rw [← htwice a, h, htwice]

theorem swapped_keeps : ∀ n ∈ reservedNames, swapped n = n := by
  decide

/-- Binds `x` and `f`, calls `f` on a name that it also has as a parameter, and quotes the
result. -/
def quotingProgram : Program :=
  ⟨[.bind "x" (.integer 5),
    .bind "f" (.function ["y"] [.expr (.binary (.identifier "y") .plus (.identifier "x"))]),
    .expr (.call (.identifier "quote") [.binary (.identifier "x") .plus
      (.call (.identifier "unquote") [.call (.identifier "f") [.identifier "x"]])])]⟩

theorem evalProgram_rename_swapped :
    Function.Injective swapped ∧ (∀ n ∈ reservedNames, swapped n = n) ∧
      ((Session.new ⟨1, 0⟩).evalProgram quotingProgram).1 =
        .ok (.quote 1 (.binary (.identifier "x") .plus (.integer 10))) ∧
      ((Session.new ⟨1, 0⟩).evalProgram ((renamer swapped).program quotingProgram)).1 =
        .ok (.quote 1 (.binary (.identifier "y") .plus (.integer 10))) := by
  have hbefore : ((Session.new ⟨1, 0⟩).evalProgram quotingProgram).1 =
      .ok (.quote 1 (.binary (.identifier "x") .plus (.integer 10))) := rfl
  have hafter := (evalProgram_rename swapped_injective swapped_keeps ⟨1, 0⟩ quotingProgram).1
  rw [hbefore] at hafter
  exact ⟨swapped_injective, swapped_keeps, hbefore, hafter⟩

end Session

end Monkey
