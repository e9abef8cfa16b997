import Monkey.Proofs.Discipline
import Monkey.Session

/-!
# Sessions

Inputs are evaluated one after another. A discipline that every program respects holds all along a
session, of its machine and of its answers.
-/

namespace Monkey.Session

/-- Evaluates the inputs one after another: the answers, and the session after them. -/
def evalAll (s : Session) : List String → List (Except SessionError Value) × Session
  | [] => ([], s)
  | source :: sources =>
    let (answer, s) := s.eval source
    let (answers, s) := s.evalAll sources
    (answer :: answers, s)

theorem evalProgram_machine (s : Session) (p : Program) :
    (s.evalProgram p).2.machine = (p.eval s.limits s.scope).after s.machine := by
  unfold Session.evalProgram EStateM.run Eval.after
  cases p.eval s.limits s.scope s.machine with
  | ok v m => rfl
  | error e m => rfl

theorem evalProgram_limits (s : Session) (p : Program) : (s.evalProgram p).2.limits = s.limits := by
  unfold Session.evalProgram
  split <;> rfl

theorem evalProgram_scope (s : Session) (p : Program) : (s.evalProgram p).2.scope = s.scope := by
  unfold Session.evalProgram
  split <;> rfl

theorem new_holds (p : ValueProperty) (limits : Limits) : (Session.new limits).machine.Holds p := by
  intro i s hs b hb
  have hscopes : (Session.new limits).machine.scopes = #[].push ⟨[], []⟩ := rfl
  rw [hscopes, Array.getElem?_push] at hs
  split at hs
  · cases hs
    cases hb
  · simp at hs

section

variable {D : Discipline}
  (hD : ∀ limits source env, D.Ensures 0 (Value.Holds D.value)
    ((parse source).program.eval limits env))

include hD

theorem eval_keeps (s : Session) (source : String) (hs : D.Inv 0 s.machine) :
    D.Inv 0 (s.eval source).2.machine ∧ ∀ v, (s.eval source).1 = .ok v → v.Holds D.value := by
  unfold Session.eval
  simp only
  split
  · have hends := hD s.limits source s.scope s.machine hs
    unfold Session.evalProgram EStateM.run
    cases hresult : (parse source).program.eval s.limits s.scope s.machine with
    | ok v m =>
      rw [hresult] at hends
      refine ⟨hends.1, ?_⟩
      rintro w ⟨⟩
      exact hends.2
    | error e m =>
      rw [hresult] at hends
      refine ⟨hends.1, ?_⟩
      rintro w ⟨⟩
  -- The input does not parse, so nothing happens.
  · refine ⟨hs, ?_⟩
    rintro w ⟨⟩

theorem evalAll_keeps (sources : List String) : ∀ s : Session, D.Inv 0 s.machine →
    D.Inv 0 (s.evalAll sources).2.machine ∧
      ∀ v, .ok v ∈ (s.evalAll sources).1 → v.Holds D.value := by
  induction sources with
  | nil =>
    intro s hs
    exact ⟨hs, by simp [evalAll]⟩
  | cons source sources ih =>
    intro s hs
    obtain ⟨hafter, hanswer⟩ := eval_keeps hD s source hs
    obtain ⟨hlast, hanswers⟩ := ih _ hafter
    refine ⟨hlast, fun v hv => ?_⟩
    rcases List.mem_cons.mp hv with hv | hv
    · exact hanswer v hv.symm
    · exact hanswers v hv

end

end Monkey.Session
