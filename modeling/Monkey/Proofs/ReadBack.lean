import Monkey.Proofs.Levels
import Monkey.Proofs.Reachability
import Monkey.Proofs.RoundTrip
import Monkey.Proofs.Sessions
import Monkey.Syntax.Equality

/-!
# Syntax at run time

Functions and quotes carry syntax around. All of it stays well formed, whatever `unquote` puts
where, so it can be printed and read back at any time in a session.
-/

namespace Monkey

/-! ## Reading back -/

/-- The text of the expression is read, without an error, as that expression and nothing else. -/
def Expr.ReadsBack (e : Expr) : Prop :=
  (parse e.render).program = ⟨[.expr e]⟩ ∧ (parse e.render).errors = []

theorem Expr.WellFormed.readsBack {e : Expr} (h : e.WellFormed) : e.ReadsBack := by
  have hstmt : Program.WellFormed ⟨[.expr e]⟩ := by
    intro s hs
    rw [List.mem_singleton.mp hs]
    exact ⟨trivial, h⟩
  have htext : Program.render ⟨[.expr e]⟩ = e.render := by
    simp [Program.render, Stmt.renderList, Stmt.render]
  have hparse := Program.parse_render _ hstmt
  rw [htext] at hparse
  exact hparse

/-- The syntax that a function or a quote holds. -/
def Value.syntax? : Value → Option Expr
  | .function _ parameters body _ => some (.function parameters body)
  | .quote _ node => some node
  | _ => none

/-! ## Well-formed syntax stays well formed -/

theorem wellFormed_isLocal : wellFormed.IsLocal := by
  constructor
  · intro e e' hlike he
    unfold Expr.Like at hlike
    split at hlike <;> simp_all [wellFormed]
  · intro s s' hlike hs
    unfold Stmt.Like at hlike
    split at hlike <;> simp_all [wellFormed]

theorem integerSyntax_wellFormed (n : Int64) : (integerSyntax n).WellFormed := by
  unfold integerSyntax
  split
  · rename_i hn
    exact ⟨hn, trivial⟩
  · rename_i hn
    split
    · rename_i r hr
      rw [Integer.neg?, Integer.ofInt?_eq_some_iff] at hr
      have hpos : 0 ≤ r.toInt := by omega
      exact ⟨trivial, hpos, trivial⟩
    · have hmax : 0 ≤ Int64.maxValue.toInt := by decide
      have hone : 0 ≤ (1 : Int64).toInt := by decide
      exact ⟨trivial, ⟨trivial, hmax, trivial⟩, hone, trivial⟩

theorem wellFormed_hasLiterals : wellFormed.HasLiterals :=
  ⟨integerSyntax_wellFormed, fun _ => ⟨trivial, trivial⟩⟩

/-- The syntax in functions and quotes is well formed. -/
def wellFormedDiscipline : Discipline where
  value := ⟨fun ps b _ => (Expr.function ps b).WellFormed, Expr.WellFormed⟩
  store _ := True
  scope _ := True
  stop _ := True
  store_define _ _ := trivial
  store_enclose _ := trivial
  scope_new _ := trivial
  store_fresh _ := trivial
  store_depth _ := trivial
  stop_error _ := trivial

theorem wellFormedDiscipline_admits (limit splices : Nat) :
    wellFormedDiscipline.Admits wellFormed limit splices :=
  Discipline.admits_of_isLocal (D := wellFormedDiscipline) trivial (fun _ _ _ h _ => h)
    (fun _ _ _ h => h.2) (fun _ => Iff.rfl) wellFormed_isLocal wellFormed_hasLiterals limit splices

theorem Program.eval_wellFormed (limits : Limits) {p : Program} (hp : p.WellFormed) (env : ScopeId)
    (d : Nat) : wellFormedDiscipline.Ensures d (Value.Holds wellFormedDiscipline.value)
      (p.eval limits env) := by
  have hlevels := levels_respect (wellFormedDiscipline_admits limits.calls _) d
  refine Eval.ensures_bind (Block.evalWith_ensures hlevels p.statements .null env
    (Stmt.listEverywhere_iff.mpr hp) trivial trivial) fun v hv => ?_
  exact Eval.ensures_pure hv.unwrapReturn

theorem Value.Holds.readsBack {w : Value} (h : w.Holds wellFormedDiscipline.value) {e : Expr}
    (he : w.syntax? = some e) : e.ReadsBack := by
  cases w with
  | function id ps b scope =>
    cases he
    exact Expr.WellFormed.readsBack h
  | quote id node =>
    cases he
    exact Expr.WellFormed.readsBack h
  | _ => cases he

/-! ## Sessions -/

namespace Session

/-- All functions and quotes that a session from nothing gives or holds can be printed and read
back. -/
theorem syntax_readsBack (limits : Limits) (sources : List String) {start : Place} {w : Value}
    {e : Expr}
    (hstart : start = .scope ((Session.new limits).evalAll sources).2.scope ∨
      ∃ v, .ok v ∈ ((Session.new limits).evalAll sources).1 ∧ start = .value v)
    (hreach : ((Session.new limits).evalAll sources).2.machine.Reaches start (.value w))
    (hw : w.syntax? = some e) : e.ReadsBack := by
  have hprogram : ∀ limits source env, wellFormedDiscipline.Ensures 0
      (Value.Holds wellFormedDiscipline.value) ((parse source).program.eval limits env) :=
    fun limits source env => Program.eval_wellFormed limits (parse_wellFormed source) env 0
  have hnew : wellFormedDiscipline.Inv 0 (Session.new limits).machine :=
    ⟨trivial, new_holds _ limits, rfl⟩
  obtain ⟨hlast, hanswers⟩ := evalAll_keeps hprogram sources (Session.new limits) hnew
  have hplace : start.Holds wellFormedDiscipline.value := by
    rcases hstart with rfl | ⟨v, hv, rfl⟩
    · trivial
    · exact hanswers v hv
  have hheld : (Place.value w).Holds wellFormedDiscipline.value := hreach.holds hlast.values hplace
  exact Value.Holds.readsBack hheld hw

/-- The least integer and a truth value, put where a call has its callee and its argument. -/
def splicedCall : Expr :=
  .call (.binary (.unary .minus (.integer Int64.maxValue)) .minus (.integer 1)) [.boolean true]

/-- A session that binds the quote of such a call and then fails. -/
def splicingSession : List (Except SessionError Value) × Session :=
  (Session.new ⟨1, 0⟩).evalAll
    ["let q = quote(unquote(0 - 9223372036854775807 - 1)(unquote(1 == 1)))", "z"]

theorem syntax_readsBack_splicedCall :
    (∃ w, splicingSession.2.machine.Reaches (.scope splicingSession.2.scope) (.value w) ∧
      w.syntax? = some splicedCall) ∧ splicedCall.ReadsBack := by
  have hvalue : (splicingSession.2.machine.lookup splicingSession.2.scope "q").bind
      Value.syntax? = some splicedCall := by
    decide +kernel
  obtain ⟨w, hlookup, hw⟩ := Option.bind_eq_some_iff.mp hvalue
  have hreach := Machine.reaches_of_lookup hlookup
  exact ⟨⟨w, hreach, hw⟩, syntax_readsBack ⟨1, 0⟩ _ (.inl rfl) hreach hw⟩

end Session

end Monkey
