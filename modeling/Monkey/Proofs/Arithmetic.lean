import Monkey.Proofs.Splitting

/-!
# Exact arithmetic

Expressions of integer literals, negation and the four operations. Each has an exact value, or none
if something in it is divided by zero. Running the text of such an expression gives that value if
every part of it has one that fits into 64 bits. Otherwise the first part that has none, in the
order of evaluation, decides on the error.
-/

namespace Monkey

/-! ## Expressions and their exact values -/

/-- The operators that make an integer of two. -/
inductive ArithmeticOp where
  | plus
  | minus
  | asterisk
  | slash
deriving DecidableEq

namespace ArithmeticOp

def toBinary : ArithmeticOp → BinaryOp
  | plus => .plus
  | minus => .minus
  | asterisk => .asterisk
  | slash => .slash

/-- The exact result, where a quotient is rounded toward zero. -/
def result? : ArithmeticOp → Int → Int → Option Int
  | plus, a, b => some (a + b)
  | minus, a, b => some (a - b)
  | asterisk, a, b => some (a * b)
  | slash, a, b => if b = 0 then none else some (a.tdiv b)

/-- The error of an operation without a result that fits. -/
def error (op : ArithmeticOp) (a b : Int64) : EvalError :=
  if op = slash ∧ b = 0 then .divisionByZero a else .integerOverflow a op.toBinary b

end ArithmeticOp

/-- Expressions of integers. Literals are not negative. -/
inductive Arithmetic where
  | literal (n : Int64) (nonneg : 0 ≤ n.toInt)
  | negation (operand : Arithmetic)
  | operation (left : Arithmetic) (op : ArithmeticOp) (right : Arithmetic)
deriving DecidableEq

namespace Arithmetic

def toExpr : Arithmetic → Expr
  | literal n _ => .integer n
  | negation e => .unary .minus e.toExpr
  | operation l op r => .binary l.toExpr op.toBinary r.toExpr

/-- The exact value, as large as it may be. -/
def value? : Arithmetic → Option Int
  | literal n _ => some n.toInt
  | negation e => e.value?.map (-·)
  | operation l op r => l.value?.bind fun a => r.value?.bind fun b => op.result? a b

/-- The expression and its parts, operands before what is made of them and left before right. -/
def postOrder : Arithmetic → List Arithmetic
  | literal n h => [literal n h]
  | negation e => e.postOrder ++ [negation e]
  | operation l op r => l.postOrder ++ r.postOrder ++ [operation l op r]

/-- There is an exact value, and it fits into 64 bits. -/
def Exact (e : Arithmetic) : Prop :=
  ∃ n, e.value? = some n ∧ Integer.least ≤ n ∧ n ≤ Integer.greatest

theorem isSome_iff_exact {e : Arithmetic} :
    (e.value?.bind Integer.ofInt?).isSome ↔ e.Exact := by
  rw [Option.isSome_bind, Option.any_eq_true]
  constructor
  · rintro ⟨n, hvalue, hn⟩
    obtain ⟨w, hw⟩ := Option.isSome_iff_exists.mp hn
    rw [Integer.ofInt?_eq_some_iff] at hw
    subst hw
    exact ⟨w.toInt, hvalue, Integer.least_le w, Integer.le_greatest w⟩
  · rintro ⟨n, hvalue, hfits⟩
    exact ⟨n, hvalue, by rw [Integer.ofInt?, if_pos hfits]; rfl⟩

instance (e : Arithmetic) : Decidable e.Exact := decidable_of_iff _ isSome_iff_exact

/-- The first part of an expression that has no exact value, or one that does not fit. -/
def offender? (e : Arithmetic) : Option Arithmetic := e.postOrder.find? fun s => ¬ s.Exact

/-- The error of an expression whose operands have exact values. A negation counts as a difference
from zero. -/
inductive Fault : Arithmetic → EvalError → Prop
  | negation {e : Arithmetic} {n : Int64} :
    e.value? = some n.toInt → Fault (negation e) (.integerOverflow 0 .minus n)
  | operation {l r : Arithmetic} {op : ArithmeticOp} {a b : Int64} :
    l.value? = some a.toInt → r.value? = some b.toInt → Fault (operation l op r) (op.error a b)

theorem Fault.unique {e : Arithmetic} {x y : EvalError} (hx : e.Fault x) (hy : e.Fault y) :
    x = y := by
  -- A part with an exact value has just one word for it, and the error is made of such words.
  have hword : ∀ {o : Option Int} {a b : Int64}, o = some a.toInt → o = some b.toInt → a = b :=
    fun ha hb => Int64.toInt_inj.mp (Option.some.inj (ha.symm.trans hb))
  cases hx with
  | negation hn =>
    cases hy with
    | negation hm => rw [hword hn hm]
  | operation ha hb =>
    cases hy with
    | operation hc hd => rw [hword ha hc, hword hb hd]

/-! ## One operation -/

theorem find?_concat (es : List Arithmetic) (e : Arithmetic) :
    (es ++ [e]).find? (fun s => ¬ s.Exact) =
      (es.find? fun s => ¬ s.Exact).or (if e.Exact then none else some e) := by
  rw [List.find?_append]
  by_cases h : e.Exact <;> simp [h]

theorem offender?_negation (e : Arithmetic) :
    (negation e).offender? =
      e.offender?.or (if (negation e).Exact then none else some (negation e)) :=
  find?_concat _ _

theorem offender?_operation (l r : Arithmetic) (op : ArithmeticOp) :
    (operation l op r).offender? = (l.offender?.or r.offender?).or
      (if (operation l op r).Exact then none else some (operation l op r)) := by
  rw [offender?, postOrder, find?_concat, List.find?_append]
  rfl

end Arithmetic

/-- An integer that fits, or else an error. -/
def integerOr (error : EvalError) : Option Int64 → Except EvalError Int64
  | some n => .ok n
  | none => .error error

theorem exactly_eq (a b : Int64) (op : BinaryOp) (n : Option Int64) :
    exactly a op b n = (integerOr (.integerOverflow a op b) n).map .integer := by
  cases n <;> rfl

theorem ArithmeticOp.onIntegers_eq (op : ArithmeticOp) (a b : Int64) :
    op.toBinary.onIntegers a b = (integerOr (op.error a b)
      ((op.result? a.toInt b.toInt).bind Integer.ofInt?)).map .integer := by
  cases op with
  | plus | minus | asterisk => exact exactly_eq _ _ _ _
  | slash =>
    -- A division by zero is not tried at all, so it has an error of its own.
    by_cases hb : b = 0
    · subst hb
      rfl
    · have hzero : b.toInt ≠ 0 := by rwa [← Int64.toInt_zero, ne_eq, Int64.toInt_inj]
      have hexact : slash.result? a.toInt b.toInt = some (a.toInt.tdiv b.toInt) := if_neg hzero
      have herror : slash.error a b = .integerOverflow a .slash b := if_neg (by simp [hb])
      have hdivide : slash.toBinary.onIntegers a b = exactly a .slash b (Integer.div? a b) :=
        if_neg hb
      rw [hexact, herror, hdivide, exactly_eq]
      rfl

theorem UnaryOp.minus_apply (n : Int64) :
    UnaryOp.minus.apply (.integer n) =
      (integerOr (.integerOverflow 0 .minus n) (Integer.ofInt? (-n.toInt))).map .integer := by
  have hneg : Integer.ofInt? (-n.toInt) = Integer.neg? n := rfl
  rw [hneg, UnaryOp.apply]
  cases Integer.neg? n <;> rfl

namespace Arithmetic

/-! ## Whole expressions -/

/-- What an evaluation comes to: a value if no part of the expression offends, and the error of the
first one that does otherwise. -/
inductive Settled (e : Arithmetic) : Except EvalError Int64 → Prop
  | value {n : Int64} : e.offender? = none → e.value? = some n.toInt → Settled e (.ok n)
  | fault {s : Arithmetic} {error : EvalError} :
    e.offender? = some s → s.Fault error → Settled e (.error error)

theorem settled_of_operands {e : Arithmetic} {error : EvalError}
    (hoffender : e.offender? = if e.Exact then none else some e) (hfault : e.Fault error) :
    e.Settled (integerOr error (e.value?.bind Integer.ofInt?)) := by
  have hexact := e.isSome_iff_exact
  cases hvalue : e.value?.bind Integer.ofInt? with
  | some w =>
    rw [hvalue] at hexact
    obtain ⟨n, hn, hfits⟩ := Option.bind_eq_some_iff.mp hvalue
    rw [Integer.ofInt?_eq_some_iff] at hfits
    subst hfits
    refine .value ?_ hn
    rw [hoffender, if_pos (hexact.mp rfl)]
  | none =>
    rw [hvalue] at hexact
    refine .fault ?_ hfault
    rw [hoffender, if_neg (by simpa using hexact)]

theorem evalWith_settled (limit : Nat) (levels : Levels) (env : ScopeId) (e : Arithmetic) :
    ∃ r, e.Settled r ∧
      e.toExpr.evalWith .idle limit levels env = Eval.ofExcept (r.map .integer) := by
  induction e with
  | literal n h =>
    refine ⟨.ok n, .value ?_ rfl, rfl⟩
    have hexact : (literal n h).Exact := ⟨n.toInt, rfl, Integer.least_le n, Integer.le_greatest n⟩
    simp [offender?, postOrder, hexact]
  | negation e ih =>
    obtain ⟨r, hr, heval⟩ := ih
    rw [toExpr, Expr.evalWith_unary, heval]
    cases hr with
    | value hnone hvalue =>
      refine ⟨_, settled_of_operands ?_ (.negation hvalue), ?_⟩
      · rw [offender?_negation, hnone, Option.none_or]
      · rw [value?, hvalue]
        exact congrArg Eval.ofExcept (UnaryOp.minus_apply _)
    | fault hsome hfault =>
      refine ⟨_, .fault ?_ hfault, rfl⟩
      rw [offender?_negation, hsome, Option.some_or]
  | operation l op r ihl ihr =>
    obtain ⟨x, hx, hleft⟩ := ihl
    obtain ⟨y, hy, hright⟩ := ihr
    rw [toExpr, Expr.evalWith_binary, hleft, hright]
    cases hx with
    | fault hsome hfault =>
      refine ⟨_, .fault ?_ hfault, rfl⟩
      rw [offender?_operation, hsome, Option.some_or, Option.some_or]
    | value hlnone hlvalue =>
      cases hy with
      | fault hsome hfault =>
        refine ⟨_, .fault ?_ hfault, rfl⟩
        rw [offender?_operation, hlnone, hsome, Option.none_or, Option.some_or]
      | value hrnone hrvalue =>
        refine ⟨_, settled_of_operands ?_ (.operation hlvalue hrvalue), ?_⟩
        · rw [offender?_operation, hlnone, hrnone, Option.none_or, Option.none_or]
        · rw [value?, hlvalue, hrvalue]
          exact congrArg Eval.ofExcept (op.onIntegers_eq _ _)

theorem toExpr_wellFormed (e : Arithmetic) : e.toExpr.WellFormed := by
  induction e with
  | literal n h => exact ⟨h, trivial⟩
  | negation e ih => exact ⟨trivial, ih⟩
  | operation l op r ihl ihr => exact ⟨trivial, ihl, ihr⟩

end Arithmetic

/-! ## Running the text -/

theorem Program.eval_expr (limits : Limits) (e : Expr) (env : ScopeId) :
    Program.eval limits ⟨[.expr e]⟩ env = (do
      let v ← e.eval limits env
      return v.unwrapReturn) := by
  unfold Program.eval Program.watched Block.watched Expr.eval Expr.watched
  simp [Block.evalWith_cons, Block.evalWith_nil, Stmt.evalWith]

theorem run_render {e : Expr} (h : e.WellFormed) :
    run e.render = ((Session.new ⟨defaultLimit, 0⟩).evalProgram ⟨[.expr e]⟩).1.mapError .eval := by
  have hprogram : Program.WellFormed ⟨[.expr e]⟩ := List.forall_mem_singleton.mpr ⟨trivial, h⟩
  have htext : Program.render ⟨[.expr e]⟩ = e.render := by
    simp [Program.render, Stmt.renderList, Stmt.render]
  rw [run, ← htext, Session.eval_render _ hprogram]

namespace Arithmetic

theorem run_settled (e : Arithmetic) :
    ∃ r, e.Settled r ∧
      run e.toExpr.render = (r.map Value.integer).mapError fun error => .eval (.error error) := by
  let s := Session.new ⟨defaultLimit, 0⟩
  obtain ⟨r, hr, heval⟩ := e.evalWith_settled s.limits.calls (levels .idle s.limits) s.scope
  refine ⟨r, hr, ?_⟩
  have hprogram : Program.eval s.limits ⟨[.expr e.toExpr]⟩ s.scope = (do
      let v ← Eval.ofExcept (r.map Value.integer)
      return v.unwrapReturn) := by
    rw [Program.eval_expr, Expr.eval, Expr.watched, heval]
  rw [run_render e.toExpr_wellFormed]
  cases r with
  | ok n =>
    have hrun : Program.eval s.limits ⟨[.expr e.toExpr]⟩ s.scope s.machine =
        .ok (.integer n) s.machine := by
      rw [hprogram]
      rfl
    rw [Session.evalProgram_of_ok hrun]
    rfl
  | error error =>
    have hrun : Program.eval s.limits ⟨[.expr e.toExpr]⟩ s.scope s.machine =
        .error (.error error) s.machine := by
      rw [hprogram]
      rfl
    rw [Session.evalProgram_of_error hrun]
    rfl

theorem offender?_eq_none_iff (e : Arithmetic) :
    e.offender? = none ↔ ∀ s ∈ e.postOrder, s.Exact := by
  simp [offender?]

/-- An expression gives its exact value if all parts fit into 64 bits, and else the first fault. -/
theorem run_exact (e : Arithmetic) :
    (∀ n : Int64, run e.toExpr.render = .ok (.integer n) ↔
      (∀ s ∈ e.postOrder, s.Exact) ∧ e.value? = some n.toInt) ∧
    ∀ s, e.offender? = some s →
      ∃ error, s.Fault error ∧ run e.toExpr.render = .error (.eval (.error error)) := by
  obtain ⟨r, hr, hrun⟩ := e.run_settled
  rw [← offender?_eq_none_iff, hrun]
  cases hr with
  | value hnone hvalue =>
    rename_i n
    refine ⟨fun m => ⟨fun h => ?_, fun h => ?_⟩, fun s hs => ?_⟩
    · cases h
      exact ⟨hnone, hvalue⟩
    · have hnm : n = m := Int64.toInt_inj.mp (Option.some.inj (hvalue.symm.trans h.2))
      rw [hnm]
      rfl
    · rw [hnone] at hs
      cases hs
  | fault hsome hfault =>
    refine ⟨fun m => ⟨fun h => ?_, fun h => ?_⟩, fun s hs => ?_⟩
    · cases h
    · rw [hsome] at h
      cases h.1
    · cases hsome.symm.trans hs
      exact ⟨_, hfault, rfl⟩

theorem toInt_zero_nonneg : 0 ≤ (0 : Int64).toInt := by decide

theorem toInt_one_nonneg : 0 ≤ (1 : Int64).toInt := by decide

theorem toInt_maxValue_nonneg : 0 ≤ Int64.maxValue.toInt := by decide

/-- The least integer divided by minus one, which is one more than the greatest integer. -/
def leastQuotient : Arithmetic :=
  operation
    (operation (negation (literal Int64.maxValue toInt_maxValue_nonneg)) .minus
      (literal 1 toInt_one_nonneg))
    .slash (negation (literal 1 toInt_one_nonneg))

/-- The product of `leastQuotient` and a quotient by zero. -/
def twoFaults : Arithmetic :=
  operation leastQuotient .asterisk
    (operation (literal 1 toInt_one_nonneg) .slash (literal 0 toInt_zero_nonneg))

/-- The overflow comes first, so the division by zero is not reached. -/
theorem run_exact_twoFaults :
    twoFaults.toExpr.render = "((((-9223372036854775807) - 1) / (-1)) * (1 / 0))" ∧
      twoFaults.offender? = some leastQuotient ∧
      run twoFaults.toExpr.render =
        .error (.eval (.error (.integerOverflow Int64.minValue .slash (-1)))) := by
  have hoffender : twoFaults.offender? = some leastQuotient := by decide +kernel
  obtain ⟨error, hfault, hrun⟩ := twoFaults.run_exact.2 leastQuotient hoffender
  have hoverflow : leastQuotient.Fault (ArithmeticOp.slash.error Int64.minValue (-1)) :=
    .operation (by decide) (by decide)
  have herror : ArithmeticOp.slash.error Int64.minValue (-1) =
      .integerOverflow Int64.minValue .slash (-1) := by decide
  rw [hfault.unique hoverflow, herror] at hrun
  exact ⟨by decide +kernel, hoffender, hrun⟩

end Arithmetic

end Monkey
