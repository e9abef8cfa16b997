import Monkey.Proofs.Quoting

/-!
# Stages

Expressions of integers, truth values and names that stand for such, with parts of them unquoted.
Quoting one evaluates the unquoted parts and leaves the rest for later. What is left has the value,
or the error, of the whole expression with its marks removed. The quoting itself fails where an
unquoted part does, and the first one that fails decides on the error.
-/

namespace Monkey

theorem exists_ok_of_bind {ε α β : Type} {x : Except ε α} {f : α → Except ε β} {b : β}
    (h : x >>= f = .ok b) : ∃ a, x = .ok a ∧ f a = .ok b := by
  cases x with
  | ok a => exact ⟨a, rfl, h⟩
  | error e => cases h

/-! ## Integers and truth values -/

inductive Value.IsLiteral : Value → Prop
  | integer (n : Int64) : IsLiteral (.integer n)
  | boolean (b : Bool) : IsLiteral (.boolean b)

theorem Value.IsLiteral.exists_toSyntax {v : Value} (h : v.IsLiteral) :
    ∃ e, v.toSyntax = .ok e := by
  cases h with
  | integer n => exact ⟨_, rfl⟩
  | boolean b => exact ⟨_, rfl⟩

/-- The operator on two values that are not both strings. -/
def BinaryOp.onLiterals (op : BinaryOp) : Value → Value → Except EvalError Value
  | .integer a, .integer b => op.onIntegers a b
  | a, b => op.onValues a b

theorem BinaryOp.apply_literals (op : BinaryOp) {a b : Value} (ha : a.IsLiteral)
    (hb : b.IsLiteral) : op.apply a b = Eval.ofExcept (op.onLiterals a b) := by
  cases ha <;> cases hb <;> rfl

theorem UnaryOp.isLiteral_of_apply {op : UnaryOp} {a v : Value} (h : op.apply a = .ok v) :
    v.IsLiteral := by
  unfold UnaryOp.apply at h
  split at h
  · cases h
    exact .boolean _
  · split at h
    · cases h
      exact .integer _
    · cases h
  · cases h

theorem isLiteral_of_exactly {a b : Int64} {op : BinaryOp} {n : Option Int64} {v : Value}
    (h : exactly a op b n = .ok v) : v.IsLiteral := by
  cases n with
  | none => cases h
  | some n =>
    cases h
    exact .integer n

theorem BinaryOp.isLiteral_of_onIntegers {op : BinaryOp} {a b : Int64} {v : Value}
    (h : op.onIntegers a b = .ok v) : v.IsLiteral := by
  cases op with
  | plus | minus | asterisk => exact isLiteral_of_exactly h
  | slash =>
    change (if b = 0 then _ else _) = _ at h
    split at h
    · cases h
    · exact isLiteral_of_exactly h
  | less | greater | equal | notEqual =>
    cases h
    exact .boolean _

theorem BinaryOp.isLiteral_of_onValues {op : BinaryOp} {a b v : Value}
    (h : op.onValues a b = .ok v) : v.IsLiteral := by
  cases op with
  | equal | notEqual =>
    cases h
    exact .boolean _
  | _ => cases h

theorem BinaryOp.isLiteral_of_onLiterals {op : BinaryOp} {a b v : Value}
    (h : op.onLiterals a b = .ok v) : v.IsLiteral := by
  unfold BinaryOp.onLiterals at h
  split at h
  · exact isLiteral_of_onIntegers h
  · exact isLiteral_of_onValues h

/-! ## Expressions in two stages -/

/-- Expressions of integers and truth values, where some parts are unquoted. -/
inductive Staged where
  | integer (n : Int64)
  | boolean (b : Bool)
  | name (n : String)
  | unary (op : UnaryOp) (right : Staged)
  | binary (left : Staged) (op : BinaryOp) (right : Staged)
  | unquoted (argument : Staged)

namespace Staged

def toExpr : Staged → Expr
  | integer n => .integer n
  | boolean b => .boolean b
  | name n => .identifier n
  | unary op right => .unary op right.toExpr
  | binary left op right => .binary left.toExpr op right.toExpr
  | unquoted argument => .call (.identifier "unquote") [argument.toExpr]

/-- The expression with the argument in place of each call of `unquote`. -/
def stripped : Staged → Expr
  | integer n => .integer n
  | boolean b => .boolean b
  | name n => .identifier n
  | unary op right => .unary op right.stripped
  | binary left op right => .binary left.stripped op right.stripped
  | unquoted argument => argument.stripped

/-- The arguments of `unquote`, from left to right, and what is inside before what is around it. -/
def arguments : Staged → List Staged
  | integer _ | boolean _ | name _ => []
  | unary _ right => right.arguments
  | binary left _ right => left.arguments ++ right.arguments
  | unquoted argument => argument.arguments ++ [argument]

/-- All names stand for integers or truth values. -/
def Bound (look : String → Option Value) : Staged → Prop
  | integer _ | boolean _ => True
  | name n => ∃ v, look n = some v ∧ v.IsLiteral
  | unary _ right => right.Bound look
  | binary left _ right => left.Bound look ∧ right.Bound look
  | unquoted argument => argument.Bound look

/-! ## What they come to -/

section

variable (look : String → Option Value)

/-- The value if all is evaluated at once. -/
def value : Staged → Except EvalError Value
  | integer n => .ok (.integer n)
  | boolean b => .ok (.boolean b)
  | name n => (look n).elim (.error (.undefinedName n)) .ok
  | unary op right => right.value >>= op.apply
  | binary left op right => left.value >>= fun a => right.value >>= fun b => op.onLiterals a b
  | unquoted argument => argument.value

/-- What is left when the unquoted parts are evaluated. -/
def residue : Staged → Except EvalError Expr
  | integer n => .ok (.integer n)
  | boolean b => .ok (.boolean b)
  | name n => .ok (.identifier n)
  | unary op right => return .unary op (← right.residue)
  | binary left op right => return .binary (← left.residue) op (← right.residue)
  -- What is inside the argument is replaced first. That can fail, but the value stays the same.
  | unquoted argument => do
    let _ ← argument.residue
    (← argument.value look).toSyntax

end

end Staged

/-! ## A call of `unquote` -/

theorem unquoter_expr_unquote (eval : Expr → Eval Value) (argument : Expr) :
    (unquoter eval).expr (.call (.identifier "unquote") [argument]) = (do
      let argument ← (unquoter eval).expr argument
      let v ← eval argument
      Eval.ofExcept v.toSyntax) := by
  have hcallee : (unquoter eval).expr (.identifier "unquote") = pure (.identifier "unquote") := rfl
  have harguments : (unquoter eval).exprs [argument] =
      (do return [← (unquoter eval).expr argument]) := by
    simp [Rewriter.exprs]
  have hcall : ∀ e, (unquoter eval).expression (.call (.identifier "unquote") [e]) = (do
      let v ← eval e
      Eval.ofExcept v.toSyntax) := fun _ => rfl
  rw [Rewriter.expr, hcallee, pure_bind, harguments, bind_assoc]
  simp only [pure_bind, hcall]

/-! ## Evaluations that leave the machine alone -/

/-- On every machine where names stand for this, the evaluation comes to the result and changes
nothing. -/
def Eval.Settles {α : Type} (look : String → Option Value) (env : ScopeId) (x : Eval α)
    (r : Except EvalError α) : Prop :=
  ∀ m : Machine, m.lookup env = look → x m = Eval.ofExcept r m

section

variable {look : String → Option Value} {env : ScopeId}

theorem Eval.settles_ofExcept {α : Type} (r : Except EvalError α) :
    (Eval.ofExcept r).Settles look env r :=
  fun _ _ => rfl

theorem Eval.Settles.bind {α β : Type} {x : Eval α} {r : Except EvalError α} {f : α → Eval β}
    {s : α → Except EvalError β} (hx : x.Settles look env r)
    (hf : ∀ a, r = .ok a → (f a).Settles look env (s a)) :
    (x >>= f).Settles look env (r >>= s) := by
  intro m hm
  change EStateM.bind x f m = _
  unfold EStateM.bind
  rw [hx m hm]
  cases r with
  | ok a => exact hf a rfl m hm
  | error e => rfl

variable (limit : Nat) (levels : Levels)

theorem Expr.settles_unary (op : UnaryOp) {e : Expr} {r : Except EvalError Value}
    (h : (e.evalWith .idle limit levels env).Settles look env r) :
    ((Expr.unary op e).evalWith .idle limit levels env).Settles look env (r >>= op.apply) := by
  rw [Expr.evalWith_unary]
  exact h.bind fun v _ => Eval.settles_ofExcept (op.apply v)

theorem Expr.settles_binary (op : BinaryOp) {e e' : Expr} {r r' : Except EvalError Value}
    (h : (e.evalWith .idle limit levels env).Settles look env r)
    (h' : (e'.evalWith .idle limit levels env).Settles look env r')
    (hr : ∀ v, r = .ok v → v.IsLiteral) (hr' : ∀ v, r' = .ok v → v.IsLiteral) :
    ((Expr.binary e op e').evalWith .idle limit levels env).Settles look env
      (r >>= fun a => r' >>= fun b => op.onLiterals a b) := by
  rw [Expr.evalWith_binary]
  refine h.bind fun a ha => h'.bind fun b hb => ?_
  rw [op.apply_literals (hr a ha) (hr' b hb)]
  exact Eval.settles_ofExcept _

theorem Integer.eq_minValue_of_neg? {n : Int64} (h : Integer.neg? n = none) :
    n = Int64.minValue := by
  have hmin : Int64.minValue.toInt = -9223372036854775808 := by decide
  have hlower := Integer.least_le n
  have hupper := Integer.le_greatest n
  rw [← Int64.toInt_inj]
  unfold Integer.neg? Integer.ofInt? at h
  unfold Integer.least Integer.greatest at *
  split at h
  · cases h
  · omega

theorem integerSyntax_settles (n : Int64) :
    ((integerSyntax n).evalWith .idle limit levels env).Settles look env (.ok (.integer n)) := by
  unfold integerSyntax
  split
  · exact fun _ _ => rfl
  · split
    · rename_i r hr
      have hback : Integer.neg? r = some n := by
        rw [Integer.neg?, Integer.ofInt?_eq_some_iff] at hr ⊢
        omega
      have hvalue : UnaryOp.minus.apply (.integer r) = .ok (.integer n) := by
        simp only [UnaryOp.apply, hback]
      rw [← hvalue]
      exact Expr.settles_unary limit levels .minus (r := .ok (.integer r)) fun _ _ => rfl
    -- The least integer is one less than the negation of the greatest.
    · rename_i hnone
      rw [Integer.eq_minValue_of_neg? hnone]
      exact fun _ _ => rfl

theorem Value.IsLiteral.settles {v : Value} (h : v.IsLiteral) {e : Expr} (he : v.toSyntax = .ok e) :
    (e.evalWith .idle limit levels env).Settles look env (.ok v) := by
  cases h with
  | integer n =>
    cases he
    exact integerSyntax_settles limit levels n
  | boolean b =>
    cases he
    exact fun _ _ => rfl

end

namespace Staged

/-! ## Evaluation at once -/

section

variable {look : String → Option Value} {env : ScopeId} {e : Staged}

theorem isLiteral_of_value (h : e.Bound look) {v : Value} (hv : e.value look = .ok v) :
    v.IsLiteral := by
  induction e generalizing v with
  | integer n =>
    cases hv
    exact .integer n
  | boolean b =>
    cases hv
    exact .boolean b
  | name n =>
    obtain ⟨w, hw, hliteral⟩ := h
    rw [value, hw] at hv
    cases hv
    exact hliteral
  | unary op right _ =>
    obtain ⟨a, -, hv⟩ := exists_ok_of_bind hv
    exact UnaryOp.isLiteral_of_apply hv
  | binary left op right _ _ =>
    obtain ⟨a, -, hv⟩ := exists_ok_of_bind hv
    obtain ⟨b, -, hv⟩ := exists_ok_of_bind hv
    exact BinaryOp.isLiteral_of_onLiterals hv
  | unquoted argument ih => exact ih h hv

variable (limit : Nat) (levels : Levels)

theorem name_settles {n : String} {v : Value} (h : look n = some v) :
    ((Expr.identifier n).evalWith .idle limit levels env).Settles look env (.ok v) := by
  intro m hm
  have hlookup : m.lookup env n = some v := by rw [hm, h]
  have hget : ∀ f : Machine → Eval Value, (get >>= f) m = f m m := fun _ => rfl
  rw [Expr.evalWith_identifier, Eval.resolve, hget, hlookup]
  rfl

theorem stripped_settles (h : e.Bound look) :
    (e.stripped.evalWith .idle limit levels env).Settles look env (e.value look) := by
  induction e with
  | integer n => exact fun _ _ => rfl
  | boolean b => exact fun _ _ => rfl
  | name n =>
    obtain ⟨v, hv, -⟩ := h
    rw [value, hv]
    exact name_settles limit levels hv
  | unary op right ih => exact Expr.settles_unary limit levels op (ih h)
  | binary left op right ihl ihr =>
    exact Expr.settles_binary limit levels op (ihl h.1) (ihr h.2)
      (fun _ => isLiteral_of_value h.1) (fun _ => isLiteral_of_value h.2)
  | unquoted argument ih => exact ih h

/-! ## Evaluation in two stages -/

theorem residue_settles (h : e.Bound look) {e' : Expr} (he : e.residue look = .ok e') :
    (e'.evalWith .idle limit levels env).Settles look env (e.value look) := by
  induction e generalizing e' with
  | integer n | boolean b =>
    cases he
    exact fun _ _ => rfl
  | name n =>
    cases he
    exact stripped_settles limit levels h
  | unary op right ih =>
    obtain ⟨right', hright, he⟩ := exists_ok_of_bind he
    cases he
    exact Expr.settles_unary limit levels op (ih h hright)
  | binary left op right ihl ihr =>
    obtain ⟨left', hleft, he⟩ := exists_ok_of_bind he
    obtain ⟨right', hright, he⟩ := exists_ok_of_bind he
    cases he
    exact Expr.settles_binary limit levels op (ihl h.1 hleft) (ihr h.2 hright)
      (fun _ => isLiteral_of_value h.1) (fun _ => isLiteral_of_value h.2)
  | unquoted argument _ =>
    obtain ⟨-, -, he⟩ := exists_ok_of_bind he
    obtain ⟨v, hv, he⟩ := exists_ok_of_bind he
    -- The value of the argument stands there as a literal.
    rw [value, hv]
    exact (isLiteral_of_value h hv).settles limit levels he

theorem toExpr_settles (h : e.Bound look) :
    ((unquoter fun a => a.evalWith .idle limit levels env).expr e.toExpr).Settles look env
      (e.residue look) := by
  induction e with
  | integer n | boolean b | name n => exact fun _ _ => rfl
  | unary op right ih =>
    rw [toExpr, Rewriter.expr]
    exact (ih h).bind fun right' _ => Eval.settles_ofExcept (.ok _)
  | binary left op right ihl ihr =>
    rw [toExpr, Rewriter.expr]
    exact (ihl h.1).bind fun left' _ => (ihr h.2).bind fun right' _ => Eval.settles_ofExcept (.ok _)
  | unquoted argument ih =>
    rw [toExpr, unquoter_expr_unquote]
    refine (ih h).bind fun argument' hargument => ?_
    -- The argument is rewritten first, and then what is left of it is evaluated.
    have hsettles :
        (argument'.evalWith .idle limit levels env).Settles look env (argument.value look) :=
      residue_settles (e := argument) limit levels h hargument
    exact hsettles.bind fun v _ => Eval.settles_ofExcept _

end

/-! ## The first failure -/

section

variable {look : String → Option Value} {e : Staged}

/-- The error of a failure. -/
def failure? {α : Type} : Except EvalError α → Option EvalError
  | .ok _ => none
  | .error x => some x

theorem failure?_residue (h : e.Bound look) :
    failure? (e.residue look) = e.arguments.findSome? fun a => failure? (a.value look) := by
  induction e with
  | integer n | boolean b | name n => rfl
  | unary op right ih =>
    rw [arguments, ← ih h, residue]
    cases right.residue look <;> rfl
  | binary left op right ihl ihr =>
    rw [arguments, List.findSome?_append, ← ihl h.1, ← ihr h.2, residue]
    cases left.residue look <;> cases right.residue look <;> rfl
  | unquoted argument ih =>
    rw [arguments, List.findSome?_append, ← ih h, residue, List.findSome?_singleton]
    cases argument.residue look with
    | error x => rfl
    | ok argument' =>
      cases hvalue : argument.value look with
      | error x => rfl
      | ok v =>
        obtain ⟨e', he'⟩ := (isLiteral_of_value (e := argument) h hvalue).exists_toSyntax
        simp only [bind, Except.bind, he']
        rfl

theorem bound_of_mem_arguments (h : e.Bound look) {a : Staged} (ha : a ∈ e.arguments) :
    a.Bound look := by
  induction e with
  | integer n | boolean b | name n => cases ha
  | unary op right ih => exact ih h ha
  | binary left op right ihl ihr =>
    rcases List.mem_append.mp ha with ha | ha
    · exact ihl h.1 ha
    · exact ihr h.2 ha
  | unquoted argument ih =>
    rcases List.mem_append.mp ha with ha | ha
    · exact ih h ha
    · rw [List.mem_singleton.mp ha]
      exact h

end

/-! ## Quoting -/

section

variable {limits : Limits} {env : ScopeId} {m : Machine} {e : Staged}

theorem exists_eval_ok_iff (h : e.Bound (m.lookup env)) :
    (∃ v, e.stripped.eval limits env m = .ok v m) ↔ failure? (e.value (m.lookup env)) = none := by
  rw [Expr.eval, Expr.watched, stripped_settles limits.calls (levels .idle limits) h m rfl]
  cases e.value (m.lookup env) with
  | ok v => exact ⟨fun _ => rfl, fun _ => ⟨v, rfl⟩⟩
  | error x =>
    constructor
    · rintro ⟨v, hv⟩
      cases hv
    · intro hnone
      cases hnone

theorem eval_error_iff (h : e.Bound (m.lookup env)) {stop : Stop} :
    e.stripped.eval limits env m = .error stop m ↔
      (failure? (e.value (m.lookup env))).map .error = some stop := by
  rw [Expr.eval, Expr.watched, stripped_settles limits.calls (levels .idle limits) h m rfl]
  cases e.value (m.lookup env) with
  | ok v =>
    constructor
    · intro hrun
      cases hrun
    · intro hstop
      cases hstop
  | error x =>
    constructor
    · intro hrun
      cases hrun
      rfl
    · intro hstop
      cases hstop
      rfl

theorem failure?_residue_iff (h : e.Bound (m.lookup env)) {stop : Stop} :
    (failure? (e.residue (m.lookup env))).map .error = some stop ↔
      ∃ before a after, e.arguments = before ++ a :: after ∧
        (∀ b ∈ before, ∃ v, b.stripped.eval limits env m = .ok v m) ∧
        a.stripped.eval limits env m = .error stop m := by
  rw [failure?_residue h, Option.map_eq_some_iff]
  constructor
  · rintro ⟨x, hx, rfl⟩
    obtain ⟨before, a, after, hsplit, ha, hbefore⟩ := List.findSome?_eq_some_iff.mp hx
    have hbound : ∀ b ∈ before ++ a :: after, b.Bound (m.lookup env) := fun b hb =>
      bound_of_mem_arguments h (hsplit ▸ hb)
    refine ⟨before, a, after, hsplit, fun b hb => ?_, ?_⟩
    · exact (exists_eval_ok_iff (hbound b (List.mem_append_left _ hb))).mpr (hbefore b hb)
    · rw [eval_error_iff (hbound a (by simp)), ha]
      rfl
  · rintro ⟨before, a, after, hsplit, hbefore, ha⟩
    have hbound : ∀ b ∈ before ++ a :: after, b.Bound (m.lookup env) := fun b hb =>
      bound_of_mem_arguments h (hsplit ▸ hb)
    rw [eval_error_iff (hbound a (by simp)), Option.map_eq_some_iff] at ha
    obtain ⟨x, hx, rfl⟩ := ha
    refine ⟨x, List.findSome?_eq_some_iff.mpr ⟨before, a, after, hsplit, hx, fun b hb => ?_⟩, rfl⟩
    exact (exists_eval_ok_iff (hbound b (List.mem_append_left _ hb))).mp (hbefore b hb)

theorem quote_eval (h : e.Bound (m.lookup env)) :
    (Expr.call (.identifier "quote") [e.toExpr]).eval limits env m =
      match e.residue (m.lookup env) with
      | .ok node => .ok (.quote m.fresh node) { m with fresh := m.fresh + 1 }
      | .error x => .error (.error x) m := by
  obtain ⟨inner, hquote⟩ := Expr.eval_quote limits e.toExpr env
  rw [hquote]
  change EStateM.bind _ _ m = _
  unfold EStateM.bind
  rw [toExpr_settles limits.calls inner h m rfl]
  cases e.residue (m.lookup env) <;> rfl

/-- Quoting fails as its first unquoted part does, and else leaves an expression with the value of
the whole. -/
theorem quote_sound (limits : Limits) (env : ScopeId) (m : Machine) (e : Staged)
    (h : e.Bound (m.lookup env)) :
    (∀ stop m', (Expr.call (.identifier "quote") [e.toExpr]).eval limits env m = .error stop m' ↔
      m' = m ∧ ∃ before a after, e.arguments = before ++ a :: after ∧
        (∀ b ∈ before, ∃ v, b.stripped.eval limits env m = .ok v m) ∧
        a.stripped.eval limits env m = .error stop m) ∧
    ∀ v m', (Expr.call (.identifier "quote") [e.toExpr]).eval limits env m = .ok v m' →
      m' = { m with fresh := m.fresh + 1 } ∧ ∃ node, v = .quote m.fresh node ∧
        ∃ r, e.stripped.eval limits env m = Eval.ofExcept r m ∧
          ∀ later : Machine, later.lookup env = m.lookup env →
            node.eval limits env later = Eval.ofExcept r later := by
  rw [quote_eval h]
  constructor
  · intro stop m'
    rw [← failure?_residue_iff h]
    cases e.residue (m.lookup env) with
    | ok node =>
      constructor
      · intro hrun
        cases hrun
      · rintro ⟨-, hstop⟩
        cases hstop
    | error x =>
      constructor
      · intro hrun
        cases hrun
        exact ⟨rfl, rfl⟩
      · rintro ⟨rfl, hstop⟩
        cases hstop
        rfl
  · intro v m' hrun
    cases hnode : e.residue (m.lookup env) with
    | ok node =>
      rw [hnode] at hrun
      cases hrun
      refine ⟨rfl, node, rfl, e.value (m.lookup env), ?_, fun later hlater => ?_⟩
      · exact stripped_settles limits.calls (levels .idle limits) h m rfl
      · exact residue_settles limits.calls (levels .idle limits) h hnode later hlater
    | error x =>
      rw [hnode] at hrun
      cases hrun

/-- The least integer has a name here. -/
def leastNamed : Machine := ⟨#[⟨[("least", .integer Int64.minValue)], []⟩], 0, 0⟩

/-- `unquote(least) + unquote(1 - unquote(2))` -/
def belowLeast : Staged :=
  binary (unquoted (name "least")) .plus
    (unquoted (binary (integer 1) .minus (unquoted (integer 2))))

/-- `belowLeast` once its unquoted parts are evaluated. -/
def belowLeastSum : Expr :=
  .binary (.binary (.unary .minus (.integer Int64.maxValue)) .minus (.integer 1)) .plus
    (.unary .minus (.integer 1))

theorem quote_sound_belowLeast :
    (Expr.call (.identifier "quote") [belowLeast.toExpr]).eval ⟨1, 0⟩ 0 leastNamed =
      .ok (.quote 0 belowLeastSum) { leastNamed with fresh := 1 } ∧
      belowLeastSum.eval ⟨1, 0⟩ 0 leastNamed =
        .error (.error (.integerOverflow Int64.minValue .plus (-1))) leastNamed := by
  have hbound : belowLeast.Bound (leastNamed.lookup 0) :=
    ⟨⟨_, rfl, .integer _⟩, trivial, trivial⟩
  have hrun : (Expr.call (.identifier "quote") [belowLeast.toExpr]).eval ⟨1, 0⟩ 0 leastNamed = _ :=
    quote_eval hbound
  obtain ⟨-, node, hnode, r, hstripped, hlater⟩ :=
    (quote_sound ⟨1, 0⟩ 0 leastNamed belowLeast hbound).2 _ _ hrun
  cases hnode
  exact ⟨hrun, (hlater leastNamed rfl).trans hstripped.symm⟩

end

end Staged

end Monkey
