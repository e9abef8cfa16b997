import Monkey.Eval.Basic
import Monkey.Syntax.Rewrite

/-!
# Quoting

`quote` gives an expression as it is, but for the calls of `unquote` in it: each is replaced by
the syntax of its argument's value. The replacement is bottom up, so what an argument contains is
replaced before the argument is evaluated.
-/

namespace Monkey

/-- Whether the expression is just that name. -/
def Expr.isName (name : String) : Expr → Bool
  | .identifier n => n = name
  | _ => false

/-- An integer literal is never negative, so a negative value is a negation, and the least integer
is one less than the negation of the greatest. -/
def integerSyntax (n : Int64) : Expr :=
  if 0 ≤ n.toInt then .integer n
  else
    match Integer.neg? n with
    | some r => .unary .minus (.integer r)
    | none => .binary (.unary .minus (.integer Int64.maxValue)) .minus (.integer 1)

/-- The syntax that evaluates to the value. -/
def Value.toSyntax : Value → Except EvalError Expr
  | .integer n => .ok (integerSyntax n)
  | .boolean b => .ok (.boolean b)
  | .quote _ node => .ok node
  | v => .error (.unquote v.kind)

/-- The argument of a call of `unquote` with one argument. -/
def Expr.unquoted? : Expr → Option Expr
  | .call callee [argument] => if callee.isName "unquote" then some argument else none
  | _ => none

/-- Replaces calls of `unquote`, where `eval` gives the values of their arguments. -/
def unquoter (eval : Expr → Eval Value) : Rewriter Eval where
  expression e :=
    match e.unquoted? with
    | some argument => do
      let v ← eval argument
      Eval.ofExcept v.toSyntax
    | none => pure e
  statement := pure
  block := pure
  identifier := pure

end Monkey
