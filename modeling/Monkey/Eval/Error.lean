import Monkey.Value.Basic

/-! # Evaluation errors -/

namespace Monkey

/-- Why an evaluation has no value. -/
inductive EvalError where
  | invalidOperation (left : Kind) (op : BinaryOp) (right : Kind)
  | unknownOperator (op : UnaryOp) (operand : Kind)
  | undefinedName (name : String)
  | notCallable (callee : Kind)
  | wrongArgumentCount (want got : Nat)
  | indexNotSupported (left index : Kind)
  | unusableHashKey (key : Kind)
  | divisionByZero (dividend : Int64)
  | integerOverflow (left : Int64) (op : BinaryOp) (right : Int64)
  | builtinArity (b : Builtin) (got : Nat)
  | builtinArgument (b : Builtin) (got : Kind)
  | builtinFirstArgument (b : Builtin) (got : Kind)
  | quoteArity (got : Nat)
  /-- The value of an `unquote` has no syntax. -/
  | unquote (got : Kind)
  | callDepthExceeded (limit : Nat)
deriving DecidableEq

/-- How many arguments a builtin takes, in words. -/
def Builtin.arity : Builtin → String
  | push => "two args"
  | _ => "one arg"

def EvalError.message : EvalError → String
  | invalidOperation left op right =>
    "invalid operation: " ++ left.name ++ " " ++ op.symbol ++ " " ++ right.name
  | unknownOperator op operand => "unknown operator: " ++ op.symbol ++ operand.name
  | undefinedName name => "undefined name " ++ name
  | notCallable callee => "calling non-callable value: type " ++ callee.name
  | wrongArgumentCount want got =>
    "wrong number of arguments: want=" ++ toString want ++ ", got=" ++ toString got
  | indexNotSupported left index =>
    "index operator not supported: " ++ left.name ++ "[" ++ index.name ++ "]"
  | unusableHashKey key => "unusable as hash key: " ++ key.name
  | divisionByZero dividend => "division by zero: " ++ Integer.render dividend ++ " / 0"
  | integerOverflow left op right =>
    "integer overflow: " ++ Integer.render left ++ " " ++ op.symbol ++ " " ++ Integer.render right
  | builtinArity b got => b.name ++ "() takes " ++ b.arity ++ ", got " ++ toString got
  | builtinArgument b got => "argument to " ++ b.name ++ "() not supported, got " ++ got.name
  | builtinFirstArgument b got =>
    "first argument to " ++ b.name ++ "() not supported, got " ++ got.name
  | quoteArity got => "quote() takes one arg, got " ++ toString got
  | unquote got => "unquote() cannot convert " ++ got.name ++ " to syntax"
  | callDepthExceeded limit => "maximum call depth of " ++ toString limit ++ " exceeded"

/-- Why an evaluation stopped. -/
inductive Stop where
  | error (e : EvalError)
  /-- A bound on the recursion ran out. The evaluation may have no end. -/
  | exhausted
deriving DecidableEq

end Monkey
