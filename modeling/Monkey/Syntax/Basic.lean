/-!
# Syntax trees

Statements and expressions. Parentheses leave no node behind: the shape of a tree is its grouping.
-/

namespace Monkey

inductive UnaryOp where
  | bang
  | minus
deriving DecidableEq

inductive BinaryOp where
  | plus
  | minus
  | asterisk
  | slash
  | less
  | greater
  | equal
  | notEqual
deriving DecidableEq

def UnaryOp.symbol : UnaryOp → String
  | bang => "!"
  | minus => "-"

def BinaryOp.symbol : BinaryOp → String
  | plus => "+"
  | minus => "-"
  | asterisk => "*"
  | slash => "/"
  | less => "<"
  | greater => ">"
  | equal => "=="
  | notEqual => "!="

mutual

inductive Expr where
  | identifier (name : String)
  | integer (value : Int64)
  | boolean (value : Bool)
  | string (text : String)
  | array (elements : List Expr)
  | hash (pairs : List (Expr × Expr))
  | unary (op : UnaryOp) (right : Expr)
  | binary (left : Expr) (op : BinaryOp) (right : Expr)
  | conditional (condition : Expr) (consequence : List Stmt) (alternative : Option (List Stmt))
  | function (parameters : List String) (body : List Stmt)
  | call (callee : Expr) (arguments : List Expr)
  | index (left : Expr) (index : Expr)

inductive Stmt where
  /-- A `let`, which binds a name. -/
  | bind (name : String) (value : Expr)
  /-- A `return`. -/
  | ret (value : Expr)
  | expr (value : Expr)

end

/-- The statements between two braces. -/
abbrev Block := List Stmt

/-- The statements of one source text. -/
structure Program where
  statements : List Stmt

instance : Inhabited Expr := ⟨.boolean false⟩
instance : Inhabited Stmt := ⟨.expr default⟩

end Monkey
