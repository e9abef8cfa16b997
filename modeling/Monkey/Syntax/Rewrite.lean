import Monkey.Syntax.Basic

/-!
# Rewriting a syntax tree

A rewriter has one hook for each family of nodes. The walk is bottom up and left to right: a hook
gets a node whose children are already rewritten. Hooks run in a monad, so they may keep state and
may fail.
-/

namespace Monkey

structure Rewriter (m : Type → Type) where
  expression : Expr → m Expr
  statement : Stmt → m Stmt
  block : Block → m Block
  /-- Runs on every name: of a `let`, of a parameter, and of a reference. -/
  identifier : String → m String

namespace Rewriter

variable {m : Type → Type} [Monad m]

/-- The rewriter that changes nothing. -/
def keep : Rewriter m := ⟨pure, pure, pure, pure⟩

variable (w : Rewriter m)

def names : List String → m (List String)
  | [] => pure []
  | n :: ns => do
    let n ← w.identifier n
    return n :: (← names ns)

mutual

def expr : Expr → m Expr
  | .identifier name => do
    let name ← w.identifier name
    w.expression (.identifier name)
  | .integer value => w.expression (.integer value)
  | .boolean value => w.expression (.boolean value)
  | .string text => w.expression (.string text)
  | .array elements => do
    let elements ← exprs elements
    w.expression (.array elements)
  | .hash pairs => do
    let pairs ← exprPairs pairs
    w.expression (.hash pairs)
  | .unary op right => do
    let right ← expr right
    w.expression (.unary op right)
  | .binary left op right => do
    let left ← expr left
    let right ← expr right
    w.expression (.binary left op right)
  | .conditional condition consequence alternative => do
    let condition ← expr condition
    let consequence ← stmts consequence
    let consequence ← w.block consequence
    let alternative ← alternativeBlock alternative
    w.expression (.conditional condition consequence alternative)
  | .function parameters body => do
    let parameters ← w.names parameters
    let body ← stmts body
    let body ← w.block body
    w.expression (.function parameters body)
  | .call callee arguments => do
    let callee ← expr callee
    let arguments ← exprs arguments
    w.expression (.call callee arguments)
  | .index left index => do
    let left ← expr left
    let index ← expr index
    w.expression (.index left index)

def exprs : List Expr → m (List Expr)
  | [] => pure []
  | e :: es => do
    let e ← expr e
    return e :: (← exprs es)

def exprPairs : List (Expr × Expr) → m (List (Expr × Expr))
  | [] => pure []
  | (key, value) :: pairs => do
    let key ← expr key
    let value ← expr value
    return (key, value) :: (← exprPairs pairs)

def stmt : Stmt → m Stmt
  | .bind name value => do
    let name ← w.identifier name
    let value ← expr value
    w.statement (.bind name value)
  | .ret value => do
    let value ← expr value
    w.statement (.ret value)
  | .expr value => do
    let value ← expr value
    w.statement (.expr value)

def stmts : List Stmt → m (List Stmt)
  | [] => pure []
  | s :: ss => do
    let s ← stmt s
    return s :: (← stmts ss)

def alternativeBlock : Option (List Stmt) → m (Option (List Stmt))
  | none => pure none
  | some b => do
    let b ← stmts b
    return some (← w.block b)

end

/-- The statements of the block, then the block itself. -/
def blockOf (b : Block) : m Block := do
  let b ← w.stmts b
  w.block b

/-- The statements of the program. No hook runs on the program as a whole. -/
def program (p : Program) : m Program := do
  return ⟨← w.stmts p.statements⟩

end Rewriter

end Monkey
