import Monkey.Eval.Operator
import Monkey.Eval.Quote
import Monkey.Eval.Watch

/-!
# Evaluation

The evaluator recurses on the syntax tree. Two things are not part of the tree: the body of a
function that is called, and the argument of an `unquote` once syntax is spliced into it. What to do
with these is a parameter, `Levels`, and it is tied off in two steps. A call goes one level down,
and the limit on calls says how many levels there are. An `unquote` within an `unquote` goes one
level down as well, and how many of these there are within one call is a limit of its own.

The evaluator tells a watch what it does. To evaluate is to do so under a watch that never acts.
-/

namespace Monkey

/-- How to evaluate what is not part of the tree at hand. -/
structure Levels where
  /-- Runs the body of a function in its new scope. -/
  body : Block → ScopeId → Eval Value
  /-- Replaces the calls of `unquote` in an expression. -/
  quoted : Expr → ScopeId → Eval Expr

/-- Calls a value with arguments, at most `limit` calls deep. -/
def Value.call (limit : Nat) (levels : Levels) (callee : Value) (args : List Value) :
    Eval Value :=
  match callee with
  | .function _ parameters body scope => do
    if args.length ≠ parameters.length then
      Eval.fail (.wrongArgumentCount parameters.length args.length)
    else if limit ≤ (← get).depth then
      Eval.fail (.callDepthExceeded limit)
    else
      let inner ← Eval.enclose scope
      Eval.defineAll inner (parameters.zip args)
      let v ← Eval.deeper (levels.body body inner)
      return v.unwrapReturn
  | .builtin b => b.apply args
  | v => Eval.fail (.notCallable v.kind)

section

variable (watch : Watch) (limit : Nat) (levels : Levels)

mutual

def Expr.evalWith : Expr → ScopeId → Eval Value
  | .identifier name, env => do
    watch .begins
    Eval.resolve env name
  | .integer n, _ => do
    watch .begins
    return .integer n
  | .boolean b, _ => do
    watch .begins
    return .boolean b
  | .string text, _ => do
    watch .begins
    Eval.newString text
  | .array elements, env => do
    watch .begins
    let vs ← Expr.evalListWith elements env
    watch.usesAll .element vs
    Eval.newArray vs
  | .hash pairs, env => do
    watch .begins
    let entries ← Expr.evalPairsWith pairs [] env
    Eval.newHash entries
  | .unary op right, env => do
    watch .begins
    let v ← right.evalWith env
    watch (.uses .operand v)
    Eval.ofExcept (op.apply v)
  | .binary left op right, env => do
    watch .begins
    let a ← left.evalWith env
    let b ← right.evalWith env
    watch (.uses .operand a)
    watch (.uses .operand b)
    op.apply a b
  -- The branches run in the same scope; only a call opens a new one.
  | .conditional condition consequence alternative, env => do
    watch .begins
    let c ← condition.evalWith env
    watch (.uses .condition c)
    if c.truthy then Block.evalWith consequence .null env
    else Block.evalElseWith alternative env
  | .function parameters body, env => do
    watch .begins
    Eval.newFunction parameters body env
  -- The name `quote` is special in front of arguments, even where it is bound.
  | .call callee arguments, env => do
    watch .begins
    if callee.isName "quote" then
      match arguments with
      | [node] => do
        let node ← levels.quoted node env
        Eval.newQuote node
      | _ => Eval.fail (.quoteArity arguments.length)
    else do
      let f ← callee.evalWith env
      let args ← Expr.evalListWith arguments env
      watch (.uses .callee f)
      watch.usesAll .argument args
      f.call limit levels args
  | .index left index, env => do
    watch .begins
    let v ← left.evalWith env
    let i ← index.evalWith env
    watch (.uses .indexed v)
    watch (.uses .index i)
    Eval.ofExcept (indexInto v i)

def Expr.evalListWith : List Expr → ScopeId → Eval (List Value)
  | [], _ => pure []
  | e :: es, env => do
    let v ← e.evalWith env
    let vs ← Expr.evalListWith es env
    return v :: vs

/-- Adds the pairs to the entries, so a later pair wins. A key is checked before its value is
evaluated. -/
def Expr.evalPairsWith :
    List (Expr × Expr) → List (Key × Value) → ScopeId → Eval (List (Key × Value))
  | [], entries, _ => pure entries
  | (key, value) :: pairs, entries, env => do
    let k ← key.evalWith env
    watch (.uses .key k)
    match k.key? with
    | none => Eval.fail (.unusableHashKey k.kind)
    | some k => do
      let v ← value.evalWith env
      watch (.uses .entry v)
      Expr.evalPairsWith pairs (Entries.insert k v entries) env

def Stmt.evalWith : Stmt → ScopeId → Eval Value
  | .bind name value, env => do
    let v ← value.evalWith env
    watch (.uses .binding v)
    Eval.define env name v
    return v
  | .ret value, env => do
    let v ← value.evalWith env
    watch (.uses .result v)
    return .returned v
  | .expr value, env => value.evalWith env

/-- The value of the last statement, or of the first that returns. It is `result` if there is no
statement. -/
def Block.evalWith : List Stmt → Value → ScopeId → Eval Value
  | [], result, _ => do
    watch .begins
    return result
  | s :: ss, _, env => do
    watch .begins
    let v ← s.evalWith env
    if v.isReturned then return v else Block.evalWith ss v env

def Block.evalElseWith : Option (List Stmt) → ScopeId → Eval Value
  | none, _ => pure .null
  | some b, env => Block.evalWith b .null env

end

end

/-! ## Tying the levels -/

/-- How deep an evaluation may go. -/
structure Limits where
  /-- How many calls may be going on at a time. -/
  calls : Nat
  /-- How many arguments of `unquote` may be evaluated within another one, by the same call. None
  has to be as long as no quoted expression contains an `unquote`. -/
  splices : Nat

section

variable (watch : Watch)

/-- Replaces the calls of `unquote`, `n` levels of them, where `body` runs functions. -/
def quotedAt (limit : Nat) (body : Block → ScopeId → Eval Value) :
    Nat → Expr → ScopeId → Eval Expr
  | 0, node, _ => (unquoter fun _ => throw .exhausted).expr node
  | n + 1, node, env =>
    (unquoter fun e => do
      let v ← e.evalWith watch limit ⟨body, quotedAt limit body n⟩ env
      watch (.uses .unquoted v)
      return v).expr node

/-- Runs the body of a function, with `n` levels of calls below it. -/
def bodyAt (limits : Limits) : Nat → Block → ScopeId → Eval Value
  | 0, _, _ => throw .exhausted
  | n + 1, b, env =>
    Block.evalWith watch limits.calls
      ⟨bodyAt limits n, quotedAt watch limits.calls (bodyAt limits n) (limits.splices + 1)⟩
      b .null env

/-- The levels where so many levels of calls and of `unquote` are left. -/
def levelsAt (limits : Limits) (calls splices : Nat) : Levels :=
  ⟨bodyAt watch limits calls, quotedAt watch limits.calls (bodyAt watch limits calls) splices⟩

/-- All the levels that the limits allow. -/
def levels (limits : Limits) : Levels :=
  levelsAt watch limits limits.calls (limits.splices + 1)

end

/-! ## Entry points -/

section

variable (watch : Watch) (limits : Limits)

def Expr.watched (e : Expr) (env : ScopeId) : Eval Value :=
  e.evalWith watch limits.calls (levels watch limits) env

def Stmt.watched (s : Stmt) (env : ScopeId) : Eval Value :=
  s.evalWith watch limits.calls (levels watch limits) env

/-- A `return` in the block stays marked. -/
def Block.watched (b : Block) (env : ScopeId) : Eval Value :=
  Block.evalWith watch limits.calls (levels watch limits) b .null env

/-- A `return` at the top ends the program. -/
def Program.watched (p : Program) (env : ScopeId) : Eval Value := do
  let v ← Block.watched watch limits p.statements env
  return v.unwrapReturn

def Value.applyWatched (callee : Value) (args : List Value) : Eval Value := do
  watch (.uses .callee callee)
  watch.usesAll .argument args
  callee.call limits.calls (levels watch limits) args

end

section

variable (limits : Limits)

def Expr.eval (e : Expr) (env : ScopeId) : Eval Value := e.watched .idle limits env

def Stmt.eval (s : Stmt) (env : ScopeId) : Eval Value := s.watched .idle limits env

def Block.eval (b : Block) (env : ScopeId) : Eval Value := Block.watched .idle limits b env

def Program.eval (p : Program) (env : ScopeId) : Eval Value := p.watched .idle limits env

def Value.apply (callee : Value) (args : List Value) : Eval Value :=
  callee.applyWatched .idle limits args

end

end Monkey
