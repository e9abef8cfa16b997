import Monkey.Diagnostic
import Monkey.Integer
import Monkey.Json
import Monkey.Syntax.Basic

/-!
# Syntax trees and diagnostics as JSON

A node is an object that names its kind and holds its content. Reading takes the fields in any
order and passes over fields it does not know; a missing `else` branch may be left out. Everything
else is required, and no type is bent to fit another. Nodes, blocks, pairs, branches and functions
may be written as arrays of their parts; bindings, operators, calls and indexing may not.
-/

namespace Monkey

/-! ## Writing -/

/-- A tagged node. -/
def Json.node (kind : String) (content : Json) : Json :=
  .object [("node", .string kind), ("value", content)]

mutual

def Expr.toJson : Expr → Json
  | .identifier name => .node "identifier" (.string name)
  | .integer value => .node "integer" (.integer value.toInt)
  | .boolean value => .node "boolean" (.boolean value)
  | .string text => .node "string" (.string text)
  | .array elements => .node "array" (.array (Expr.listToJson elements))
  | .hash pairs => .node "hash" (.array (Expr.pairsToJson pairs))
  | .unary op right =>
    .node "prefix" (.object [("operator", .string op.symbol), ("right", right.toJson)])
  | .binary left op right =>
    .node "infix" (.object
      [("left", left.toJson), ("operator", .string op.symbol), ("right", right.toJson)])
  | .conditional condition consequence alternative =>
    .node "if" (.object
      [("condition", condition.toJson), ("consequence", Block.toJson consequence),
        ("alternative", Block.optionToJson alternative)])
  | .function parameters body =>
    .node "function" (.object
      [("parameters", .array (parameters.map .string)), ("body", Block.toJson body)])
  | .call callee arguments =>
    .node "call" (.object
      [("function", callee.toJson), ("arguments", .array (Expr.listToJson arguments))])
  | .index left index => .node "index" (.object [("left", left.toJson), ("index", index.toJson)])

def Expr.listToJson : List Expr → List Json
  | [] => []
  | e :: es => e.toJson :: Expr.listToJson es

def Expr.pairsToJson : List (Expr × Expr) → List Json
  | [] => []
  | (key, value) :: pairs =>
    .object [("key", key.toJson), ("value", value.toJson)] :: Expr.pairsToJson pairs

def Stmt.toJson : Stmt → Json
  | .bind name value =>
    .node "let" (.object [("name", .string name), ("value", value.toJson)])
  | .ret value => .node "return" value.toJson
  | .expr value => .node "expression" value.toJson

def Stmt.listToJson : List Stmt → List Json
  | [] => []
  | s :: ss => s.toJson :: Stmt.listToJson ss

def Block.toJson : List Stmt → Json
  | [] => .object [("statements", .array [])]
  | s :: ss => .object [("statements", .array (s.toJson :: Stmt.listToJson ss))]

def Block.optionToJson : Option (List Stmt) → Json
  | none => .null
  | some block => Block.toJson block

end

def Program.toJson (p : Program) : Json :=
  .object [("statements", .array (Stmt.listToJson p.statements))]

/-! ## Reading -/

def UnaryOp.ofSymbol? : String → Option UnaryOp
  | "!" => some bang
  | "-" => some minus
  | _ => none

def BinaryOp.ofSymbol? : String → Option BinaryOp
  | "+" => some plus
  | "-" => some minus
  | "*" => some asterisk
  | "/" => some slash
  | "<" => some less
  | ">" => some greater
  | "==" => some equal
  | "!=" => some notEqual
  | _ => none

/-- The kind and the content of a tagged node. It may be an array of the two, and then the kind is a
plain string. -/
def Json.node? (j : Json) : Option (String × j.Part) :=
  match j.items? with
  | some [tag, content] => do return (← tag.1.string?, content)
  | some _ => none
  | none => do
    let tag ← j.field? "node"
    let content ← j.field? "value"
    return (← tag.1.choice?, content)

/-- The parts of a branch: condition, consequence and, if it is there, alternative. -/
def Json.branch? (j : Json) : Option (j.Part × j.Part × Option j.Part) :=
  match j.record? ["condition", "consequence", "alternative"] with
  | some [c, t, e] => some (c, t, some e)
  | _ =>
    match j.items?, j.record? ["condition", "consequence"] with
    | none, some [c, t] => some (c, t, none)
    | _, _ => none

def namesOfJson? (j : Json) : Option (List String) := do
  (← j.items?).mapM fun item => item.1.string?

mutual

def Expr.ofJson? (j : Json) : Option Expr := do
  let (kind, content) ← j.node?
  let c := content.1
  have : sizeOf c < sizeOf j := content.2
  match kind with
  | "identifier" => return .identifier (← c.string?)
  | "integer" => return .integer (← Integer.ofInt? (← c.integer?))
  | "boolean" => return .boolean (← c.boolean?)
  | "string" => return .string (← c.string?)
  | "array" => return .array (← (← c.items?).mapM fun e =>
      have := e.2
      Expr.ofJson? e.1)
  | "hash" => return .hash (← (← c.items?).mapM fun p => do
      have := p.2
      let [key, value] ← p.1.record? ["key", "value"] | none
      have := key.2
      have := value.2
      return (← Expr.ofJson? key.1, ← Expr.ofJson? value.1))
  | "prefix" => do
    let [op, right] ← c.fields? ["operator", "right"] | none
    have := right.2
    return .unary (← UnaryOp.ofSymbol? (← op.1.choice?)) (← Expr.ofJson? right.1)
  | "infix" => do
    let [left, op, right] ← c.fields? ["left", "operator", "right"] | none
    have := left.2
    have := right.2
    return .binary (← Expr.ofJson? left.1) (← BinaryOp.ofSymbol? (← op.1.choice?))
      (← Expr.ofJson? right.1)
  | "if" => do
    let (condition, consequence, alternative) ← c.branch?
    have := condition.2
    have := consequence.2
    let condition ← Expr.ofJson? condition.1
    let consequence ← Block.ofJson? consequence.1
    match alternative with
    | none => return .conditional condition consequence none
    | some alternative =>
      have := alternative.2
      if alternative.1.isNull then return .conditional condition consequence none
      else return .conditional condition consequence (some (← Block.ofJson? alternative.1))
  | "function" => do
    let [parameters, body] ← c.record? ["parameters", "body"] | none
    have := body.2
    return .function (← namesOfJson? parameters.1) (← Block.ofJson? body.1)
  | "call" => do
    let [callee, arguments] ← c.fields? ["function", "arguments"] | none
    have := callee.2
    have := arguments.2
    let callee ← Expr.ofJson? callee.1
    return .call callee (← (← arguments.1.items?).mapM fun e =>
      have := e.2
      Expr.ofJson? e.1)
  | "index" => do
    let [left, index] ← c.fields? ["left", "index"] | none
    have := left.2
    have := index.2
    return .index (← Expr.ofJson? left.1) (← Expr.ofJson? index.1)
  | _ => none
termination_by sizeOf j
decreasing_by all_goals omega

def Stmt.ofJson? (j : Json) : Option Stmt := do
  let (kind, content) ← j.node?
  let c := content.1
  have : sizeOf c < sizeOf j := content.2
  match kind with
  | "let" => do
    let [name, value] ← c.fields? ["name", "value"] | none
    have := value.2
    return .bind (← name.1.string?) (← Expr.ofJson? value.1)
  | "return" => return .ret (← Expr.ofJson? c)
  | "expression" => return .expr (← Expr.ofJson? c)
  | _ => none
termination_by sizeOf j
decreasing_by all_goals omega

def Block.ofJson? (j : Json) : Option (List Stmt) := do
  let [statements] ← j.record? ["statements"] | none
  have := statements.2
  (← statements.1.items?).mapM fun s =>
    have := s.2
    Stmt.ofJson? s.1
termination_by sizeOf j
decreasing_by all_goals omega

end

def Program.ofJson? (j : Json) : Option Program := do
  return ⟨← Block.ofJson? j⟩

/-! ## Diagnostics -/

def Diagnostic.toJson (d : Diagnostic) : Json :=
  .object
    [("message", .string d.message),
      ("start_line", .integer d.span.first.line), ("start_col", .integer d.span.first.column),
      ("end_line", .integer d.span.last.line), ("end_col", .integer d.span.last.column)]

/-- A line or a column, which fits into 32 bits. -/
def Json.coordinate? (j : Json) : Option Nat := do
  let n ← j.integer?
  if 0 ≤ n ∧ n < 4294967296 then some n.toNat else none

def Diagnostic.ofJson? (j : Json) : Option Diagnostic := do
  let message ← (← j.field? "message").1.string?
  let startLine ← (← j.field? "start_line").1.coordinate?
  let startColumn ← (← j.field? "start_col").1.coordinate?
  let endLine ← (← j.field? "end_line").1.coordinate?
  let endColumn ← (← j.field? "end_col").1.coordinate?
  return ⟨message, ⟨startLine, startColumn⟩, ⟨endLine, endColumn⟩⟩

def Diagnostic.listToJson (ds : List Diagnostic) : Json := .array (ds.map toJson)

def Diagnostic.listOfJson? (j : Json) : Option (List Diagnostic) := do
  (← j.items?).mapM fun d => Diagnostic.ofJson? d.1

end Monkey
