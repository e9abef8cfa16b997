import Monkey.Syntax.Debug
import Monkey.Syntax.Printer
import Monkey.Value.Basic

/-!
# The text of a value

A value is shown to the user by `render`, strings without quotes, and spelled out by `debug`.
-/

namespace Monkey

mutual

def Value.render : Value → String
  | .integer n => Integer.render n
  | .boolean b => if b then "true" else "false"
  | .string _ text => text
  | .array _ elements => "[" ++ ", ".intercalate (Value.renderList elements) ++ "]"
  | .hash _ entries => "\x7b" ++ ", ".intercalate (Value.renderEntries entries) ++ "\x7d"
  | .null => "null"
  | .returned v => v.render
  | .function _ parameters body _ => (Expr.function parameters body).render
  | .builtin b => "builtin " ++ b.name
  | .quote _ node => "QUOTE(" ++ node.render ++ ")"

def Value.renderList : List Value → List String
  | [] => []
  | v :: vs => v.render :: Value.renderList vs

def Value.renderEntries : List (Key × Value) → List String
  | [] => []
  | (k, v) :: entries => (k.render ++ ": " ++ v.render) :: Value.renderEntries entries

end

def Key.debug : Key → String
  | .integer n => Debug.tuple "Integer" (Integer.render n)
  | .boolean b => Debug.tuple "Boolean" (Debug.boolean b)
  | .string text => Debug.tuple "String" (Debug.quoted text)

mutual

def Value.debug : Value → String
  | .integer n => Debug.tuple "Integer" (Integer.render n)
  | .boolean b => Debug.tuple "Boolean" (Debug.boolean b)
  | .string _ text => Debug.tuple "String" (Debug.quoted text)
  | .array _ elements => Debug.tuple "Array" (Debug.list (Value.debugList elements))
  | .hash _ entries =>
    Debug.tuple "Hash" ("\x7b" ++ ", ".intercalate (Value.debugEntries entries) ++ "\x7d")
  | .null => "Null"
  | .returned v => Debug.tuple "ReturnSignal" v.debug
  -- The captured scope may hold the function itself, so it is left out.
  | .function _ parameters body _ =>
    Debug.tuple "Function" ("Function \x7b literal: " ++ Debug.record "FunctionLiteral"
      [("parameters", Debug.list (parameters.map Debug.name)), ("body", Block.debug body)] ++
      ", .. \x7d")
  | .builtin b => Debug.tuple "Builtin" (Debug.tuple "Builtin" b.name)
  | .quote _ node => Debug.tuple "Quote" node.debug

def Value.debugList : List Value → List String
  | [] => []
  | v :: vs => v.debug :: Value.debugList vs

def Value.debugEntries : List (Key × Value) → List String
  | [] => []
  | (k, v) :: entries => (k.debug ++ ": " ++ v.debug) :: Value.debugEntries entries

end

end Monkey
