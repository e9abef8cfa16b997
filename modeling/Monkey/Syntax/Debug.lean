import Monkey.Integer
import Monkey.Syntax.Basic
import Monkey.Text.Extending
import Monkey.Text.Unprintable

/-!
# The structure of a syntax tree, spelled out

Each node is shown by the name of its kind and its parts, on one line.
-/

namespace Monkey.Debug

/-- The letter that stands for a character behind a backslash, if it needs one. -/
def escaped? : Char → Option Char
  | '"' => some '"'
  | '\\' => some '\\'
  | '\n' => some 'n'
  | '\r' => some 'r'
  | '\t' => some 't'
  | '\x00' => some '0'
  | _ => none

/-- Whether a character would not be seen where it stands: it has no shape, or it is drawn as
part of the one before it. -/
def hidden (c : Char) : Bool :=
  CharClass.extending.contains c || CharClass.unprintable.contains c

/-- A character by its code point, in hexadecimal digits. -/
def codePoint (c : Char) : List Char :=
  "\\u\x7b".toList ++ Nat.toDigits 16 c.toNat ++ ['\x7d']

/-- How a character is written inside quotes: behind a backslash, by its code point if it is
hidden, or as it is. -/
def escape (c : Char) : List Char :=
  match escaped? c with
  | some letter => ['\\', letter]
  | none => if hidden c then codePoint c else [c]

/-- A text between quotes, in which what cannot stand for itself is escaped. -/
def quoted (text : String) : String :=
  "\"" ++ String.ofList (text.toList.flatMap escape) ++ "\""

def list (items : List String) : String := "[" ++ ", ".intercalate items ++ "]"

/-- A kind with one unnamed part. -/
def tuple (kind part : String) : String := kind ++ "(" ++ part ++ ")"

/-- A kind with named parts. -/
def record (kind : String) (parts : List (String × String)) : String :=
  kind ++ " \x7b " ++ ", ".intercalate (parts.map fun p => p.1 ++ ": " ++ p.2) ++ " \x7d"

def boolean (b : Bool) : String := if b then "true" else "false"

def name (n : String) : String := record "Identifier" [("name", quoted n)]

end Debug

open Debug

def UnaryOp.debug : UnaryOp → String
  | bang => "Bang"
  | minus => "Minus"

def BinaryOp.debug : BinaryOp → String
  | plus => "Plus"
  | minus => "Minus"
  | asterisk => "Asterisk"
  | slash => "Slash"
  | less => "Lt"
  | greater => "Gt"
  | equal => "Eq"
  | notEqual => "NotEq"

mutual

def Expr.debug : Expr → String
  | .identifier n => tuple "Identifier" (name n)
  | .integer value => tuple "Integer" (Integer.render value)
  | .boolean value => tuple "Boolean" (boolean value)
  | .string text => tuple "String" (quoted text)
  | .array elements => tuple "Array" (list (Expr.debugList elements))
  | .hash pairs => tuple "Hash" (list (Expr.debugPairs pairs))
  | .unary op right => record "Prefix" [("operator", op.debug), ("right", right.debug)]
  | .binary left op right =>
    record "Infix" [("left", left.debug), ("operator", op.debug), ("right", right.debug)]
  | .conditional condition consequence alternative =>
    tuple "If" (record "IfExpression"
      [("condition", condition.debug), ("consequence", Block.debug consequence),
        ("alternative", Block.debugOption alternative)])
  | .function parameters body =>
    tuple "Function" (record "FunctionLiteral"
      [("parameters", list (parameters.map name)), ("body", Block.debug body)])
  | .call callee arguments =>
    record "Call" [("function", callee.debug), ("arguments", list (Expr.debugList arguments))]
  | .index left index => record "Index" [("left", left.debug), ("index", index.debug)]

def Expr.debugList : List Expr → List String
  | [] => []
  | e :: es => e.debug :: Expr.debugList es

def Expr.debugPairs : List (Expr × Expr) → List String
  | [] => []
  | (key, value) :: pairs =>
    record "HashPair" [("key", key.debug), ("value", value.debug)] :: Expr.debugPairs pairs

def Stmt.debug : Stmt → String
  | .bind n value => record "Let" [("name", name n), ("value", value.debug)]
  | .ret value => tuple "Return" value.debug
  | .expr value => tuple "Expression" value.debug

def Stmt.debugList : List Stmt → List String
  | [] => []
  | s :: ss => s.debug :: Stmt.debugList ss

def Block.debug : List Stmt → String
  | [] => record "BlockStatement" [("statements", list [])]
  | s :: ss => record "BlockStatement" [("statements", list (s.debug :: Stmt.debugList ss))]

def Block.debugOption : Option (List Stmt) → String
  | none => "None"
  | some block => tuple "Some" (Block.debug block)

end

end Monkey
