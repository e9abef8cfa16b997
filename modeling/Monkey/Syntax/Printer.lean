import Monkey.Integer
import Monkey.Syntax.Basic

/-!
# The canonical text of a syntax tree

Every operator is put in parentheses, blocks in braces, and statements are divided by a semicolon.
A string is written between quotes as it is.
-/

namespace Monkey

mutual

def Expr.render : Expr → String
  | .identifier name => name
  | .integer value => Integer.render value
  | .boolean value => if value then "true" else "false"
  | .string text => "\"" ++ text ++ "\""
  | .array elements => "[" ++ ", ".intercalate (Expr.renderList elements) ++ "]"
  | .hash pairs => "\x7b" ++ ", ".intercalate (Expr.renderPairs pairs) ++ "\x7d"
  | .unary op right => "(" ++ op.symbol ++ right.render ++ ")"
  | .binary left op right =>
    "(" ++ left.render ++ " " ++ op.symbol ++ " " ++ right.render ++ ")"
  | .conditional condition consequence alternative =>
    "if (" ++ condition.render ++ ") " ++ Block.render consequence ++ Block.renderElse alternative
  | .function parameters body =>
    "fn(" ++ ", ".intercalate parameters ++ ") " ++ Block.render body
  | .call callee arguments =>
    callee.render ++ "(" ++ ", ".intercalate (Expr.renderList arguments) ++ ")"
  | .index left index => "(" ++ left.render ++ "[" ++ index.render ++ "])"

def Expr.renderList : List Expr → List String
  | [] => []
  | e :: es => e.render :: Expr.renderList es

def Expr.renderPairs : List (Expr × Expr) → List String
  | [] => []
  | (key, value) :: pairs => (key.render ++ ": " ++ value.render) :: Expr.renderPairs pairs

def Stmt.render : Stmt → String
  | .bind name value => "let " ++ name ++ " = " ++ value.render
  | .ret value => "return " ++ value.render
  | .expr value => value.render

def Stmt.renderList : List Stmt → List String
  | [] => []
  | s :: ss => s.render :: Stmt.renderList ss

def Block.render : List Stmt → String
  | [] => "\x7b \x7d"
  | s :: ss => "\x7b " ++ "; ".intercalate (s.render :: Stmt.renderList ss) ++ " \x7d"

def Block.renderElse : Option (List Stmt) → String
  | none => ""
  | some block => " else " ++ Block.render block

end

def Program.render (p : Program) : String :=
  "; ".intercalate (Stmt.renderList p.statements)

theorem Expr.renderList_eq_map (es : List Expr) : Expr.renderList es = es.map Expr.render := by
  induction es with
  | nil => rfl
  | cons e es ih => simp [Expr.renderList, ih]

theorem Stmt.renderList_eq_map (ss : List Stmt) : Stmt.renderList ss = ss.map Stmt.render := by
  induction ss with
  | nil => rfl
  | cons s ss ih => simp [Stmt.renderList, ih]

end Monkey
