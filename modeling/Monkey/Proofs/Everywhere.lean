import Monkey.Syntax.Basic

/-!
# Properties of every node

A property of nodes holds everywhere in a tree if it holds of the tree itself and of every
expression and statement below it.
-/

namespace Monkey

/-- A property of single nodes. -/
structure NodeProperty where
  expr : Expr → Prop
  stmt : Stmt → Prop

section

variable (p : NodeProperty)

mutual

/-- The property holds at every node below an expression. -/
def Expr.Below : Expr → Prop
  | .identifier _ | .integer _ | .boolean _ | .string _ => True
  | .array elements => Expr.ListEverywhere elements
  | .hash pairs => Expr.PairsEverywhere pairs
  | .unary _ right => p.expr right ∧ right.Below
  | .binary left _ right => (p.expr left ∧ left.Below) ∧ p.expr right ∧ right.Below
  | .conditional condition consequence alternative =>
    (p.expr condition ∧ condition.Below) ∧ Stmt.ListEverywhere consequence ∧
      Stmt.ElseEverywhere alternative
  | .function _ body => Stmt.ListEverywhere body
  | .call callee arguments => (p.expr callee ∧ callee.Below) ∧ Expr.ListEverywhere arguments
  | .index left index => (p.expr left ∧ left.Below) ∧ p.expr index ∧ index.Below

def Expr.ListEverywhere : List Expr → Prop
  | [] => True
  | e :: es => (p.expr e ∧ e.Below) ∧ Expr.ListEverywhere es

def Expr.PairsEverywhere : List (Expr × Expr) → Prop
  | [] => True
  | (key, value) :: pairs =>
    ((p.expr key ∧ key.Below) ∧ p.expr value ∧ value.Below) ∧ Expr.PairsEverywhere pairs

def Stmt.Below : Stmt → Prop
  | .bind _ value => p.expr value ∧ value.Below
  | .ret value => p.expr value ∧ value.Below
  | .expr value => p.expr value ∧ value.Below

def Stmt.ListEverywhere : List Stmt → Prop
  | [] => True
  | s :: ss => (p.stmt s ∧ s.Below) ∧ Stmt.ListEverywhere ss

def Stmt.ElseEverywhere : Option (List Stmt) → Prop
  | none => True
  | some block => Stmt.ListEverywhere block

end

def Expr.Everywhere (e : Expr) : Prop := p.expr e ∧ e.Below p

def Stmt.Everywhere (s : Stmt) : Prop := p.stmt s ∧ s.Below p

end

variable {p : NodeProperty}

theorem Stmt.listEverywhere_iff {ss : List Stmt} :
    Stmt.ListEverywhere p ss ↔ ∀ s ∈ ss, s.Everywhere p := by
  induction ss with
  | nil => simp [Stmt.ListEverywhere]
  | cons s ss ih => simp [Stmt.ListEverywhere, Stmt.Everywhere, ih]

/-! ## Nodes with other children -/

/-- The two nodes differ at most in the nodes below them. -/
def Expr.Like : Expr → Expr → Prop
  | .identifier a, .identifier b => a = b
  | .integer a, .integer b => a = b
  | .boolean a, .boolean b => a = b
  | .string a, .string b => a = b
  | .unary op _, .unary op' _ => op = op'
  | .binary _ op _, .binary _ op' _ => op = op'
  | .function ps _, .function ps' _ => ps = ps'
  | .array _, .array _ | .hash _, .hash _ | .conditional _ _ _, .conditional _ _ _
  | .call _ _, .call _ _ | .index _ _, .index _ _ => True
  | _, _ => False

def Stmt.Like : Stmt → Stmt → Prop
  | .bind a _, .bind b _ => a = b
  | .ret _, .ret _ | .expr _, .expr _ => True
  | _, _ => False

/-- Whether a node has the property does not depend on the nodes below it. -/
structure NodeProperty.IsLocal (p : NodeProperty) : Prop where
  expr : ∀ e e', e.Like e' → p.expr e → p.expr e'
  stmt : ∀ s s', s.Like s' → p.stmt s → p.stmt s'

/-! ## The property of all nodes -/

/-- The property that every node has. -/
def NodeProperty.any : NodeProperty := ⟨fun _ => True, fun _ => True⟩

mutual

theorem Expr.below_any : ∀ e : Expr, e.Below .any
  | .identifier _ | .integer _ | .boolean _ | .string _ => trivial
  | .array es => Expr.listEverywhere_any es
  | .hash ps => Expr.pairsEverywhere_any ps
  | .unary _ right => ⟨trivial, right.below_any⟩
  | .binary left _ right => ⟨⟨trivial, left.below_any⟩, trivial, right.below_any⟩
  | .conditional c ss o =>
    ⟨⟨trivial, c.below_any⟩, Stmt.listEverywhere_any ss, Stmt.elseEverywhere_any o⟩
  | .function _ ss => Stmt.listEverywhere_any ss
  | .call callee args => ⟨⟨trivial, callee.below_any⟩, Expr.listEverywhere_any args⟩
  | .index left index => ⟨⟨trivial, left.below_any⟩, trivial, index.below_any⟩

theorem Expr.listEverywhere_any : ∀ es : List Expr, Expr.ListEverywhere .any es
  | [] => trivial
  | e :: es => ⟨⟨trivial, e.below_any⟩, Expr.listEverywhere_any es⟩

theorem Expr.pairsEverywhere_any : ∀ ps : List (Expr × Expr), Expr.PairsEverywhere .any ps
  | [] => trivial
  | (key, value) :: ps =>
    ⟨⟨⟨trivial, key.below_any⟩, trivial, value.below_any⟩, Expr.pairsEverywhere_any ps⟩

theorem Stmt.below_any : ∀ s : Stmt, s.Below .any
  | .bind _ value | .ret value | .expr value => ⟨trivial, value.below_any⟩

theorem Stmt.listEverywhere_any : ∀ ss : List Stmt, Stmt.ListEverywhere .any ss
  | [] => trivial
  | s :: ss => ⟨⟨trivial, s.below_any⟩, Stmt.listEverywhere_any ss⟩

theorem Stmt.elseEverywhere_any : ∀ o : Option (List Stmt), Stmt.ElseEverywhere .any o
  | none => trivial
  | some b => Stmt.listEverywhere_any b

end

theorem Expr.everywhere_any (e : Expr) : e.Everywhere .any := ⟨trivial, e.below_any⟩

theorem Stmt.everywhere_any (s : Stmt) : s.Everywhere .any := ⟨trivial, s.below_any⟩

end Monkey
