import Monkey.Syntax.Basic

/-!
# Where a `return` may stand

A `return` is in statement position if it stands directly in a program or in the body of a function,
or in a branch of a conditional that is a whole statement in such a place. Everywhere else a value
is wanted, and a `return` there would not get out of its call.
-/

namespace Monkey

mutual

/-- Every `return` in the expression is in statement position, where `whole` says whether the
expression is itself a whole statement in such a place. -/
def Expr.Confined (whole : Bool) : Expr → Prop
  | .identifier _ | .integer _ | .boolean _ | .string _ => True
  | .array elements => Expr.ListConfined elements
  | .hash pairs => Expr.PairsConfined pairs
  | .unary _ right => right.Confined false
  | .binary left _ right => left.Confined false ∧ right.Confined false
  | .conditional condition consequence alternative =>
    condition.Confined false ∧ Stmt.ListConfined whole consequence ∧
      Stmt.ElseConfined whole alternative
  | .function _ body => Stmt.ListConfined true body
  | .call callee arguments => callee.Confined false ∧ Expr.ListConfined arguments
  | .index left index => left.Confined false ∧ index.Confined false

def Expr.ListConfined : List Expr → Prop
  | [] => True
  | e :: es => e.Confined false ∧ Expr.ListConfined es

def Expr.PairsConfined : List (Expr × Expr) → Prop
  | [] => True
  | (key, value) :: pairs =>
    (key.Confined false ∧ value.Confined false) ∧ Expr.PairsConfined pairs

/-- A `return` may be here only if this is statement position. -/
def Stmt.Confined (here : Bool) : Stmt → Prop
  | .bind _ value => value.Confined false
  | .ret value => here = true ∧ value.Confined false
  | .expr value => value.Confined here

def Stmt.ListConfined (here : Bool) : List Stmt → Prop
  | [] => True
  | s :: ss => s.Confined here ∧ Stmt.ListConfined here ss

def Stmt.ElseConfined (here : Bool) : Option (List Stmt) → Prop
  | none => True
  | some block => Stmt.ListConfined here block

end

def Program.Confined (p : Program) : Prop := Stmt.ListConfined true p.statements

/-! ## Statement position allows more -/

mutual

theorem Expr.Confined.whole : ∀ {e : Expr}, e.Confined false → ∀ here, e.Confined here
  | .identifier _, _, _ | .integer _, _, _ | .boolean _, _, _ | .string _, _, _ => trivial
  | .array _, h, _ | .hash _, h, _ | .unary _ _, h, _ | .binary _ _ _, h, _
  | .function _ _, h, _ | .call _ _, h, _ | .index _ _, h, _ => h
  | .conditional _ _ _, h, here =>
    ⟨h.1, Stmt.ListConfined.whole h.2.1 here, Stmt.ElseConfined.whole h.2.2 here⟩

theorem Stmt.Confined.whole : ∀ {s : Stmt}, s.Confined false → ∀ here, s.Confined here
  | .bind _ _, h, _ => h
  | .ret _, h, _ => absurd h.1 (by decide)
  | .expr _, h, here => Expr.Confined.whole h here

theorem Stmt.ListConfined.whole :
    ∀ {ss : List Stmt}, Stmt.ListConfined false ss → ∀ here, Stmt.ListConfined here ss
  | [], _, _ => trivial
  | _ :: _, h, here => ⟨Stmt.Confined.whole h.1 here, Stmt.ListConfined.whole h.2 here⟩

theorem Stmt.ElseConfined.whole :
    ∀ {o : Option (List Stmt)}, Stmt.ElseConfined false o → ∀ here, Stmt.ElseConfined here o
  | none, _, _ => trivial
  | some _, h, here => Stmt.ListConfined.whole h here

end

end Monkey
