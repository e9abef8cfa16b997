import Monkey.Syntax.Basic

/-! # Equality of syntax trees is decidable -/

namespace Monkey

mutual

def Expr.beq : Expr → Expr → Bool
  | .identifier a, .identifier b => a == b
  | .integer a, .integer b => a == b
  | .boolean a, .boolean b => a == b
  | .string a, .string b => a == b
  | .array a, .array b => Expr.beqList a b
  | .hash a, .hash b => Expr.beqPairs a b
  | .unary o a, .unary p b => o == p && a.beq b
  | .binary a o b, .binary c p d => a.beq c && o == p && b.beq d
  | .conditional a b c, .conditional d e f => a.beq d && Block.beq b e && Block.beqOption c f
  | .function a b, .function c d => a == c && Block.beq b d
  | .call a b, .call c d => a.beq c && Expr.beqList b d
  | .index a b, .index c d => a.beq c && b.beq d
  | _, _ => false

def Expr.beqList : List Expr → List Expr → Bool
  | [], [] => true
  | a :: as, b :: bs => a.beq b && Expr.beqList as bs
  | _, _ => false

def Expr.beqPairs : List (Expr × Expr) → List (Expr × Expr) → Bool
  | [], [] => true
  | (a, b) :: as, (c, d) :: bs => a.beq c && b.beq d && Expr.beqPairs as bs
  | _, _ => false

def Stmt.beq : Stmt → Stmt → Bool
  | .bind a b, .bind c d => a == c && b.beq d
  | .ret a, .ret b => a.beq b
  | .expr a, .expr b => a.beq b
  | _, _ => false

def Block.beq : List Stmt → List Stmt → Bool
  | [], [] => true
  | a :: as, b :: bs => a.beq b && Block.beq as bs
  | _, _ => false

def Block.beqOption : Option (List Stmt) → Option (List Stmt) → Bool
  | none, none => true
  | some a, some b => Block.beq a b
  | _, _ => false

end

mutual

theorem Expr.beq_iff : ∀ a b : Expr, a.beq b = true ↔ a = b
  | .identifier _, b | .integer _, b | .boolean _, b | .string _, b => by
    cases b <;> simp [Expr.beq]
  | .array as, b => by
    cases b <;> simp [Expr.beq, Expr.beqList_iff as]
  | .hash as, b => by
    cases b <;> simp [Expr.beq, Expr.beqPairs_iff as]
  | .unary _ a, b => by
    cases b <;> simp [Expr.beq, Expr.beq_iff a]
  | .binary a _ c, b => by
    cases b <;> simp [Expr.beq, Expr.beq_iff a, Expr.beq_iff c, and_assoc]
  | .conditional a c d, b => by
    cases b <;> simp [Expr.beq, Expr.beq_iff a, Block.beq_iff c, Block.beqOption_iff d, and_assoc]
  | .function _ c, b => by
    cases b <;> simp [Expr.beq, Block.beq_iff c]
  | .call a as, b => by
    cases b <;> simp [Expr.beq, Expr.beq_iff a, Expr.beqList_iff as]
  | .index a c, b => by
    cases b <;> simp [Expr.beq, Expr.beq_iff a, Expr.beq_iff c]

theorem Expr.beqList_iff : ∀ as bs : List Expr, Expr.beqList as bs = true ↔ as = bs
  | [], bs => by cases bs <;> simp [Expr.beqList]
  | a :: as, bs => by cases bs <;> simp [Expr.beqList, Expr.beq_iff a, Expr.beqList_iff as]

theorem Expr.beqPairs_iff : ∀ as bs : List (Expr × Expr), Expr.beqPairs as bs = true ↔ as = bs
  | [], bs => by cases bs <;> simp [Expr.beqPairs]
  | _ :: _, [] => by simp [Expr.beqPairs]
  | (a, b) :: as, (_, _) :: _ => by
    simp [Expr.beqPairs, Expr.beq_iff a, Expr.beq_iff b, Expr.beqPairs_iff as]

theorem Stmt.beq_iff : ∀ a b : Stmt, a.beq b = true ↔ a = b
  | .bind _ a, b | .ret a, b | .expr a, b => by cases b <;> simp [Stmt.beq, Expr.beq_iff a]

theorem Block.beq_iff : ∀ as bs : List Stmt, Block.beq as bs = true ↔ as = bs
  | [], bs => by cases bs <;> simp [Block.beq]
  | a :: as, bs => by cases bs <;> simp [Block.beq, Stmt.beq_iff a, Block.beq_iff as]

theorem Block.beqOption_iff :
    ∀ as bs : Option (List Stmt), Block.beqOption as bs = true ↔ as = bs
  | none, bs => by cases bs <;> simp [Block.beqOption]
  | some as, bs => by cases bs <;> simp [Block.beqOption, Block.beq_iff as]

end

instance : DecidableEq Expr := fun a b => decidable_of_iff _ (Expr.beq_iff a b)

instance : DecidableEq Stmt := fun a b => decidable_of_iff _ (Stmt.beq_iff a b)

deriving instance DecidableEq for Program

end Monkey
