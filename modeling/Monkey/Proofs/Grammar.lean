import Monkey.Proofs.Lexing
import Monkey.Syntax.Parser

/-!
# The grammar

A grammar over terminals, which are tokens without their places. It says which trees a sequence of
terminals stands for, and knows nothing of precedences, lookahead or recovery: the levels of the
operators are rules of their own. `Accepts` is the grammar of whole inputs.
-/

namespace Monkey

namespace Grammar

/-! ## Levels of expressions -/

/-- The kinds of expression, from those that bind loosest to those that bind tightest. -/
inductive Level where
  | equality
  | comparison
  | sum
  | product
  | unary
  | postfixed
  | primary
deriving DecidableEq

namespace Level

/-- The level whose expressions stand between the operators of a level. -/
def next? : Level → Option Level
  | equality => some comparison
  | comparison => some sum
  | sum => some product
  | product => some unary
  | unary => some postfixed
  | postfixed => some primary
  | primary => none

/-- The binary operators of a level. -/
def operators : Level → List BinaryOp
  | equality => [.equal, .notEqual]
  | comparison => [.less, .greater]
  | sum => [.plus, .minus]
  | product => [.asterisk, .slash]
  | unary | postfixed | primary => []

end Level

def unaryKind : UnaryOp → TokenKind
  | .bang => .bang
  | .minus => .minus

def binaryKind : BinaryOp → TokenKind
  | .plus => .plus
  | .minus => .minus
  | .asterisk => .asterisk
  | .slash => .slash
  | .less => .less
  | .greater => .greater
  | .equal => .equal
  | .notEqual => .notEqual

def booleanKind : Bool → TokenKind
  | true => .trueWord
  | false => .falseWord

/-- A token that would carry an expression on, were it not the start of the next statement. -/
def continues : TokenKind → Bool
  | .leftParen | .leftBracket | .minus => true
  | _ => false

/-! ## The rules -/

/-- Names divided by commas. -/
inductive Names : List Terminal → List String → Prop
  | one {t : Terminal} (ht : t.kind = .identifier) : Names [t] [t.literal]
  | more {t c : Terminal} {ts : List Terminal} {ns : List String} (ht : t.kind = .identifier)
      (hc : c.kind = .comma) (rest : Names ts ns) : Names (t :: c :: ts) (t.literal :: ns)

inductive Parameters : List Terminal → List String → Prop
  | none : Parameters [] []
  | some {ts : List Terminal} {ns : List String} (names : Names ts ns) : Parameters ts ns

mutual

inductive Expression : Level → List Terminal → Expr → Prop
  | tighter {l m : Level} {ts : List Terminal} {e : Expr} (hm : l.next? = some m)
      (inner : Expression m ts e) : Expression l ts e
  -- To the left, so the operand on the right is of the next level.
  | binary {l m : Level} {op : BinaryOp} {ts us : List Terminal} {t : Terminal} {a b : Expr}
      (hop : op ∈ l.operators) (hm : l.next? = some m) (left : Expression l ts a)
      (ht : t.kind = binaryKind op) (right : Expression m us b) :
      Expression l (ts ++ t :: us) (.binary a op b)
  | unary {op : UnaryOp} {t : Terminal} {ts : List Terminal} {e : Expr}
      (ht : t.kind = unaryKind op) (right : Expression .unary ts e) :
      Expression .unary (t :: ts) (.unary op e)
  | call {t u : Terminal} {ts us : List Terminal} {f : Expr} {args : List Expr}
      (callee : Expression .postfixed ts f) (ht : t.kind = .leftParen) (list : Items us args)
      (hu : u.kind = .rightParen) : Expression .postfixed (ts ++ t :: (us ++ [u])) (.call f args)
  | index {t u : Terminal} {ts us : List Terminal} {a i : Expr}
      (left : Expression .postfixed ts a) (ht : t.kind = .leftBracket)
      (inner : Expression .equality us i) (hu : u.kind = .rightBracket) :
      Expression .postfixed (ts ++ t :: (us ++ [u])) (.index a i)
  | identifier {t : Terminal} (ht : t.kind = .identifier) :
      Expression .primary [t] (.identifier t.literal)
  | integer {t : Terminal} (ht : t.kind = .integer)
      (hv : Integer.valueOfDigits t.literal.toList ≤ 9223372036854775807) :
      Expression .primary [t] (.integer (.ofNat (Integer.valueOfDigits t.literal.toList)))
  | string {t : Terminal} (ht : t.kind = .string) : Expression .primary [t] (.string t.literal)
  | boolean {t : Terminal} (b : Bool) (ht : t.kind = booleanKind b) :
      Expression .primary [t] (.boolean b)
  -- Parentheses leave no node behind.
  | group {t u : Terminal} {ts : List Terminal} {e : Expr} (ht : t.kind = .leftParen)
      (inner : Expression .equality ts e) (hu : u.kind = .rightParen) :
      Expression .primary (t :: (ts ++ [u])) e
  | ifOnly {k t u : Terminal} {ts us : List Terminal} {c : Expr} {ss : List Stmt}
      (hk : k.kind = .ifWord) (ht : t.kind = .leftParen) (condition : Expression .equality ts c)
      (hu : u.kind = .rightParen) (block : Block us ss) :
      Expression .primary (k :: t :: (ts ++ u :: us)) (.conditional c ss none)
  | ifElse {k t u w : Terminal} {ts us vs : List Terminal} {c : Expr} {ss zs : List Stmt}
      (hk : k.kind = .ifWord) (ht : t.kind = .leftParen) (condition : Expression .equality ts c)
      (hu : u.kind = .rightParen) (block : Block us ss) (hw : w.kind = .elseWord)
      (alternative : Block vs zs) :
      Expression .primary (k :: t :: (ts ++ u :: (us ++ w :: vs)))
        (.conditional c ss (some zs))
  | function {k t u : Terminal} {ts us : List Terminal} {ps : List String} {ss : List Stmt}
      (hk : k.kind = .functionWord) (ht : t.kind = .leftParen) (parameters : Parameters ts ps)
      (hu : u.kind = .rightParen) (body : Block us ss) :
      Expression .primary (k :: t :: (ts ++ u :: us)) (.function ps ss)
  | array {t u : Terminal} {ts : List Terminal} {es : List Expr} (ht : t.kind = .leftBracket)
      (list : Items ts es) (hu : u.kind = .rightBracket) :
      Expression .primary (t :: (ts ++ [u])) (.array es)
  | hash {t u : Terminal} {ts : List Terminal} {ps : List (Expr × Expr)}
      (ht : t.kind = .leftBrace) (list : Pairs ts ps) (hu : u.kind = .rightBrace) :
      Expression .primary (t :: (ts ++ [u])) (.hash ps)

/-- Expressions divided by commas, perhaps none. -/
inductive Items : List Terminal → List Expr → Prop
  | none : Items [] []
  | some {ts : List Terminal} {es : List Expr} (items : SomeItems ts es) : Items ts es

inductive SomeItems : List Terminal → List Expr → Prop
  | one {ts : List Terminal} {e : Expr} (first : Expression .equality ts e) : SomeItems ts [e]
  | more {c : Terminal} {ts us : List Terminal} {e : Expr} {es : List Expr}
      (first : Expression .equality ts e) (hc : c.kind = .comma) (rest : SomeItems us es) :
      SomeItems (ts ++ c :: us) (e :: es)

/-- The pairs of a hash. Only here may a comma stand behind the last one. -/
inductive Pairs : List Terminal → List (Expr × Expr) → Prop
  | none : Pairs [] []
  | last {c : Terminal} {ts us : List Terminal} {k v : Expr} (key : Expression .equality ts k)
      (hc : c.kind = .colon) (value : Expression .equality us v) :
      Pairs (ts ++ c :: us) [(k, v)]
  | more {c d : Terminal} {ts us vs : List Terminal} {k v : Expr} {ps : List (Expr × Expr)}
      (key : Expression .equality ts k) (hc : c.kind = .colon) (value : Expression .equality us v)
      (hd : d.kind = .comma) (rest : Pairs vs ps) :
      Pairs (ts ++ c :: (us ++ d :: vs)) ((k, v) :: ps)

/-- Statements between braces, where the end of the input also counts as a closing brace. -/
inductive Block : List Terminal → List Stmt → Prop
  | braces {t u : Terminal} {ts : List Terminal} {ss : List Stmt} (ht : t.kind = .leftBrace)
      (list : Statements ts ss) (hu : u.kind = .rightBrace ∨ u.kind = .eof) :
      Block (t :: (ts ++ [u])) ss

/-- A statement ends with a semicolon, or else the next token does not carry it on. -/
inductive Statements : List Terminal → List Stmt → Prop
  | nil : Statements [] []
  | ended {t : Terminal} {ts us : List Terminal} {s : Stmt} {ss : List Stmt}
      (first : Statement ts s) (ht : t.kind = .semicolon) (rest : Statements us ss) :
      Statements (ts ++ t :: us) (s :: ss)
  | unended {ts us : List Terminal} {s : Stmt} {ss : List Stmt} (first : Statement ts s)
      (hu : ∀ u ∈ us.head?, ¬ continues u.kind) (rest : Statements us ss) :
      Statements (ts ++ us) (s :: ss)

inductive Statement : List Terminal → Stmt → Prop
  | bind {k n t : Terminal} {ts : List Terminal} {e : Expr} (hk : k.kind = .letWord)
      (hn : n.kind = .identifier) (ht : t.kind = .assign) (value : Expression .equality ts e) :
      Statement (k :: n :: t :: ts) (.bind n.literal e)
  | ret {k : Terminal} {ts : List Terminal} {e : Expr} (hk : k.kind = .returnWord)
      (value : Expression .equality ts e) : Statement (k :: ts) (.ret e)
  | expr {ts : List Terminal} {e : Expr} (value : Expression .equality ts e) :
      Statement ts (.expr e)

end

/-- Statements up to the end of the input. -/
inductive Whole : List Terminal → Program → Prop
  | statements {u : Terminal} {ts : List Terminal} {ss : List Stmt} (list : Statements ts ss)
      (hu : u.kind = .eof) : Whole (ts ++ [u]) ⟨ss⟩

/-- The terminals, with enough ends of the input behind them, stand for the program. -/
def Accepts (ts : List Terminal) (p : Program) : Prop :=
  ∃ n, Whole (ts ++ List.replicate n .endOfInput) p

/-! ## Levels by number -/

namespace Level

/-- The place of a level, on the scale on which precedences are ranked. -/
def rank : Level → Nat
  | equality => 1
  | comparison => 2
  | sum => 3
  | product => 4
  | unary => 5
  | postfixed => 6
  | primary => 7

theorem rank_next? {l m : Level} (h : l.next? = some m) : m.rank = l.rank + 1 := by
  cases l <;> cases h <;> rfl

theorem rank_injective {l m : Level} (h : l.rank = m.rank) : l = m := by
  cases l <;> cases m <;> first | rfl | cases h

theorem exists_next? {l : Level} (h : l.rank < 7) : ∃ m, l.next? = some m := by
  cases l <;> first | exact ⟨_, rfl⟩ | exact absurd h (by decide)

theorem rank_le_of_mem_operators {l : Level} {op : BinaryOp} (h : op ∈ l.operators) :
    l.rank ≤ 4 := by
  cases l <;> first | decide | cases h

end Level

theorem Expression.looser {l m : Level} {ts : List Terminal} {e : Expr} (h : Expression m ts e)
    (hle : l.rank ≤ m.rank) : Expression l ts e := by
  obtain ⟨d, hd⟩ : ∃ d, d + l.rank = m.rank := ⟨m.rank - l.rank, by omega⟩
  -- The induction is on the number of levels in between.
  induction d generalizing l with
  | zero =>
    obtain rfl : l = m := Level.rank_injective (by omega)
    exact h
  | succ d ih =>
    have hm : m.rank ≤ 7 := by cases m <;> decide
    obtain ⟨k, hk⟩ := Level.exists_next? (by omega : l.rank < 7)
    have hr := Level.rank_next? hk
    exact .tighter hk (ih (by omega) (by omega))

/-! ## Operators and precedences -/

theorem ofKind?_binaryKind (op : BinaryOp) : BinaryOp.ofKind? (binaryKind op) = some op := by
  cases op <;> rfl

theorem eq_binaryKind {k : TokenKind} {op : BinaryOp} (h : BinaryOp.ofKind? k = some op) :
    k = binaryKind op := by
  cases k <;> cases h <;> rfl

theorem rank_binaryKind {l : Level} {op : BinaryOp} (h : op ∈ l.operators) :
    (binaryKind op).precedence.rank = l.rank := by
  cases l <;> simp [Level.operators] at h <;> rcases h with rfl | rfl <;> rfl

theorem exists_level (op : BinaryOp) : ∃ l : Level, op ∈ l.operators := by
  cases op
  case equal | notEqual => exact ⟨.equality, by decide⟩
  case less | greater => exact ⟨.comparison, by decide⟩
  case plus | minus => exact ⟨.sum, by decide⟩
  case asterisk | slash => exact ⟨.product, by decide⟩

theorem rank_precedence_le (k : TokenKind) : k.precedence.rank ≤ 6 := by
  cases k <;> decide

theorem postfix_of_ofKind?_eq_none {k : TokenKind} (h : BinaryOp.ofKind? k = none)
    (hk : 0 < k.precedence.rank) : k = .leftParen ∨ k = .leftBracket := by
  cases k <;> simp [BinaryOp.ofKind?, TokenKind.precedence, Precedence.rank] at h hk ⊢

theorem not_continues_of_rank {k : TokenKind} (h : k.precedence.rank ≤ 0) : ¬ continues k := by
  cases k <;> simp [continues, TokenKind.precedence, Precedence.rank] at h ⊢

end Grammar

end Monkey
