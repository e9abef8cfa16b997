import Monkey.Integer
import Monkey.Syntax.Basic
import Monkey.Syntax.Step
import Monkey.Token.Lexer

/-!
# From tokens to syntax trees

Operators bind by precedence and to the left. A statement that cannot be parsed is dropped with an
error, and parsing goes on behind the token where it gave up.
-/

namespace Monkey

/-! ## Precedence -/

/-- How tightly an operator binds, from the loosest to the tightest. -/
inductive Precedence where
  | lowest
  | equality
  | comparison
  | sum
  | product
  | unary
  | postfixed
deriving DecidableEq

def Precedence.rank : Precedence → Nat
  | lowest => 0
  | equality => 1
  | comparison => 2
  | sum => 3
  | product => 4
  | unary => 5
  | postfixed => 6

/-- The precedence of a token behind an operand. -/
def TokenKind.precedence : TokenKind → Precedence
  | equal | notEqual => .equality
  | less | greater => .comparison
  | plus | minus => .sum
  | asterisk | slash => .product
  | leftParen | leftBracket => .postfixed
  | _ => .lowest

def BinaryOp.ofKind? : TokenKind → Option BinaryOp
  | .plus => some plus
  | .minus => some minus
  | .asterisk => some asterisk
  | .slash => some slash
  | .less => some less
  | .greater => some greater
  | .equal => some equal
  | .notEqual => some notEqual
  | _ => none

/-! ## The parser -/

namespace Parser

def noOperand (kind : TokenKind) (span : Span) : Diagnostic :=
  ⟨"no prefix parse function for " ++ kind.name ++ " found", span⟩

def badInteger (literal : String) (span : Span) : Diagnostic :=
  ⟨"could not parse " ++ literal ++ " as integer", span⟩

/-- A statement may end with a semicolon. -/
def skipSemicolon : List Token → List Token
  | [] => []
  | t :: rest => if t.kind = .semicolon then rest else t :: rest

theorem skipSemicolon_length (ts : List Token) : (skipSemicolon ts).length ≤ ts.length := by
  unfold skipSemicolon
  split
  · simp
  · split <;> simp

/-- A whole statement, with the semicolon behind it. -/
def finish {n : Nat} (s : Stmt) (rest : List Token) (h : rest.length ≤ n := by grind) :
    Step (Option Stmt) n :=
  ⟨some s, skipSemicolon rest, [], Nat.le_trans (skipSemicolon_length rest) h⟩

variable (stop : Span)

/-- The parameters after the first one, up to the closing parenthesis. -/
def moreParameters (ts : List Token) : Step (Option (List String)) ts.length :=
  match ts with
  | [] => .fail (unexpected stop .rightParen []) []
  | t :: rest =>
    if t.kind = .comma then
      expect stop .identifier rest fun p rest _ =>
        (moreParameters rest).mapSome (p.literal :: ·)
    else expect stop .rightParen (t :: rest) fun _ rest _ => .done (some []) rest
termination_by ts.length
decreasing_by all_goals grind

/-- The parameters of a function, behind the opening parenthesis. -/
def parameters (ts : List Token) : Step (Option (List String)) ts.length :=
  if headKind ts = .rightParen then .done (some []) ts.tail
  else expect stop .identifier ts fun p rest _ =>
    (moreParameters stop rest).mapSome (p.literal :: ·)

mutual

/-- An expression whose operators all bind tighter than `p`. -/
def expression (p : Precedence) (ts : List Token) : Step (Option Expr) (ts.length - 1) :=
  (operand ts).andThen fun left rest _ =>
    (operators p left rest).widen
termination_by 4 * ts.length + 1
decreasing_by all_goals grind

/-- The operators behind `left` that bind tighter than `p`. -/
def operators (p : Precedence) (left : Expr) (ts : List Token) : Step (Option Expr) ts.length :=
  match ts with
  | [] => .done (some left) []
  | t :: rest =>
    if p.rank < t.kind.precedence.rank then
      match BinaryOp.ofKind? t.kind with
      | some op =>
        (expression t.kind.precedence rest).andThen fun right rest _ =>
          (operators p (.binary left op right) rest).widen
      | none =>
        if t.kind = .leftParen then
          (expressions .rightParen rest).andThen fun arguments rest _ =>
            (operators p (.call left arguments) rest).widen
        else
          (expression .lowest rest).andThen fun index rest _ =>
            expect stop .rightBracket rest fun _ rest _ =>
              (operators p (.index left index) rest).widen
    else .done (some left) (t :: rest)
termination_by 4 * ts.length
decreasing_by all_goals grind

/-- An expression without the operators behind it. -/
def operand (ts : List Token) : Step (Option Expr) (ts.length - 1) :=
  match ts with
  | [] => .fail (noOperand .eof stop) []
  | t :: rest =>
    match t.kind with
    | .identifier => .done (some (.identifier t.literal)) rest
    | .integer =>
      match Integer.ofDigits? t.literal.toList with
      | some n => .done (some (.integer n)) rest
      | none => .fail (badInteger t.literal t.span) rest
    | .string => .done (some (.string t.literal)) rest
    | .trueWord => .done (some (.boolean true)) rest
    | .falseWord => .done (some (.boolean false)) rest
    | .bang =>
      (expression .unary rest).mapSome (.unary .bang)
    | .minus =>
      (expression .unary rest).mapSome (.unary .minus)
    | .leftParen =>
      (expression .lowest rest).andThen fun e rest _ =>
        expect stop .rightParen rest fun _ rest _ =>
          .done (some e) rest
    | .ifWord =>
      expect stop .leftParen rest fun _ rest _ =>
        (expression .lowest rest).andThen fun condition rest _ =>
          expect stop .rightParen rest fun _ rest _ =>
            expect stop .leftBrace rest fun _ rest _ =>
              (block rest).next fun consequence rest _ =>
                if headKind rest = .elseWord then
                  expect stop .leftBrace rest.tail fun _ rest _ =>
                    (block rest).map fun alternative =>
                      some (.conditional condition consequence (some alternative))
                else .done (some (.conditional condition consequence none)) rest
    | .functionWord =>
      expect stop .leftParen rest fun _ rest _ =>
        (parameters stop rest).andThen fun ps rest _ =>
          expect stop .leftBrace rest fun _ rest _ =>
            (block rest).map fun body => some (.function ps body)
    | .leftBracket =>
      (expressions .rightBracket rest).mapSome .array
    | .leftBrace =>
      (pairs rest).mapSome .hash
    | kind => .fail (noOperand kind t.span) rest
termination_by 4 * ts.length
decreasing_by all_goals grind

/-- Expressions divided by commas, up to the closing token. -/
def expressions (closing : TokenKind) (ts : List Token) : Step (Option (List Expr)) ts.length :=
  if headKind ts = closing then .done (some []) ts.tail
  else
    (expression .lowest ts).andThen fun e rest _ =>
      (moreExpressions closing rest).mapSome (e :: ·)
termination_by 4 * ts.length + 2
decreasing_by all_goals grind

/-- The expressions after the first one. -/
def moreExpressions (closing : TokenKind) (ts : List Token) :
    Step (Option (List Expr)) ts.length :=
  match ts with
  | [] => .fail (unexpected stop closing []) []
  | t :: rest =>
    if t.kind = .comma then
      (expression .lowest rest).andThen fun e rest _ =>
        (moreExpressions closing rest).mapSome (e :: ·)
    else expect stop closing (t :: rest) fun _ rest _ => .done (some []) rest
termination_by 4 * ts.length
decreasing_by all_goals grind

/-- The pairs of a hash, up to the closing brace. The last one may have a comma behind it. -/
def pairs (ts : List Token) : Step (Option (List (Expr × Expr))) ts.length :=
  if headKind ts = .rightBrace then .done (some []) ts.tail
  else
    (expression .lowest ts).andThen fun key rest _ =>
      expect stop .colon rest fun _ rest _ =>
        (expression .lowest rest).andThen fun value rest _ =>
          if headKind rest = .rightBrace then
            .done (some [(key, value)]) rest.tail
          else expect stop .comma rest fun _ rest _ =>
            (pairs rest).mapSome ((key, value) :: ·)
termination_by 4 * ts.length + 2
decreasing_by all_goals grind

/-- The statements up to the closing brace, or to the end of the input. -/
def block (ts : List Token) : Step Block ts.length :=
  match ts with
  | [] => .done [] []
  | t :: rest =>
    if t.kind = .rightBrace then .done [] rest
    else
      (statement (t :: rest)).next fun s rest _ =>
        (block rest).map (s.toList ++ ·)
termination_by 4 * ts.length + 3
decreasing_by all_goals grind

def statement (ts : List Token) : Step (Option Stmt) (ts.length - 1) :=
  match headKind ts with
  | .letWord =>
    expect stop .identifier ts.tail fun name rest _ =>
      expect stop .assign rest fun _ rest _ =>
        (expression .lowest rest).andThen fun value rest _ =>
          finish (.bind name.literal value) rest
  | .returnWord =>
    (expression .lowest ts.tail).andThen fun value rest _ =>
      finish (.ret value) rest
  | _ =>
    (expression .lowest ts).andThen fun value rest _ =>
      finish (.expr value) rest
termination_by 4 * ts.length + 2
decreasing_by all_goals grind

end

/-- The statements up to the end of the input. -/
def statements (ts : List Token) : Step (List Stmt) ts.length :=
  match ts with
  | [] => .done [] []
  | t :: rest =>
    (statement stop (t :: rest)).next fun s rest _ =>
      (statements rest).map (s.toList ++ ·)
termination_by ts.length
decreasing_by all_goals grind

end Parser

/-! ## Whole sources -/

/-- A parser that is asked for a program, perhaps more than once. -/
structure Parser where
  tokens : List Token
  /-- Where the end of the input is. -/
  stop : Span
  errors : List Diagnostic

namespace Parser

/-- A parser for the unread text. -/
def ofCursor (s : Cursor) : Parser := ⟨s.tokens, .point s.endPosition, []⟩

/-- The program up to the end of the input. -/
def program (p : Parser) : Program × Parser :=
  let s := statements p.stop p.tokens
  (⟨s.value⟩, ⟨s.rest, p.stop, p.errors ++ s.errors⟩)

end Parser

/-- A program and the errors met on the way to it. -/
structure Parsed where
  program : Program
  errors : List Diagnostic

def parseCursor (s : Cursor) : Parsed :=
  let (program, parser) := (Parser.ofCursor s).program
  ⟨program, parser.errors⟩

/-- Parses a source text. Statements with syntax errors are left out of the program. -/
def parse (source : String) : Parsed := parseCursor (.ofSource source)

end Monkey
