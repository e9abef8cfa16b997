import Monkey.Position

/-!
# Tokens

The kinds of lexeme in the language. A token pairs a kind with its text and the span it came from.
-/

namespace Monkey

inductive TokenKind where
  /-- A character the language has no use for. -/
  | illegal
  | eof
  | identifier
  | integer
  | string
  | assign
  | plus
  | minus
  | bang
  | asterisk
  | slash
  | less
  | greater
  | equal
  | notEqual
  | comma
  | semicolon
  | colon
  | leftParen
  | rightParen
  | leftBrace
  | rightBrace
  | leftBracket
  | rightBracket
  | functionWord
  | letWord
  | trueWord
  | falseWord
  | ifWord
  | elseWord
  | returnWord
deriving DecidableEq

namespace TokenKind

/-- The reserved words and the kinds they stand for. -/
def keywords : List (String × TokenKind) :=
  [("fn", functionWord), ("let", letWord), ("true", trueWord), ("false", falseWord),
    ("if", ifWord), ("else", elseWord), ("return", returnWord)]

def ofKeyword? (word : String) : Option TokenKind :=
  keywords.lookup word

/-- A word is a keyword if it is reserved, and a name otherwise. -/
def ofWord (word : String) : TokenKind :=
  (ofKeyword? word).getD identifier

/-- The spelling of a kind in diagnostics. -/
def name : TokenKind → String
  | illegal => "ILLEGAL"
  | eof => "EOF"
  | identifier => "IDENT"
  | integer => "INT"
  | string => "STRING"
  | assign => "="
  | plus => "+"
  | minus => "-"
  | bang => "!"
  | asterisk => "*"
  | slash => "/"
  | less => "<"
  | greater => ">"
  | equal => "=="
  | notEqual => "!="
  | comma => ","
  | semicolon => ";"
  | colon => ":"
  | leftParen => "("
  | rightParen => ")"
  | leftBrace => "\x7b"
  | rightBrace => "\x7d"
  | leftBracket => "["
  | rightBracket => "]"
  | functionWord => "FUNCTION"
  | letWord => "LET"
  | trueWord => "TRUE"
  | falseWord => "FALSE"
  | ifWord => "IF"
  | elseWord => "ELSE"
  | returnWord => "RETURN"

end TokenKind

structure Token where
  kind : TokenKind
  /-- The text of the token: without the quotes for a string, empty at the end of the input. -/
  literal : String
  span : Span
deriving DecidableEq

/-- The token at the end of the input, where `p` is just past the text. -/
def Token.endOfInput (p : Position) : Token := ⟨.eof, "", .point p⟩

end Monkey
