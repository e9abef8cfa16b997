/-!
# Positions in a source text

Lines and columns count from one, in characters. A span names its first and its last character.
-/

namespace Monkey

structure Position where
  line : Nat
  column : Nat
deriving DecidableEq

namespace Position

def start : Position := ⟨1, 1⟩

/-- Where the next character stands once `c` is read. -/
def advance (p : Position) (c : Char) : Position :=
  if c = '\n' then ⟨p.line + 1, 1⟩ else ⟨p.line, p.column + 1⟩

/-- Where the next character stands once all of `text` is read. -/
def advanceBy (p : Position) (text : List Char) : Position :=
  text.foldl advance p

/-- The column before, but never left of column one. -/
def back (p : Position) : Position :=
  ⟨p.line, max (p.column - 1) 1⟩

/-- The line and the column can be counted with 32 bits. -/
def Fits (p : Position) : Prop :=
  p.line < 4294967296 ∧ p.column < 4294967296

@[simp] theorem advanceBy_nil (p : Position) : p.advanceBy [] = p := rfl

@[simp] theorem advanceBy_cons (p : Position) (c : Char) (text : List Char) :
    p.advanceBy (c :: text) = (p.advance c).advanceBy text := rfl

theorem advanceBy_append (p : Position) (a b : List Char) :
    p.advanceBy (a ++ b) = (p.advanceBy a).advanceBy b := by
  simp [advanceBy, List.foldl_append]

end Position

/-- The first and the last character of a piece of text, both included. -/
structure Span where
  first : Position
  last : Position
deriving DecidableEq

namespace Span

/-- The span of one character. -/
def point (p : Position) : Span := ⟨p, p⟩

/-- The span of no text at all, which no token has. -/
def none : Span := point ⟨0, 0⟩

def Fits (s : Span) : Prop := s.first.Fits ∧ s.last.Fits

/-- Only the start is shown. -/
def render (s : Span) : String :=
  toString s.first.line ++ ":" ++ toString s.first.column

end Span

end Monkey
