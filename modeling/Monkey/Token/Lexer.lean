import Monkey.Token

/-!
# From characters to tokens

A cursor is the unread text and the position where it starts. `Cursor.next` reads one token, and
`Cursor.tokens` all of them. A `Lexer` hands tokens out on demand, in two ways: `nextToken` repeats
the end of the input forever, `next?` stops after it.
-/

namespace Monkey

def isBlank (c : Char) : Bool := c = ' ' || c = '\t' || c = '\n' || c = '\r'

def isLetter (c : Char) : Bool := c.isAlpha || c = '_'

/-- Whether `c` can stand inside a string. -/
def inString (c : Char) : Bool := c != '"'

/-- The kind of a lexeme of one character. -/
def TokenKind.ofSymbol? : Char → Option TokenKind
  | '=' => some assign
  | '!' => some bang
  | '+' => some plus
  | '-' => some minus
  | '*' => some asterisk
  | '/' => some slash
  | '<' => some less
  | '>' => some greater
  | ',' => some comma
  | ';' => some semicolon
  | ':' => some colon
  | '(' => some leftParen
  | ')' => some rightParen
  | '{' => some leftBrace
  | '}' => some rightBrace
  | '[' => some leftBracket
  | ']' => some rightBracket
  | _ => none

/-! ## One lexeme -/

/-- A lexeme at the head of a text: its kind, its literal, the characters it takes up and the text
after it. -/
structure Lexeme where
  kind : TokenKind
  literal : List Char
  text : List Char
  rest : List Char

namespace Lexeme

/-- The longest run of characters with `p`, as a lexeme of the kind that `kind` gives it. -/
def run (p : Char → Bool) (kind : List Char → TokenKind) (cs : List Char) : Lexeme :=
  let word := cs.takeWhile p
  ⟨kind word, word, word, cs.dropWhile p⟩

/-- A string whose opening quote is already read. It ends at the next quote, or with the text. -/
def string (cs : List Char) : Lexeme :=
  let body := cs.takeWhile inString
  match cs.dropWhile inString with
  | [] => ⟨.string, body, '"' :: body, []⟩
  | quote :: rest => ⟨.string, body, '"' :: body ++ [quote], rest⟩

/-- The lexeme that starts with the character `c`. -/
def scan (c : Char) (cs : List Char) : Lexeme :=
  match c, cs with
  | '=', '=' :: rest => ⟨.equal, ['=', '='], ['=', '='], rest⟩
  | '!', '=' :: rest => ⟨.notEqual, ['!', '='], ['!', '='], rest⟩
  | '"', _ => string cs
  | _, _ =>
    match TokenKind.ofSymbol? c with
    | some kind => ⟨kind, [c], [c], cs⟩
    | none =>
      if isLetter c then run isLetter (fun word => .ofWord (String.ofList word)) (c :: cs)
      else if c.isDigit then run Char.isDigit (fun _ => .integer) (c :: cs)
      else ⟨.illegal, [c], [c], cs⟩

theorem run_text_append_rest (p : Char → Bool) (kind : List Char → TokenKind) (cs : List Char) :
    (run p kind cs).text ++ (run p kind cs).rest = cs :=
  List.takeWhile_append_dropWhile

theorem string_text_append_rest (cs : List Char) :
    (string cs).text ++ (string cs).rest = '"' :: cs := by
  have h := List.takeWhile_append_dropWhile (p := inString) (l := cs)
  unfold string
  split <;> rename_i heq <;> rw [heq] at h <;> simpa using h

theorem scan_text_append_rest (c : Char) (cs : List Char) :
    (scan c cs).text ++ (scan c cs).rest = c :: cs := by
  unfold scan
  split
  · rfl
  · rfl
  · exact string_text_append_rest _
  · split
    · rfl
    · split
      · exact run_text_append_rest ..
      · split
        · exact run_text_append_rest ..
        · rfl

theorem string_text_ne_nil (cs : List Char) : (string cs).text ≠ [] := by
  unfold string
  split <;> simp

theorem scan_text_ne_nil (c : Char) (cs : List Char) : (scan c cs).text ≠ [] := by
  unfold scan
  split
  · simp
  · simp
  · exact string_text_ne_nil _
  · split
    · simp
    · split
      · rename_i h
        simp [run, h]
      · split
        · rename_i h
          simp [run, h]
        · simp

theorem scan_rest_length (c : Char) (cs : List Char) : (scan c cs).rest.length ≤ cs.length := by
  have h := congrArg List.length (scan_text_append_rest c cs)
  have := List.length_pos_iff.mpr (scan_text_ne_nil c cs)
  simp at h
  omega

end Lexeme

/-! ## One token after another -/

/-- The unread text, and where it starts. -/
structure Cursor where
  rest : List Char
  position : Position
deriving DecidableEq

namespace Cursor

def ofSource (source : String) : Cursor := ⟨source.toList, .start⟩

def skipBlanks (s : Cursor) : Cursor :=
  ⟨s.rest.dropWhile isBlank, s.position.advanceBy (s.rest.takeWhile isBlank)⟩

/-- The next token and the cursor behind it. At the end of the input the cursor stays there. -/
def next (s : Cursor) : Token × Cursor :=
  match s.skipBlanks with
  | ⟨[], p⟩ => (.endOfInput p, ⟨[], p⟩)
  | ⟨c :: cs, p⟩ =>
    let lexeme := Lexeme.scan c cs
    let after := p.advanceBy lexeme.text
    (⟨lexeme.kind, String.ofList lexeme.literal, ⟨p, after.back⟩⟩, ⟨lexeme.rest, after⟩)

theorem skipBlanks_length (s : Cursor) : s.skipBlanks.rest.length ≤ s.rest.length := by
  have h := congrArg List.length (List.takeWhile_append_dropWhile (p := isBlank) (l := s.rest))
  simp only [List.length_append] at h
  simp only [skipBlanks]
  omega

theorem next_length (s : Cursor) (h : s.skipBlanks.rest ≠ []) :
    s.next.2.rest.length < s.rest.length := by
  have hle := s.skipBlanks_length
  unfold next
  split
  · rename_i heq
    simp [heq] at h
  · rename_i c cs p heq
    have := Lexeme.scan_rest_length c cs
    simp only [heq, List.length_cons] at hle
    simp only
    omega

/-- The tokens of the unread text, without the end of the input. -/
def tokens (s : Cursor) : List Token :=
  if _h : s.skipBlanks.rest = [] then [] else s.next.1 :: s.next.2.tokens
termination_by s.rest.length
decreasing_by exact s.next_length _h

/-- The position just past the text. -/
def endPosition (s : Cursor) : Position := s.position.advanceBy s.rest

/-- The cursor behind the next `n` tokens. -/
def drop (s : Cursor) : Nat → Cursor
  | 0 => s
  | n + 1 => s.next.2.drop n

end Cursor

/-- The tokens of a source text, the end of the input included. -/
def tokenize (source : String) : List Token :=
  let s := Cursor.ofSource source
  s.tokens ++ [.endOfInput s.endPosition]

/-! ## Tokens on demand -/

structure Lexer where
  cursor : Cursor
  /-- Whether `next?` has already given the end of the input. -/
  finished : Bool := false
deriving DecidableEq

namespace Lexer

def ofSource (source : String) : Lexer := ⟨.ofSource source, false⟩

/-- The next token. The end of the input comes again and again. -/
def nextToken (l : Lexer) : Token × Lexer :=
  let (token, cursor) := l.cursor.next
  (token, ⟨cursor, l.finished⟩)

/-- The next token, or nothing once this function has given the end of the input. -/
def next? (l : Lexer) : Option Token × Lexer :=
  if l.finished then (none, l)
  else
    let (token, cursor) := l.cursor.next
    (some token, ⟨cursor, token.kind = .eof⟩)

/-- The two ways to ask for a token. -/
inductive Request where
  | nextToken
  | next
deriving DecidableEq

/-- The answer to one request. -/
def answer (l : Lexer) : Request → Option Token × Lexer
  | .nextToken => let (token, l) := l.nextToken; (some token, l)
  | .next => l.next?

/-- The answers to a sequence of requests. -/
def answers (l : Lexer) : List Request → List (Option Token)
  | [] => []
  | r :: rs => (l.answer r).1 :: (l.answer r).2.answers rs

end Lexer

end Monkey
