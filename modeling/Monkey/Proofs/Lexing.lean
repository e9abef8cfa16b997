import Monkey.Token.Lexer

/-!
# Tokens without their places

A terminal is what is left of a token once its span is forgotten. The terminals of a text do not
depend on where the text starts, and they can be read off lexeme by lexeme: a lexeme ends where the
next character cannot belong to it.
-/

namespace Monkey

/-- The kind and the text of a token. -/
structure Terminal where
  kind : TokenKind
  literal : String
deriving DecidableEq

def Token.terminal (t : Token) : Terminal := ⟨t.kind, t.literal⟩

@[simp] theorem Token.terminal_kind (t : Token) : t.terminal.kind = t.kind := rfl

/-- The end of the input, which comes as often as it is asked for. -/
def Terminal.endOfInput : Terminal := ⟨.eof, ""⟩

def Lexeme.terminal (l : Lexeme) : Terminal := ⟨l.kind, String.ofList l.literal⟩

/-! ## Tokens of a cursor -/

theorem not_isBlank_of_dropWhile {cs ds : List Char} {c : Char}
    (h : cs.dropWhile isBlank = c :: ds) : isBlank c = false := by
  have hhead := List.head?_dropWhile_not isBlank cs
  rw [h] at hhead
  simpa using hhead

theorem Cursor.tokens_eq_nil {s : Cursor} (h : s.rest.dropWhile isBlank = []) : s.tokens = [] := by
  rw [Cursor.tokens, dif_pos (by exact h)]

theorem Cursor.next_eq_scan {s : Cursor} {c : Char} {cs : List Char}
    (h : s.rest.dropWhile isBlank = c :: cs) :
    s.next =
      let p := s.position.advanceBy (s.rest.takeWhile isBlank)
      let lexeme := Lexeme.scan c cs
      (⟨lexeme.kind, String.ofList lexeme.literal, ⟨p, (p.advanceBy lexeme.text).back⟩⟩,
        ⟨lexeme.rest, p.advanceBy lexeme.text⟩) := by
  have hs : s.skipBlanks = ⟨c :: cs, s.position.advanceBy (s.rest.takeWhile isBlank)⟩ := by
    rw [Cursor.skipBlanks, h]
  rw [Cursor.next, hs]

theorem Cursor.next_eq {s : Cursor} {c : Char} {cs : List Char}
    (h : s.rest.dropWhile isBlank = c :: cs) :
    s.next.1.terminal = (Lexeme.scan c cs).terminal ∧ s.next.2.rest = (Lexeme.scan c cs).rest := by
  rw [Cursor.next_eq_scan h]
  exact ⟨rfl, rfl⟩

theorem Cursor.tokens_eq_cons {s : Cursor} {c : Char} {cs : List Char}
    (h : s.rest.dropWhile isBlank = c :: cs) : s.tokens = s.next.1 :: s.next.2.tokens := by
  have hne : s.skipBlanks.rest ≠ [] := by
    rw [Cursor.skipBlanks, h]
    simp
  rw [Cursor.tokens, dif_neg hne]

theorem Cursor.next_shorter {s : Cursor} {c : Char} {cs : List Char}
    (h : s.rest.dropWhile isBlank = c :: cs) : s.next.2.rest.length < s.rest.length := by
  apply s.next_length
  rw [Cursor.skipBlanks, h]
  simp

theorem Cursor.map_terminal_tokens (s t : Cursor) (h : s.rest = t.rest) :
    s.tokens.map Token.terminal = t.tokens.map Token.terminal := by
  cases hs : s.rest.dropWhile isBlank with
  | nil => rw [Cursor.tokens_eq_nil hs, Cursor.tokens_eq_nil (h ▸ hs)]
  | cons c cs =>
    have ht : t.rest.dropWhile isBlank = c :: cs := h ▸ hs
    have hlen := Cursor.next_shorter hs
    rw [Cursor.tokens_eq_cons hs, Cursor.tokens_eq_cons ht, List.map_cons, List.map_cons,
      (Cursor.next_eq hs).1, (Cursor.next_eq ht).1,
      Cursor.map_terminal_tokens s.next.2 t.next.2
        ((Cursor.next_eq hs).2.trans (Cursor.next_eq ht).2.symm)]
termination_by s.rest.length

theorem Cursor.terminal_of_mem_tokens (s : Cursor) (t : Token) (h : t ∈ s.tokens) :
    ∃ c cs, isBlank c = false ∧ t.terminal = (Lexeme.scan c cs).terminal := by
  cases hs : s.rest.dropWhile isBlank with
  | nil =>
    rw [Cursor.tokens_eq_nil hs] at h
    cases h
  | cons c cs =>
    have hlen := Cursor.next_shorter hs
    rw [Cursor.tokens_eq_cons hs, List.mem_cons] at h
    rcases h with rfl | h
    · exact ⟨c, cs, not_isBlank_of_dropWhile hs, (Cursor.next_eq hs).1⟩
    · exact s.next.2.terminal_of_mem_tokens t h
termination_by s.rest.length

/-! ## Terminals of a text -/

/-- The terminals of a text, without the end of the input. -/
def terminals (cs : List Char) : List Terminal :=
  (Cursor.mk cs .start).tokens.map Token.terminal

theorem terminals_eq (s : Cursor) : s.tokens.map Token.terminal = terminals s.rest :=
  s.map_terminal_tokens _ rfl

@[simp] theorem terminals_nil : terminals [] = [] := by
  rw [terminals, Cursor.tokens_eq_nil rfl]
  rfl

theorem terminals_scan {c : Char} (cs : List Char) (hc : isBlank c = false) :
    terminals (c :: cs) = (Lexeme.scan c cs).terminal :: terminals (Lexeme.scan c cs).rest := by
  have h : (Cursor.mk (c :: cs) .start).rest.dropWhile isBlank = c :: cs :=
    List.dropWhile_cons_of_neg (by simp [hc])
  rw [terminals, Cursor.tokens_eq_cons h, List.map_cons, (Cursor.next_eq h).1, terminals_eq,
    (Cursor.next_eq h).2]

theorem terminals_blank {c : Char} (cs : List Char) (hc : isBlank c = true) :
    terminals (c :: cs) = terminals cs := by
  have hdrop : (c :: cs).dropWhile isBlank = cs.dropWhile isBlank :=
    List.dropWhile_cons_of_pos hc
  cases h : cs.dropWhile isBlank with
  | nil =>
    rw [terminals, terminals, Cursor.tokens_eq_nil (s := ⟨c :: cs, .start⟩) (hdrop.trans h),
      Cursor.tokens_eq_nil (s := ⟨cs, .start⟩) h]
  | cons d ds =>
    have h₁ : (Cursor.mk (c :: cs) .start).rest.dropWhile isBlank = d :: ds := hdrop.trans h
    have h₂ : (Cursor.mk cs .start).rest.dropWhile isBlank = d :: ds := h
    rw [terminals, terminals, Cursor.tokens_eq_cons h₁, Cursor.tokens_eq_cons h₂, List.map_cons,
      List.map_cons, (Cursor.next_eq h₁).1, (Cursor.next_eq h₂).1, terminals_eq, terminals_eq,
      (Cursor.next_eq h₁).2, (Cursor.next_eq h₂).2]

@[simp] theorem terminals_space (cs : List Char) : terminals (' ' :: cs) = terminals cs :=
  terminals_blank cs rfl

/-! ## Valid terminals -/

/-- A name is a run of letters that is not reserved. -/
def IsName (word : String) : Prop :=
  word.toList ≠ [] ∧ (∀ c ∈ word.toList, isLetter c) ∧ TokenKind.ofKeyword? word = none

instance (word : String) : Decidable (IsName word) :=
  inferInstanceAs (Decidable (_ ∧ _ ∧ _))

/-- A character that no other kind of token starts with. -/
def isIllegal (c : Char) : Bool :=
  !isBlank c && c != '"' && (TokenKind.ofSymbol? c).isNone && !isLetter c && !c.isDigit

/-- The text of a kind whose tokens all look the same. -/
def TokenKind.spelling? : TokenKind → Option String
  | assign => some "="
  | plus => some "+"
  | minus => some "-"
  | bang => some "!"
  | asterisk => some "*"
  | slash => some "/"
  | less => some "<"
  | greater => some ">"
  | equal => some "=="
  | notEqual => some "!="
  | comma => some ","
  | semicolon => some ";"
  | colon => some ":"
  | leftParen => some "("
  | rightParen => some ")"
  | leftBrace => some "\x7b"
  | rightBrace => some "\x7d"
  | leftBracket => some "["
  | rightBracket => some "]"
  | functionWord => some "fn"
  | letWord => some "let"
  | trueWord => some "true"
  | falseWord => some "false"
  | ifWord => some "if"
  | elseWord => some "else"
  | returnWord => some "return"
  | illegal | eof | identifier | integer | string => none

/-- The literals that a token of a kind can have. -/
def Terminal.Valid (t : Terminal) : Prop :=
  match t.kind with
  | .identifier => IsName t.literal
  | .integer => t.literal.toList ≠ [] ∧ ∀ c ∈ t.literal.toList, c.isDigit
  | .string => ∀ c ∈ t.literal.toList, inString c
  | .illegal => ∃ c, t.literal = String.ofList [c] ∧ isIllegal c
  | kind => kind.spelling? = some t.literal

theorem Terminal.valid_of_spelling {t : Terminal} (h : t.kind.spelling? = some t.literal) :
    t.Valid := by
  obtain ⟨kind, literal⟩ := t
  cases kind <;> first | exact h | cases h

theorem Terminal.Valid.kind_ne_eof {t : Terminal} (h : t.Valid) : t.kind ≠ .eof := by
  obtain ⟨kind, literal⟩ := t
  rintro rfl
  cases h

theorem TokenKind.spelling?_of_keyword {word : String} {kind : TokenKind}
    (h : ofKeyword? word = some kind) : kind.spelling? = some word := by
  have hall : ∀ p ∈ keywords, p.2.spelling? = some p.1 := by decide
  obtain ⟨before, after, hk, -⟩ := List.lookup_eq_some_iff.mp h
  exact hall (word, kind) (by rw [hk]; simp)

theorem TokenKind.spelling?_of_symbol {c : Char} {kind : TokenKind} (h : ofSymbol? c = some kind) :
    kind.spelling? = some (String.ofList [c]) := by
  unfold ofSymbol? at h
  split at h <;> cases h <;> rfl

theorem Terminal.word_valid {word : List Char} (hne : word ≠ []) (hall : ∀ c ∈ word, isLetter c) :
    Terminal.Valid ⟨.ofWord (String.ofList word), String.ofList word⟩ := by
  cases h : TokenKind.ofKeyword? (String.ofList word) with
  | none =>
    have hk : TokenKind.ofWord (String.ofList word) = .identifier := by
      rw [TokenKind.ofWord, h]
      rfl
    rw [hk]
    exact ⟨by simpa using hne, by simpa using hall, h⟩
  | some kind =>
    have hk : TokenKind.ofWord (String.ofList word) = kind := by rw [TokenKind.ofWord, h]; rfl
    rw [hk]
    exact Terminal.valid_of_spelling (TokenKind.spelling?_of_keyword h)

theorem Terminal.digits_valid {digits : List Char} (hne : digits ≠ [])
    (hall : ∀ c ∈ digits, c.isDigit) : Terminal.Valid ⟨.integer, String.ofList digits⟩ :=
  ⟨by simpa using hne, by simpa using hall⟩

namespace Lexeme

theorem run_literal (p : Char → Bool) (kind : List Char → TokenKind) (c : Char) (cs : List Char)
    (hc : p c) : (run p kind (c :: cs)).literal ≠ [] ∧
      ∀ d ∈ (run p kind (c :: cs)).literal, p d := by
  refine ⟨by simp [run, hc], ?_⟩
  exact List.all_eq_true.mp List.all_takeWhile

theorem string_valid (cs : List Char) : (string cs).terminal.Valid := by
  have hall : ∀ c ∈ cs.takeWhile inString, inString c := List.all_eq_true.mp List.all_takeWhile
  unfold string
  split <;> simpa [terminal, Terminal.Valid] using hall

theorem scan_valid (c : Char) (cs : List Char) (hc : isBlank c = false) :
    (scan c cs).terminal.Valid := by
  unfold scan
  split
  · exact Terminal.valid_of_spelling rfl
  · exact Terminal.valid_of_spelling rfl
  · exact string_valid _
  · rename_i hquote _ _
    split
    · rename_i kind hkind
      exact Terminal.valid_of_spelling (TokenKind.spelling?_of_symbol hkind)
    · rename_i hsymbol
      split
      · rename_i hletter
        obtain ⟨hne, hall⟩ := run_literal isLetter (fun w => .ofWord (String.ofList w)) c cs hletter
        exact Terminal.word_valid hne hall
      · rename_i hletter
        split
        · rename_i hdigit
          obtain ⟨hne, hall⟩ := run_literal Char.isDigit (fun _ => .integer) c cs hdigit
          exact Terminal.digits_valid hne hall
        · rename_i hdigit
          refine ⟨c, rfl, ?_⟩
          simp only [Bool.not_eq_true] at hletter hdigit
          have hne : c ≠ '"' := hquote
          simp [isIllegal, hc, hne, hsymbol, hletter, hdigit]

end Lexeme

theorem Cursor.valid_of_mem_tokens {s : Cursor} {t : Token} (h : t ∈ s.tokens) :
    t.terminal.Valid := by
  obtain ⟨c, cs, hc, ht⟩ := s.terminal_of_mem_tokens t h
  rw [ht]
  exact Lexeme.scan_valid c cs hc

/-! ## Reading one lexeme -/

/-- The terminal of one character that stands for itself. -/
def Terminal.symbol (c : Char) : Terminal :=
  ⟨(TokenKind.ofSymbol? c).getD .illegal, String.ofList [c]⟩

def Terminal.word (w : String) : Terminal := ⟨.ofWord w, w⟩

theorem not_isBlank_of_isLetter {c : Char} (h : isLetter c) : isBlank c = false := by
  simp only [isBlank, Bool.or_eq_false_iff, decide_eq_false_iff_not]
  refine ⟨⟨⟨?_, ?_⟩, ?_⟩, ?_⟩ <;> rintro rfl <;> cases h

theorem not_isBlank_of_isDigit {c : Char} (h : c.isDigit) : isBlank c = false := by
  simp only [isBlank, Bool.or_eq_false_iff, decide_eq_false_iff_not]
  refine ⟨⟨⟨?_, ?_⟩, ?_⟩, ?_⟩ <;> rintro rfl <;> cases h

theorem not_isLetter_of_isDigit {c : Char} (h : c.isDigit) : isLetter c = false := by
  have hc : c ≠ '_' := by
    rintro rfl
    cases h
  have hdigit : c.val ≤ '9'.val := of_decide_eq_true (Bool.and_eq_true_iff.mp h).2
  -- All letters come behind the digits.
  have hbehind : ∀ a : Char, '9' < a → ¬ a.val ≤ c.val := by
    intro a ha hle
    exact absurd (UInt32.le_trans hle hdigit) (UInt32.not_le.mpr ha)
  have hupper : c.isUpper = false :=
    decide_eq_false fun hc => hbehind 'A' (by decide) hc.1
  have hlower : c.isLower = false :=
    Bool.and_eq_false_iff.mpr (.inl (decide_eq_false (hbehind 'a' (by decide))))
  have halpha : c.isAlpha = false := Bool.or_eq_false_iff.mpr ⟨hupper, hlower⟩
  simp [isLetter, halpha, hc]

theorem class_of_ofSymbol? {c : Char} {kind : TokenKind} (h : TokenKind.ofSymbol? c = some kind) :
    isBlank c = false ∧ isLetter c = false ∧ c.isDigit = false := by
  unfold TokenKind.ofSymbol? at h
  split at h <;> cases h <;> decide

theorem takeWhile_append_of_head {p : Char → Bool} {ds k : List Char} (hds : ∀ c ∈ ds, p c)
    (hk : ∀ c ∈ k.head?, p c = false) :
    (ds ++ k).takeWhile p = ds ∧ (ds ++ k).dropWhile p = k := by
  rw [List.takeWhile_append_of_pos hds, List.dropWhile_append_of_pos hds]
  cases k with
  | nil => simp
  | cons c k => simp [hk c rfl]

namespace Lexeme

theorem scan_letter {c : Char} (cs : List Char) (h : isLetter c) :
    scan c cs = run isLetter (fun word => .ofWord (String.ofList word)) (c :: cs) := by
  unfold scan
  split
  · cases h
  · cases h
  · cases h
  · split
    · rename_i kind hkind
      rw [(class_of_ofSymbol? hkind).2.1] at h
      cases h
    · rw [if_pos h]

theorem scan_digit {c : Char} (cs : List Char) (h : c.isDigit) :
    scan c cs = run Char.isDigit (fun _ => .integer) (c :: cs) := by
  unfold scan
  split
  · cases h
  · cases h
  · cases h
  · split
    · rename_i kind hkind
      rw [(class_of_ofSymbol? hkind).2.2] at h
      cases h
    · rw [if_neg (by simp [not_isLetter_of_isDigit h]), if_pos h]

theorem scan_symbol {c : Char} {kind : TokenKind} {cs : List Char}
    (h : TokenKind.ofSymbol? c = some kind) (hk : cs.head? = some '=' → c ≠ '=' ∧ c ≠ '!') :
    scan c cs = ⟨kind, [c], [c], cs⟩ := by
  unfold scan
  split
  · exact absurd rfl (hk rfl).1
  · exact absurd rfl (hk rfl).2
  · cases h
  · rw [h]

theorem scan_string {body : List Char} (k : List Char) (h : ∀ c ∈ body, inString c) :
    (scan '"' (body ++ '"' :: k)).terminal = ⟨.string, String.ofList body⟩ ∧
      (scan '"' (body ++ '"' :: k)).rest = k := by
  obtain ⟨htake, hdrop⟩ := takeWhile_append_of_head (k := '"' :: k) h (by simp [inString])
  have hs : scan '"' (body ++ '"' :: k) = string (body ++ '"' :: k) := rfl
  rw [hs, string, htake, hdrop]
  exact ⟨rfl, rfl⟩

end Lexeme

theorem terminals_word {w : String} (k : List Char) (hne : w.toList ≠ [])
    (hw : ∀ c ∈ w.toList, isLetter c) (hk : ∀ c ∈ k.head?, isLetter c = false) :
    terminals (w.toList ++ k) = .word w :: terminals k := by
  obtain ⟨htake, hdrop⟩ := takeWhile_append_of_head hw hk
  obtain ⟨c, cs, hcs⟩ := List.exists_cons_of_ne_nil hne
  have hc : isLetter c := hw c (by rw [hcs]; simp)
  rw [hcs, List.cons_append] at htake hdrop ⊢
  rw [terminals_scan _ (not_isBlank_of_isLetter hc), Lexeme.scan_letter _ hc]
  simp only [Lexeme.run, Lexeme.terminal, htake, hdrop, Terminal.word, ← hcs, String.ofList_toList]

theorem terminals_digits {ds : String} (k : List Char) (hne : ds.toList ≠ [])
    (hds : ∀ c ∈ ds.toList, c.isDigit) (hk : ∀ c ∈ k.head?, c.isDigit = false) :
    terminals (ds.toList ++ k) = ⟨.integer, ds⟩ :: terminals k := by
  obtain ⟨htake, hdrop⟩ := takeWhile_append_of_head hds hk
  obtain ⟨c, cs, hcs⟩ := List.exists_cons_of_ne_nil hne
  have hc : c.isDigit := hds c (by rw [hcs]; simp)
  rw [hcs, List.cons_append] at htake hdrop ⊢
  rw [terminals_scan _ (not_isBlank_of_isDigit hc), Lexeme.scan_digit _ hc]
  simp only [Lexeme.run, Lexeme.terminal, htake, hdrop, ← hcs, String.ofList_toList]

theorem terminals_symbol {c : Char} {kind : TokenKind} (cs : List Char)
    (h : TokenKind.ofSymbol? c = some kind) (hk : cs.head? = some '=' → c ≠ '=' ∧ c ≠ '!') :
    terminals (c :: cs) = .symbol c :: terminals cs := by
  rw [terminals_scan _ (class_of_ofSymbol? h).1, Lexeme.scan_symbol h hk, Terminal.symbol, h]
  rfl

theorem terminals_string {text : String} (k : List Char) (h : ∀ c ∈ text.toList, inString c) :
    terminals ('"' :: (text.toList ++ '"' :: k)) = ⟨.string, text⟩ :: terminals k := by
  obtain ⟨hterminal, hrest⟩ := Lexeme.scan_string k h
  rw [terminals_scan _ rfl, hterminal, hrest, String.ofList_toList]

end Monkey
