import Monkey.Proofs.Lexing

/-!
# Texts as rows of lexemes

A text is blanks, a lexeme, blanks, another lexeme and so on. Lexing takes a text apart into such a
row and loses nothing of it. The other way round, a row of terminals that is written down with
blanks in between is lexed as these terminals.
-/

namespace Monkey

/-! ## Rows of lexemes -/

/-- A run of blanks. -/
def Blanks : Type := { cs : List Char // ∀ c ∈ cs, isBlank c }

namespace Blanks

def none : Blanks := ⟨[], List.forall_mem_nil _⟩

def space : Blanks := ⟨[' '], List.forall_mem_singleton.mpr rfl⟩

/-- The blanks that a text starts with. -/
def ofText (cs : List Char) : Blanks :=
  ⟨cs.takeWhile isBlank, List.all_eq_true.mp List.all_takeWhile⟩

theorem ofText_append_dropWhile (cs : List Char) : (ofText cs).1 ++ cs.dropWhile isBlank = cs :=
  List.takeWhile_append_dropWhile

end Blanks

/-- How a terminal is written. A string stands between quotes. -/
def Terminal.lexeme (t : Terminal) : List Char :=
  if t.kind = .string then '"' :: (t.literal.toList ++ ['"']) else t.literal.toList

/-- A row of terminals, with the blanks in front of it and behind each terminal. -/
structure Layout where
  front : Blanks
  row : List (Terminal × Blanks)

namespace Layout

def terminals (l : Layout) : List Terminal := l.row.map (·.1)

def text (l : Layout) : List Char :=
  l.front.1 ++ l.row.flatMap fun p => p.1.lexeme ++ p.2.1

/-- There are blanks between any two terminals. -/
def Spaced (l : Layout) : Prop := ∀ p ∈ l.row.dropLast, p.2.1 ≠ []

/-- The row ends with a string, and nothing is behind it. -/
def EndsInString (l : Layout) : Prop :=
  ∃ literal, l.row.getLast? = some (⟨.string, literal⟩, .none)

/-- The text is the one of the row, or would be if a quote were put at its end. -/
def Covers (l : Layout) (cs : List Char) : Prop :=
  cs = l.text ∨ l.EndsInString ∧ cs ++ ['"'] = l.text

/-- Only blanks. -/
def blank (front : Blanks) : Layout := ⟨front, []⟩

/-- A row with one more terminal in front of it. -/
def cons (front : Blanks) (t : Terminal) (l : Layout) : Layout := ⟨front, (t, l.front) :: l.row⟩

@[simp] theorem text_blank (front : Blanks) : (blank front).text = front.1 := by
  simp [blank, text]

@[simp] theorem text_cons (front : Blanks) (t : Terminal) (l : Layout) :
    (cons front t l).text = front.1 ++ (t.lexeme ++ l.text) := by
  simp [cons, text]

@[simp] theorem terminals_cons (front : Blanks) (t : Terminal) (l : Layout) :
    (cons front t l).terminals = t :: l.terminals := rfl

theorem EndsInString.cons {l : Layout} (h : l.EndsInString) (front : Blanks) (t : Terminal) :
    (cons front t l).EndsInString := by
  obtain ⟨literal, hlast⟩ := h
  refine ⟨literal, ?_⟩
  simp [Layout.cons, List.getLast?_cons, hlast]

theorem Covers.cons {l : Layout} {cs : List Char} (h : l.Covers cs) (front : Blanks)
    (t : Terminal) : (cons front t l).Covers (front.1 ++ (t.lexeme ++ cs)) := by
  rcases h with rfl | ⟨hends, htext⟩
  · exact .inl (text_cons front t l).symm
  · refine .inr ⟨hends.cons front t, ?_⟩
    rw [text_cons, ← htext]
    simp

end Layout

/-! ## Nothing is lost -/

theorem TokenKind.ne_string_of_spelling {kind : TokenKind} {word : String}
    (h : kind.spelling? = some word) : kind ≠ .string := by
  rintro rfl
  simp [TokenKind.spelling?] at h

theorem TokenKind.ofWord_ne_string (word : String) : ofWord word ≠ .string := by
  unfold ofWord
  cases h : ofKeyword? word with
  | none => simp
  | some kind => exact ne_string_of_spelling (spelling?_of_keyword h)

namespace Lexeme

theorem text_eq_lexeme {l : Lexeme} (hkind : l.kind ≠ .string) (hliteral : l.literal = l.text) :
    l.text = l.terminal.lexeme := by
  simp [Lexeme.terminal, Terminal.lexeme, hkind, hliteral]

theorem scan_text (c : Char) (cs : List Char) :
    (scan c cs).text = (scan c cs).terminal.lexeme ∨
      (scan c cs).kind = .string ∧ (scan c cs).rest = [] ∧
        (scan c cs).text ++ ['"'] = (scan c cs).terminal.lexeme := by
  unfold scan
  split
  · exact .inl (text_eq_lexeme (by simp) rfl)
  · exact .inl (text_eq_lexeme (by simp) rfl)
  · unfold string
    split
    -- The text ends before the string does.
    · exact .inr ⟨rfl, rfl, by simp [Lexeme.terminal, Terminal.lexeme]⟩
    · rename_i quote rest hdrop
      have hquote : quote = '"' := by
        have hhead := List.head?_dropWhile_not inString cs
        rw [hdrop] at hhead
        simpa [inString] using hhead
      left
      simp [Lexeme.terminal, Terminal.lexeme, hquote]
  · left
    split
    · rename_i kind hkind
      have hspelling := TokenKind.spelling?_of_symbol hkind
      exact text_eq_lexeme (TokenKind.ne_string_of_spelling hspelling) rfl
    · split
      · exact text_eq_lexeme (TokenKind.ofWord_ne_string _) rfl
      · split
        · exact text_eq_lexeme (by simp [run]) rfl
        · exact text_eq_lexeme (by simp) rfl

end Lexeme

theorem Cursor.exists_layout (s : Cursor) :
    ∃ l : Layout, l.terminals = s.tokens.map Token.terminal ∧ l.Covers s.rest := by
  have hfront := Blanks.ofText_append_dropWhile s.rest
  cases hs : s.rest.dropWhile isBlank with
  | nil =>
    rw [hs, List.append_nil] at hfront
    refine ⟨.blank (.ofText s.rest), ?_, .inl ?_⟩
    · rw [Cursor.tokens_eq_nil hs]
      rfl
    · rw [Layout.text_blank, hfront]
  | cons c cs =>
    have hlen := Cursor.next_shorter hs
    obtain ⟨hterminal, hrest⟩ := Cursor.next_eq hs
    rw [hs, ← Lexeme.scan_text_append_rest c cs] at hfront
    rw [Cursor.tokens_eq_cons hs, List.map_cons, hterminal]
    rcases Lexeme.scan_text c cs with htext | ⟨hkind, hnil, htext⟩
    · obtain ⟨l, hterminals, hcovers⟩ := s.next.2.exists_layout
      refine ⟨.cons (.ofText s.rest) (Lexeme.scan c cs).terminal l, ?_, ?_⟩
      · rw [Layout.terminals_cons, hterminals]
      · have hcons := hcovers.cons (.ofText s.rest) (Lexeme.scan c cs).terminal
        rw [hrest, ← htext, hfront] at hcons
        exact hcons
    · -- Behind a string without a closing quote there is nothing.
      rw [hnil, List.append_nil] at hfront
      refine ⟨.cons (.ofText s.rest) (Lexeme.scan c cs).terminal (.blank .none), ?_, .inr ⟨?_, ?_⟩⟩
      · rw [Cursor.tokens_eq_nil (s := s.next.2) (by rw [hrest, hnil]; rfl)]
        rfl
      · refine ⟨String.ofList (Lexeme.scan c cs).literal, ?_⟩
        simp [Layout.cons, Layout.blank, Lexeme.terminal, hkind]
      · calc s.rest ++ ['"'] = (Blanks.ofText s.rest).1 ++ (Lexeme.scan c cs).text ++ ['"'] := by
              rw [hfront]
          _ = (Layout.cons (.ofText s.rest) (Lexeme.scan c cs).terminal (.blank .none)).text := by
              rw [Layout.text_cons, Layout.text_blank, ← htext]
              simp [Blanks.none]
termination_by s.rest.length

/-! ## Asking for one token after another -/

theorem Cursor.next_eq_end {s : Cursor} (h : s.rest.dropWhile isBlank = []) :
    s.next = (.endOfInput s.endPosition, ⟨[], s.endPosition⟩) := by
  have hblanks := Blanks.ofText_append_dropWhile s.rest
  rw [h, List.append_nil] at hblanks
  have hs : s.skipBlanks = ⟨[], s.endPosition⟩ := by
    rw [Cursor.skipBlanks, h, Cursor.endPosition]
    exact congrArg (fun cs => Cursor.mk [] (s.position.advanceBy cs)) hblanks
  rw [Cursor.next, hs]

theorem Cursor.endPosition_next (s : Cursor) : s.next.2.endPosition = s.endPosition := by
  cases h : s.rest.dropWhile isBlank with
  | nil =>
    rw [Cursor.next_eq_end h]
    rfl
  | cons c cs =>
    calc s.next.2.endPosition
        = ((s.position.advanceBy (s.rest.takeWhile isBlank)).advanceBy
            (Lexeme.scan c cs).text).advanceBy (Lexeme.scan c cs).rest := by
          rw [Cursor.next_eq_scan h]
          rfl
      _ = s.position.advanceBy (s.rest.takeWhile isBlank ++ s.rest.dropWhile isBlank) := by
          rw [← Position.advanceBy_append, Lexeme.scan_text_append_rest,
            ← Position.advanceBy_append, h]
      _ = s.endPosition := by
          rw [List.takeWhile_append_dropWhile, Cursor.endPosition]

namespace Lexer

/-- Asked for one token after another, the lexer gives these and then nothing any more. -/
def Yields (l : Lexer) (ts : List Token) : Prop :=
  ∀ n, l.answers (List.replicate n .next) =
    (ts.map some).take n ++ List.replicate (n - ts.length) none

theorem yields_nil (s : Cursor) : (Lexer.mk s true).Yields [] := by
  intro n
  induction n with
  | zero => rfl
  | succ n ih =>
    have hanswer : (Lexer.mk s true).answer .next = (none, ⟨s, true⟩) := by
      simp [answer, next?]
    simp only [List.replicate_succ, answers, hanswer, ih]
    simp [List.replicate_succ]

theorem yields_cons {s : Cursor} {ts : List Token}
    (h : (Lexer.mk s.next.2 (s.next.1.kind = .eof)).Yields ts) :
    (Lexer.mk s false).Yields (s.next.1 :: ts) := by
  intro n
  cases n with
  | zero => simp [answers]
  | succ n =>
    have hanswer : (Lexer.mk s false).answer .next =
        (some s.next.1, ⟨s.next.2, s.next.1.kind = .eof⟩) := by
      simp [answer, next?]
    simp only [List.replicate_succ, answers, hanswer, h n]
    simp

theorem yields_tokens (s : Cursor) :
    (Lexer.mk s false).Yields (s.tokens ++ [.endOfInput s.endPosition]) := by
  cases h : s.rest.dropWhile isBlank with
  | nil =>
    have hnext := Cursor.next_eq_end h
    have hlast : (Lexer.mk s.next.2 (s.next.1.kind = .eof)).Yields [] := by
      rw [hnext]
      exact yields_nil _
    have hyields := yields_cons hlast
    rw [hnext] at hyields
    rw [Cursor.tokens_eq_nil h]
    exact hyields
  | cons c cs =>
    have hlen := Cursor.next_shorter h
    have hmem : s.next.1 ∈ s.tokens := by
      rw [Cursor.tokens_eq_cons h]
      simp
    -- A token is not the end of the input, so the lexer is not finished with it.
    have hkind : s.next.1.kind ≠ .eof := (Cursor.valid_of_mem_tokens hmem).kind_ne_eof
    have hrest := yields_tokens s.next.2
    rw [Cursor.endPosition_next] at hrest
    rw [Cursor.tokens_eq_cons h]
    apply yields_cons
    simpa [hkind] using hrest
termination_by s.rest.length

end Lexer

/-- The lexer stops, and the lexemes of its tokens, with the blanks around them, are the text. -/
theorem tokenize_lossless (source : String) :
    (Lexer.ofSource source).Yields (tokenize source) ∧
      ∃ ts p, tokenize source = ts ++ [.endOfInput p] ∧ (∀ t ∈ ts, t.kind ≠ .eof) ∧
        ∃ l : Layout, l.terminals = ts.map Token.terminal ∧
          (source.toList = l.text ∨ l.EndsInString ∧ source.toList ++ ['"'] = l.text) := by
  refine ⟨Lexer.yields_tokens _, _, _, rfl, fun t ht => ?_, ?_⟩
  · exact (Cursor.valid_of_mem_tokens ht).kind_ne_eof
  · exact (Cursor.ofSource source).exists_layout

/-! ## Reading what was written -/

theorem terminals_blanks (b : Blanks) (k : List Char) : terminals (b.1 ++ k) = terminals k := by
  obtain ⟨cs, hcs⟩ := b
  induction cs with
  | nil => rfl
  | cons c cs ih =>
    obtain ⟨hc, hcs⟩ := List.forall_mem_cons.mp hcs
    rw [List.cons_append, terminals_blank _ hc, ih hcs]

/-- Blanks come next, or nothing at all. -/
def StartsBlank (k : List Char) : Prop := ∀ c ∈ k.head?, isBlank c

theorem StartsBlank.head_not {k : List Char} (hk : StartsBlank k) {p : Char → Bool}
    (hp : ∀ {c}, p c → isBlank c = false) : ∀ c ∈ k.head?, p c = false := by
  intro c hc
  rw [← Bool.not_eq_true]
  intro hpc
  have hblank := hk c hc
  rw [hp hpc] at hblank
  contradiction

theorem TokenKind.spelling_cases {kind : TokenKind} {word : String}
    (h : kind.spelling? = some word) :
    ofKeyword? word = some kind ∨
      (∃ c, word = String.ofList [c] ∧ ofSymbol? c = some kind) ∨
      (kind, word) = (.equal, "==") ∨ (kind, word) = (.notEqual, "!=") := by
  cases kind with
  | illegal | eof | identifier | integer | string => cases h
  | functionWord | letWord | trueWord | falseWord | ifWord | elseWord | returnWord =>
    cases h
    exact .inl rfl
  | equal =>
    cases h
    exact .inr (.inr (.inl rfl))
  | notEqual =>
    cases h
    exact .inr (.inr (.inr rfl))
  | _ =>
    cases h
    exact .inr (.inl ⟨_, rfl, rfl⟩)

theorem Lexeme.scan_illegal {c : Char} (cs : List Char) (h : isIllegal c) :
    scan c cs = ⟨.illegal, [c], [c], cs⟩ := by
  simp only [isIllegal, Bool.and_eq_true, Bool.not_eq_true', bne_iff_ne, Option.isNone_iff_eq_none]
    at h
  obtain ⟨⟨⟨⟨-, hquote⟩, hsymbol⟩, hletter⟩, hdigit⟩ := h
  unfold scan
  split
  · cases hsymbol
  · cases hsymbol
  · exact absurd rfl hquote
  · simp [hsymbol, hletter, hdigit]

theorem Terminal.lexeme_eq_literal {t : Terminal} (h : t.kind ≠ .string) :
    t.lexeme = t.literal.toList := if_neg h

theorem terminals_keyword {word : String} {kind : TokenKind} {k : List Char}
    (h : TokenKind.ofKeyword? word = some kind) (hk : StartsBlank k) :
    terminals (word.toList ++ k) = ⟨kind, word⟩ :: terminals k := by
  have hall : ∀ p ∈ TokenKind.keywords, p.1.toList ≠ [] ∧ p.1.toList.all isLetter := by decide
  obtain ⟨before, after, hkeywords, -⟩ := List.lookup_eq_some_iff.mp h
  obtain ⟨hne, hletters⟩ := hall (word, kind) (by rw [hkeywords]; simp)
  rw [terminals_word k hne (List.all_eq_true.mp hletters) (hk.head_not not_isBlank_of_isLetter)]
  simp [Terminal.word, TokenKind.ofWord, h]

theorem terminals_lexeme {t : Terminal} (ht : t.Valid) {k : List Char} (hk : StartsBlank k) :
    terminals (t.lexeme ++ k) = t :: terminals k := by
  obtain ⟨kind, literal⟩ := t
  have hspelled : kind.spelling? = some literal →
      terminals (Terminal.lexeme ⟨kind, literal⟩ ++ k) = ⟨kind, literal⟩ :: terminals k := by
    intro h
    rw [Terminal.lexeme_eq_literal (TokenKind.ne_string_of_spelling h)]
    rcases TokenKind.spelling_cases h with hword | ⟨c, rfl, hsymbol⟩ | heq | heq
    · exact terminals_keyword hword hk
    -- A blank is no equals sign, so a symbol of one character stays one.
    · have hnot : k.head? = some '=' → c ≠ '=' ∧ c ≠ '!' := by
        intro hhead
        cases hk '=' hhead
      rw [String.toList_ofList, List.singleton_append, terminals_symbol k hsymbol hnot,
        Terminal.symbol, hsymbol]
      rfl
    · cases heq
      exact terminals_scan ('=' :: k) rfl
    · cases heq
      exact terminals_scan ('=' :: k) rfl
  cases kind with
  | identifier =>
    obtain ⟨hne, hletters, hkeyword⟩ := ht
    have hread := terminals_word k hne hletters (hk.head_not not_isBlank_of_isLetter)
    simpa [Terminal.lexeme, Terminal.word, TokenKind.ofWord, hkeyword] using hread
  | integer => exact terminals_digits k ht.1 ht.2 (hk.head_not not_isBlank_of_isDigit)
  | string => simpa [Terminal.lexeme] using terminals_string k ht
  | illegal =>
    obtain ⟨c, rfl, hc⟩ := ht
    have hblank : isBlank c = false := by
      simp only [isIllegal, Bool.and_eq_true, Bool.not_eq_true'] at hc
      exact hc.1.1.1.1
    have hread := terminals_scan k hblank
    rw [Lexeme.scan_illegal k hc] at hread
    simpa [Terminal.lexeme, Lexeme.terminal] using hread
  | eof => cases ht
  | _ => exact hspelled ht

theorem Layout.startsBlank_text {front : Blanks} {p : Terminal × Blanks}
    {row : List (Terminal × Blanks)} (h : Layout.Spaced ⟨front, p :: row⟩) :
    StartsBlank (Layout.text ⟨p.2, row⟩) := by
  obtain ⟨t, ⟨blanks, hblanks⟩⟩ := p
  intro c hc
  cases blanks with
  | cons b blanks =>
    have hb : c = b := by simpa [Layout.text, eq_comm] using hc
    exact hblanks c (by simp [hb])
  | nil =>
    -- Without blanks behind it, this has to be the last terminal.
    cases row with
    | nil => simp [Layout.text] at hc
    | cons q row =>
      have hne := h (t, ⟨[], hblanks⟩) (by simp)
      exact absurd rfl hne

theorem Layout.terminals_text (l : Layout) (hvalid : ∀ t ∈ l.terminals, t.Valid)
    (hspaced : l.Spaced) : Monkey.terminals l.text = l.terminals := by
  obtain ⟨front, row⟩ := l
  induction row generalizing front with
  | nil =>
    have hblank : Layout.text ⟨front, []⟩ = front.1 ++ [] := rfl
    rw [hblank, terminals_blanks, terminals_nil]
    rfl
  | cons p row ih =>
    have htext : Layout.text ⟨front, p :: row⟩ =
        front.1 ++ (p.1.lexeme ++ Layout.text ⟨p.2, row⟩) :=
      text_cons front p.1 ⟨p.2, row⟩
    have hrest : Layout.Spaced ⟨p.2, row⟩ := by
      intro q hq
      cases row with
      | nil => cases hq
      | cons r row => exact hspaced q (List.mem_cons_of_mem p hq)
    obtain ⟨hp, hrow⟩ := List.forall_mem_cons.mp hvalid
    -- The lexeme ends where the blanks behind it start.
    rw [htext, terminals_blanks, terminals_lexeme hp (startsBlank_text hspaced), ih p.2 hrow hrest]
    rfl

/-- Valid terminals with blanks between them are read back one after the other, and then the end. -/
theorem Layout.yields_text (l : Layout) (hvalid : ∀ t ∈ l.terminals, t.Valid) (hspaced : l.Spaced) :
    ∃ ts, (Lexer.ofSource (String.ofList l.text)).Yields ts ∧
      ts.map Token.terminal = l.terminals ++ [.endOfInput] := by
  refine ⟨tokenize (String.ofList l.text), Lexer.yields_tokens _, ?_⟩
  rw [tokenize, List.map_append, terminals_eq, Cursor.ofSource, String.toList_ofList,
    l.terminals_text hvalid hspaced]
  rfl

/-- A name that starts like a keyword, signs that would belong together without blanks, a string
with a blank and a character that nothing starts with. -/
def crowded : Layout where
  front := .none
  row := [(⟨.letWord, "let"⟩, .space), (⟨.identifier, "lettuce"⟩, .space), (⟨.assign, "="⟩, .space),
    (⟨.bang, "!"⟩, .space), (⟨.assign, "="⟩, .space), (⟨.equal, "=="⟩, .space),
    (⟨.string, "a b"⟩, .space), (⟨.illegal, "@"⟩, .space), (⟨.integer, "007"⟩, .none)]

theorem crowded_valid : ∀ t ∈ crowded.terminals, t.Valid := by
  have hletters : ∀ c ∈ "lettuce".toList, isLetter c := List.all_eq_true.mp (by decide)
  have hname : IsName "lettuce" := ⟨by decide, hletters, rfl⟩
  have hdigits : ∀ c ∈ "007".toList, c.isDigit := List.all_eq_true.mp (by decide)
  have hstring : ∀ c ∈ "a b".toList, inString c := List.all_eq_true.mp (by decide)
  simp only [Layout.terminals, crowded, List.map_cons, List.map_nil, List.forall_mem_cons]
  exact ⟨rfl, hname, rfl, rfl, rfl, rfl, hstring, ⟨'@', rfl, rfl⟩, ⟨by decide, hdigits⟩,
    List.forall_mem_nil _⟩

theorem Layout.yields_text_crowded :
    String.ofList crowded.text = "let lettuce = ! = == \"a b\" @ 007" ∧
      (∀ t ∈ crowded.terminals, t.Valid) ∧ crowded.Spaced ∧
      ∃ ts, (Lexer.ofSource "let lettuce = ! = == \"a b\" @ 007").Yields ts ∧
        ts.map Token.terminal = crowded.terminals ++ [.endOfInput] := by
  have htext : String.ofList crowded.text = "let lettuce = ! = == \"a b\" @ 007" := by decide
  have hspaced : crowded.Spaced := by
    simp [Layout.Spaced, crowded, Blanks.space]
  have hyields := Layout.yields_text crowded crowded_valid hspaced
  rw [htext] at hyields
  exact ⟨htext, crowded_valid, hspaced, hyields⟩

end Monkey
