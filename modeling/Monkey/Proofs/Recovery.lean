import Monkey.Proofs.SideBySide

/-!
# Recovery at semicolons

A semicolon behind a text ends its last lexeme and starts no other one, unless the text ends inside
a string. So the tokens of `g;h` are those of `g`, a semicolon and those of `h`. Where `g` starts no
block, the parser then begins a new statement behind that semicolon, whatever errors it found
before.
-/

namespace Monkey

/-! ## Texts that end inside a string -/

namespace Cursor

/-- Behind some of its tokens the text goes on with a quote, and no other quote closes it. -/
def EndsInString (s : Cursor) : Prop :=
  ∃ n body, (s.drop n).rest.dropWhile isBlank = '"' :: body ∧ '"' ∉ body

theorem not_endsInString_of_blank {s : Cursor} (h : s.rest.dropWhile isBlank = []) :
    ¬ s.EndsInString := by
  rintro ⟨n, body, hbody, -⟩
  have hnil : ∀ n (s : Cursor), s.rest.dropWhile isBlank = [] →
      (s.drop n).rest.dropWhile isBlank = [] := by
    intro n
    induction n with
    | zero => exact fun _ hs => hs
    | succ n ih =>
      intro s hs
      apply ih
      rw [next_eq_end hs]
      rfl
  rw [hnil n s h] at hbody
  cases hbody

theorem endsInString_iff_next {s : Cursor} {c : Char} {cs : List Char}
    (h : s.rest.dropWhile isBlank = c :: cs) :
    s.EndsInString ↔ (c = '"' ∧ '"' ∉ cs) ∨ s.next.2.EndsInString := by
  constructor
  · rintro ⟨n, body, hbody, hquote⟩
    cases n with
    | zero =>
      obtain ⟨rfl, rfl⟩ := List.cons.inj (h.symm.trans hbody)
      exact .inl ⟨rfl, hquote⟩
    | succ n => exact .inr ⟨n, body, hbody, hquote⟩
  · rintro (⟨rfl, hquote⟩ | ⟨n, body, hbody, hquote⟩)
    · exact ⟨0, cs, h, hquote⟩
    · exact ⟨n + 1, body, hbody, hquote⟩

end Cursor

theorem count_quotes_eq_zero {p : Char → Bool} {cs : List Char} (h : ∀ c ∈ cs, p c)
    (hp : p '"' = false := by rfl) : cs.count '"' = 0 := by
  rw [List.count_eq_zero]
  intro hmem
  have hquote := h '"' hmem
  rw [hp] at hquote
  cases hquote

theorem Terminal.Valid.count_quotes {t : Terminal} (h : t.Valid) :
    t.lexeme.count '"' % 2 = 0 := by
  obtain ⟨kind, literal⟩ := t
  cases kind with
  | identifier => exact congrArg (· % 2) (count_quotes_eq_zero h.2.1)
  | integer => exact congrArg (· % 2) (count_quotes_eq_zero h.2)
  | string =>
    have hbody : literal.toList.count '"' = 0 := count_quotes_eq_zero h
    simp [Terminal.lexeme, hbody]
  | illegal =>
    obtain ⟨c, rfl, hc⟩ := h
    have hall : ∀ d ∈ [c], isIllegal d := List.forall_mem_singleton.mpr hc
    simpa [Terminal.lexeme] using congrArg (· % 2) (count_quotes_eq_zero hall)
  | eof => cases h
  | _ =>
    cases h
    decide

namespace Lexeme

theorem scan_text_of_closed {c : Char} {cs : List Char} (hc : isBlank c = false)
    (hclosed : c = '"' → '"' ∈ cs) : (scan c cs).text = (scan c cs).terminal.lexeme := by
  refine (scan_text c cs).resolve_right ?_
  rintro ⟨hkind, hrest, htext⟩
  have hbody : ∀ d ∈ (scan c cs).literal, inString d := by
    have hvalid := scan_valid c cs hc
    simpa [Terminal.Valid, terminal, hkind] using hvalid
  have hall := scan_text_append_rest c cs
  rw [hrest, List.append_nil] at hall
  rw [hall] at htext
  simp only [Terminal.lexeme, terminal, hkind, if_true, String.toList_ofList, List.cons_append,
    List.cons.injEq, List.append_left_inj] at htext
  obtain ⟨hquote, hcs⟩ := htext
  rw [← hcs] at hbody
  -- The closing quote would be a character inside the string.
  cases hbody '"' (hclosed hquote)

end Lexeme

/-- A text ends inside a string if the number of its quotes is odd. -/
theorem Cursor.endsInString_iff (s : Cursor) : s.EndsInString ↔ s.rest.count '"' % 2 = 1 := by
  have hfront := Blanks.ofText_append_dropWhile s.rest
  have hblanks := count_quotes_eq_zero (Blanks.ofText s.rest).2
  have hcount : s.rest.count '"' = (s.rest.dropWhile isBlank).count '"' := by
    rw [← hfront, List.count_append, hblanks, Nat.zero_add, hfront]
  cases hs : s.rest.dropWhile isBlank with
  | nil =>
    rw [hcount, hs]
    simpa using not_endsInString_of_blank hs
  | cons c cs =>
    have hlen := next_shorter hs
    rw [endsInString_iff_next hs, hcount, hs]
    by_cases hopen : c = '"' ∧ '"' ∉ cs
    · obtain ⟨rfl, hquote⟩ := hopen
      simp [hquote, List.count_eq_zero.mpr hquote]
    · have hclosed : c = '"' → '"' ∈ cs := Decidable.not_and_not_right.mp hopen
      have hc := not_isBlank_of_dropWhile hs
      have heven := (Lexeme.scan_valid c cs hc).count_quotes
      rw [← Lexeme.scan_text_of_closed hc hclosed] at heven
      have hnext := s.next.2.endsInString_iff
      rw [(next_eq hs).2] at hnext
      rw [or_iff_right hopen, hnext, ← Lexeme.scan_text_append_rest c cs, List.count_append]
      omega
termination_by s.rest.length

instance (s : Cursor) : Decidable s.EndsInString :=
  decidable_of_iff _ s.endsInString_iff.symm

/-! ## A semicolon behind a text -/

theorem takeWhile_append_stop {p : Char → Bool} (cs k : List Char) {d : Char} (hd : p d = false) :
    (cs ++ d :: k).takeWhile p = cs.takeWhile p ∧
      (cs ++ d :: k).dropWhile p = cs.dropWhile p ++ d :: k := by
  induction cs with
  | nil => simp [hd]
  | cons c cs ih =>
    obtain ⟨htake, hdrop⟩ := ih
    by_cases hc : p c
    · simp [hc, htake, hdrop]
    · simp [hc]

namespace Lexeme

theorem run_append (p : Char → Bool) (kind : List Char → TokenKind) (cs k : List Char)
    (hp : p ';' = false := by rfl) :
    (run p kind (cs ++ ';' :: k)).terminal = (run p kind cs).terminal ∧
      (run p kind (cs ++ ';' :: k)).rest = (run p kind cs).rest ++ ';' :: k := by
  obtain ⟨htake, hdrop⟩ := takeWhile_append_stop cs k hp
  simp only [run, terminal, htake, hdrop]
  exact ⟨trivial, trivial⟩

theorem scan_append {c : Char} {cs : List Char} (hc : isBlank c = false)
    (hclosed : c = '"' → '"' ∈ cs) (k : List Char) :
    (scan c (cs ++ ';' :: k)).terminal = (scan c cs).terminal ∧
      (scan c (cs ++ ';' :: k)).rest = (scan c cs).rest ++ ';' :: k := by
  by_cases hquote : c = '"'
  · subst hquote
    obtain ⟨body, behind, rfl, hbody⟩ := List.eq_append_cons_of_mem (hclosed rfl)
    have hin : ∀ d ∈ body, inString d := by
      intro d hd
      simp only [inString, bne_iff_ne]
      rintro rfl
      exact hbody hd
    rw [List.append_assoc, List.cons_append, (scan_string _ hin).1, (scan_string _ hin).2,
      (scan_string _ hin).1, (scan_string _ hin).2]
    exact ⟨rfl, rfl⟩
  -- Words and numbers end at the semicolon.
  by_cases hletter : isLetter c
  · rw [scan_letter _ hletter, scan_letter _ hletter, ← List.cons_append]
    exact run_append _ _ _ _
  by_cases hdigit : c.isDigit
  · rw [scan_digit _ hdigit, scan_digit _ hdigit, ← List.cons_append]
    exact run_append _ _ _ _
  cases hsymbol : TokenKind.ofSymbol? c with
  | none =>
    have hillegal : isIllegal c := by
      simp [isIllegal, hc, hquote, hsymbol, hletter, hdigit]
    rw [scan_illegal _ hillegal, scan_illegal _ hillegal]
    exact ⟨rfl, rfl⟩
  | some kind =>
    by_cases hsigns : cs.head? = some '=' → c ≠ '=' ∧ c ≠ '!'
    · have hbehind : (cs ++ ';' :: k).head? = some '=' → c ≠ '=' ∧ c ≠ '!' := by
        cases cs with
        | nil => simp
        | cons d cs => exact hsigns
      rw [scan_symbol hsymbol hsigns, scan_symbol hsymbol hbehind]
      exact ⟨rfl, rfl⟩
    · -- Both signs of `==` or `!=` stand in front of the semicolon.
      obtain ⟨hhead, hsign⟩ := Classical.not_imp.mp hsigns
      obtain ⟨behind, rfl⟩ := List.head?_eq_some_iff.mp hhead
      rcases Decidable.or_iff_not_not_and_not.mpr hsign with rfl | rfl
      · exact ⟨rfl, rfl⟩
      · exact ⟨rfl, rfl⟩

end Lexeme

/-- A semicolon divides a text, unless it stands in a string. -/
theorem Cursor.terminals_append (s : Cursor) (h : ¬ s.EndsInString) (k : List Char) :
    terminals (s.rest ++ ';' :: k) = terminals s.rest ++ .symbol ';' :: terminals k := by
  have hfront := Blanks.ofText_append_dropWhile s.rest
  generalize Blanks.ofText s.rest = blanks at hfront
  cases hs : s.rest.dropWhile isBlank with
  | nil =>
    rw [hs] at hfront
    rw [← hfront, terminals_blanks, List.append_assoc, terminals_blanks, terminals_nil]
    exact terminals_symbol k rfl (by simp)
  | cons c cs =>
    have hlen := next_shorter hs
    rw [endsInString_iff_next hs, not_or, Decidable.not_and_not_right] at h
    obtain ⟨hclosed, hnext⟩ := h
    have hc := not_isBlank_of_dropWhile hs
    obtain ⟨hterminal, hrest⟩ := Lexeme.scan_append hc hclosed k
    have ih := s.next.2.terminals_append hnext k
    rw [(next_eq hs).2] at ih
    rw [hs] at hfront
    rw [← hfront, List.append_assoc, terminals_blanks, terminals_blanks, List.cons_append,
      terminals_scan _ hc, terminals_scan _ hc, hterminal, hrest, ih, List.cons_append]
termination_by s.rest.length

/-! ## Whole sources -/

theorem Cursor.terminals_joined {g : String} (hstring : ¬ (Cursor.ofSource g).EndsInString)
    (k : String) : (Cursor.ofSource (g ++ ";" ++ k)).tokens.map Token.terminal =
      (Cursor.ofSource g).tokens.map Token.terminal ++
        .symbol ';' :: (Cursor.ofSource k).tokens.map Token.terminal := by
  have htext : (Cursor.ofSource (g ++ ";" ++ k)).rest = g.toList ++ ';' :: k.toList := by
    simp [ofSource]
  rw [terminals_eq, terminals_eq, terminals_eq, htext]
  exact (Cursor.ofSource g).terminals_append hstring k.toList

theorem closed_of_terminals {ts us : List Token}
    (h : us.map Token.terminal = ts.map Token.terminal ++ [.symbol ';'])
    (hbraces : ∀ t ∈ ts, t.kind ≠ .leftBrace) : Closed us := by
  have hkinds := congrArg (List.map Terminal.kind) h
  simp only [List.map_append, List.map_map] at hkinds
  constructor
  · have hlast := congrArg List.getLast? hkinds
    rw [List.getLast?_map, List.map_singleton, List.getLast?_concat] at hlast
    exact hlast
  · intro u hu hk
    have hmem : u.kind ∈ ts.map (Terminal.kind ∘ Token.terminal) ++ [.semicolon] :=
      hkinds ▸ List.mem_map_of_mem (f := Terminal.kind ∘ Token.terminal) hu
    rw [hk] at hmem
    rcases List.mem_append.mp hmem with hts | hsemicolon
    · obtain ⟨t, ht, hkind⟩ := List.mem_map.mp hts
      exact hbraces t ht hkind
    · cases List.mem_singleton.mp hsemicolon

/-- However malformed the text in front of a semicolon is, what follows is parsed as on its own. -/
theorem parse_resumes (g h : String) (hbraces : ∀ t ∈ tokenize g, t.kind ≠ .leftBrace)
    (hstring : ¬ (Cursor.ofSource g).EndsInString) :
    (parse (g ++ ";" ++ h)).program.statements =
        (parse (g ++ ";")).program.statements ++ (parse h).program.statements ∧
      (parse (g ++ ";" ++ h)).messages = (parse (g ++ ";")).messages ++ (parse h).messages := by
  have hfirst : (Cursor.ofSource (g ++ ";")).tokens.map Token.terminal =
      (Cursor.ofSource g).tokens.map Token.terminal ++ [.symbol ';'] := by
    have hempty := Cursor.terminals_joined hstring ""
    rw [String.append_empty, Cursor.tokens_eq_nil (s := .ofSource "") rfl] at hempty
    exact hempty
  -- A semicolon that is not inside braces ends the statement, whatever came before.
  have hclosed : Closed (Cursor.ofSource (g ++ ";")).tokens :=
    closed_of_terminals hfirst fun t ht => hbraces t (List.mem_append_left _ ht)
  have hresumes : Resumes ((Cursor.ofSource h).tokens.map Token.terminal)
      (Cursor.ofSource (g ++ ";" ++ h)).tokens (Cursor.ofSource (g ++ ";")).tokens := by
    refine ⟨?_, .inr (.inr hclosed)⟩
    rw [Cursor.terminals_joined hstring h, hfirst, List.append_assoc]
    rfl
  exact Parser.statements_resume _ _ _ hresumes

/-- A binding without its sign, a parenthesis that stays open, and a semicolon in a string. -/
def brokenBinding : String := "let x 5 (\"a;b\" +"

theorem parse_resumes_brokenBinding :
    (∀ t ∈ tokenize brokenBinding, t.kind ≠ .leftBrace) ∧
      ¬ (Cursor.ofSource brokenBinding).EndsInString ∧
      (parse (brokenBinding ++ ";" ++ "let y = 6; y)")).program.statements =
        (parse (brokenBinding ++ ";")).program.statements ++
          (parse "let y = 6; y)").program.statements ∧
      (parse (brokenBinding ++ ";" ++ "let y = 6; y)")).messages =
        (parse (brokenBinding ++ ";")).messages ++ (parse "let y = 6; y)").messages := by
  have hbraces : ∀ t ∈ tokenize brokenBinding, t.kind ≠ .leftBrace := by decide +kernel
  have hstring : ¬ (Cursor.ofSource brokenBinding).EndsInString := by decide
  exact ⟨hbraces, hstring, parse_resumes brokenBinding "let y = 6; y)" hbraces hstring⟩

end Monkey
