import Mathlib.Data.List.DropRight
import Monkey.Proofs.Places
import Monkey.Proofs.Recovery

/-!
# Exact spans

A place in a text is a matter of counting: the newlines in front of it give the line, the characters
behind the last of them give the column. Tokens start where this count says, and so does the end of
the input. They end there too, but for a string without a closing quote whose last character is a
newline: its end is given as the place of the end of the input.
-/

namespace Monkey

/-! ## Counting lines and columns -/

namespace Position

/-- The place just behind a text. -/
def behind (text : List Char) : Position :=
  ⟨1 + text.count '\n', 1 + (text.rtakeWhile (· != '\n')).length⟩

theorem behind_concat (text : List Char) (c : Char) :
    behind (text ++ [c]) = (behind text).advance c := by
  unfold behind advance
  by_cases hc : c = '\n'
  · simp [hc, Nat.add_assoc]
  · simp [hc, Nat.add_assoc]

theorem advanceBy_behind (before text : List Char) :
    (behind before).advanceBy text = behind (before ++ text) := by
  induction text generalizing before with
  | nil => simp
  | cons c text ih =>
    rw [advanceBy_cons, ← behind_concat, ih]
    simp

theorem behind_le (before text : List Char) : behind before ≤ behind (before ++ text) := by
  rw [← advanceBy_behind]
  exact le_advanceBy _ _

theorem behind_lt (before : List Char) {text : List Char} (h : text ≠ []) :
    behind before < behind (before ++ text) := by
  rw [← advanceBy_behind]
  exact lt_advanceBy _ h

theorem back_behind_concat (text : List Char) (c : Char) :
    (behind (text ++ [c])).back = if c = '\n' then behind (text ++ [c]) else behind text := by
  rw [behind_concat]
  unfold back advance
  split
  · simp
  · simp [behind]

theorem extent_behind_lt {text before : List Char} (h : text.length < 4294967295)
    (hbefore : before <+: text) : (behind before).extent < 4294967296 := by
  have hlength := hbefore.length_le
  have hextent := extent_advanceBy (behind []) before
  have hstart : (behind []).extent = 1 := rfl
  rw [advanceBy_behind, List.nil_append] at hextent
  omega

end Position

/-! ## Tokens in their text -/

/-- A token and the characters it was read from, with what is in front of them in the text and what
is behind them. They spell the token; only at the end of the text may a closing quote be missing. -/
structure Occurrence (source : List Char) where
  token : Token
  before : List Char
  text : List Char
  after : List Char
  whole : before ++ text ++ after = source
  valid : token.terminal.Valid
  nonempty : text ≠ []
  spelled : text = token.terminal.lexeme ∨
    token.kind = .string ∧ after = [] ∧ text ++ ['"'] = token.terminal.lexeme

namespace Occurrence

variable {source : List Char}

/-- The place of the first character. -/
def firstPlace (o : Occurrence source) : Position := .behind o.before

/-- The place of the last character. -/
def lastPlace (o : Occurrence source) : Position := .behind (o.before ++ o.text.dropLast)

/-- Behind what is already read there are blanks, the characters of the first token, blanks again,
and so on to the end of the text. -/
def Cover : List Char → List (Occurrence source) → Prop
  | read, [] => ∃ blanks : Blanks, read ++ blanks.1 = source
  | read, o :: os =>
    (∃ blanks : Blanks, o.before = read ++ blanks.1) ∧ Cover (o.before ++ o.text) os

theorem Cover.isPrefix {read : List Char} {os : List (Occurrence source)} (h : Cover read os) :
    ∀ o ∈ os, read <+: o.before := by
  induction os generalizing read with
  | nil => simp
  | cons o os ih =>
    obtain ⟨⟨blanks, hbefore⟩, hcover⟩ := h
    have hread : read <+: o.before := ⟨blanks.1, hbefore.symm⟩
    rw [List.forall_mem_cons]
    refine ⟨hread, fun p hp => ?_⟩
    exact (hread.trans (List.prefix_append _ _)).trans (ih hcover p hp)

theorem Cover.pairwise {read : List Char} {os : List (Occurrence source)} (h : Cover read os) :
    os.Pairwise fun o p => o.before ++ o.text <+: p.before := by
  induction os generalizing read with
  | nil => exact .nil
  | cons o os ih =>
    obtain ⟨-, hcover⟩ := h
    exact .cons hcover.isPrefix (ih hcover)

theorem before_append_text (o : Occurrence source) :
    o.before ++ o.text = o.before ++ o.text.dropLast ++ [o.text.getLast o.nonempty] := by
  rw [List.append_assoc, List.dropLast_append_getLast]

theorem lastPlace_lt (o : Occurrence source) : o.lastPlace < .behind (o.before ++ o.text) := by
  rw [lastPlace, before_append_text]
  exact Position.behind_lt _ (by simp)

theorem firstPlace_le (o : Occurrence source) : o.firstPlace ≤ o.lastPlace :=
  Position.behind_le _ _

theorem behind_le_source (o : Occurrence source) :
    Position.behind (o.before ++ o.text) ≤ .behind source := by
  have hle := Position.behind_le (o.before ++ o.text) o.after
  rw [o.whole] at hle
  exact hle

end Occurrence

/-- The tokens of a source, with all the text that they were read from. The end of the input stands
just behind it. -/
structure Reading (source : String) where
  occurrences : List (Occurrence source.toList)
  cover : Occurrence.Cover [] occurrences
  tokens : tokenize source =
    occurrences.map Occurrence.token ++ [.endOfInput (.behind source.toList)]

/-! ## The cursor keeps count -/

/-- What a cursor notes down for a token: the place it comes from, and one column back from where it
gets to. -/
def Occurrence.Noted {source : List Char} (o : Occurrence source) : Prop :=
  o.token.span = ⟨o.firstPlace, (Position.behind (o.before ++ o.text)).back⟩

namespace Cursor

variable {source : List Char}

theorem exists_occurrence {s : Cursor} {read cs : List Char} {c : Char}
    (hs : s.rest.dropWhile isBlank = c :: cs) (hread : read ++ s.rest = source)
    (hposition : s.position = .behind read) :
    ∃ o : Occurrence source, o.token = s.next.1 ∧ o.before = read ++ (Blanks.ofText s.rest).1 ∧
      o.Noted ∧ o.before ++ o.text ++ s.next.2.rest = source ∧
      s.next.2.position = .behind (o.before ++ o.text) := by
  obtain ⟨hterminal, hrest⟩ := next_eq hs
  have hfront := Blanks.ofText_append_dropWhile s.rest
  rw [hs, ← Lexeme.scan_text_append_rest c cs] at hfront
  have hwhole : read ++ (Blanks.ofText s.rest).1 ++ (Lexeme.scan c cs).text ++
      (Lexeme.scan c cs).rest = source := by
    rw [← hread, List.append_assoc, List.append_assoc, hfront]
  have hspelled : (Lexeme.scan c cs).text = s.next.1.terminal.lexeme ∨
      s.next.1.kind = .string ∧ (Lexeme.scan c cs).rest = [] ∧
        (Lexeme.scan c cs).text ++ ['"'] = s.next.1.terminal.lexeme := by
    rw [← Token.terminal_kind, hterminal]
    exact Lexeme.scan_text c cs
  have hvalid : s.next.1.terminal.Valid := by
    rw [hterminal]
    exact Lexeme.scan_valid c cs (not_isBlank_of_dropWhile hs)
  refine ⟨⟨s.next.1, _, _, _, hwhole, hvalid, Lexeme.scan_text_ne_nil c cs, hspelled⟩, rfl, rfl, ?_,
    ?_, ?_⟩
  · simp only [Occurrence.Noted, Occurrence.firstPlace, next_eq_scan hs, hposition,
      Position.advanceBy_behind, Blanks.ofText]
  · rw [hrest]
    exact hwhole
  · simp only [next_eq_scan hs, hposition, Position.advanceBy_behind, Blanks.ofText]

theorem exists_occurrences (s : Cursor) (read : List Char) (hread : read ++ s.rest = source)
    (hposition : s.position = .behind read) :
    ∃ os : List (Occurrence source), os.map Occurrence.token = s.tokens ∧
      Occurrence.Cover read os ∧ ∀ o ∈ os, o.Noted := by
  cases hs : s.rest.dropWhile isBlank with
  | nil =>
    have hblanks := Blanks.ofText_append_dropWhile s.rest
    rw [hs, List.append_nil] at hblanks
    refine ⟨[], ?_, ⟨Blanks.ofText s.rest, ?_⟩, List.forall_mem_nil _⟩
    · rw [tokens_eq_nil hs]
      rfl
    · rw [hblanks, hread]
  | cons c cs =>
    have hlen := next_shorter hs
    obtain ⟨o, htoken, hbefore, hnoted, hwhole, hnext⟩ := exists_occurrence hs hread hposition
    obtain ⟨os, htokens, hcover, hall⟩ := exists_occurrences s.next.2 _ hwhole hnext
    refine ⟨o :: os, ?_, ⟨⟨_, hbefore⟩, hcover⟩, List.forall_mem_cons.mpr ⟨hnoted, hall⟩⟩
    rw [List.map_cons, htoken, htokens, tokens_eq_cons hs]
termination_by s.rest.length

end Cursor

/-- Every source has a reading in which the tokens stand where the cursor noted them down. -/
theorem exists_reading (source : String) :
    ∃ r : Reading source, ∀ o ∈ r.occurrences, o.Noted := by
  obtain ⟨os, htokens, hcover, hnoted⟩ :=
    (Cursor.ofSource source).exists_occurrences [] (List.nil_append source.toList) rfl
  have hend : (Cursor.ofSource source).endPosition = .behind source.toList :=
    Position.advanceBy_behind [] source.toList
  exact ⟨⟨os, hcover, by rw [tokenize, htokens, hend]⟩, hnoted⟩

/-! ## Where tokens start -/

/-- Tokens start where their first characters stand, each one further on than the one before. -/
theorem tokenize_starts (source : String) (h : source.length < 4294967295) :
    (∀ before, before <+: source.toList → (Position.behind before).extent < 4294967296) ∧
      (∃ r : Reading source, ∀ o ∈ r.occurrences, o.token.span.first = .behind o.before) ∧
      (tokenize source).Pairwise fun t u => t.span.first < u.span.first := by
  refine ⟨fun before hbefore => ?_, ?_, (Cursor.ofSource source).stream_ascends.1⟩
  · exact Position.extent_behind_lt (by rwa [String.length_toList]) hbefore
  · obtain ⟨r, hnoted⟩ := exists_reading source
    refine ⟨r, fun o ho => ?_⟩
    rw [hnoted o ho]
    rfl

/-- Tabs, a character of two bytes, a string over two lines, a carriage return, an empty line and a
string that the end of the text cuts off. -/
def scattered : String := "let\tπ = \"a\nb\";\r\n\n  x==\"\n"

theorem tokenize_starts_scattered :
    scattered.length < 4294967295 ∧
      (tokenize scattered).map (fun t => (t.span.first.line, t.span.first.column)) =
        [(1, 1), (1, 5), (1, 7), (1, 9), (2, 3), (4, 3), (4, 4), (4, 6), (5, 1)] ∧
      (∀ before, before <+: scattered.toList → (Position.behind before).extent < 4294967296) ∧
      (∃ r : Reading scattered, ∀ o ∈ r.occurrences, o.token.span.first = .behind o.before) ∧
      (tokenize scattered).Pairwise fun t u => t.span.first < u.span.first := by
  have hshort : scattered.length < 4294967295 := by decide
  exact ⟨hshort, by decide +kernel, tokenize_starts scattered hshort⟩

/-! ## Where tokens end -/

theorem isBlank_eq_false_of_getLast? {p : Char → Bool} {cs : List Char}
    (hp : ∀ {c}, p c → isBlank c = false) (h : ∀ c ∈ cs, p c) :
    ∀ c ∈ cs.getLast?, isBlank c = false :=
  fun c hc => hp (h c (List.mem_of_getLast? hc))

theorem Terminal.Valid.getLast?_lexeme {t : Terminal} (h : t.Valid) :
    ∀ c ∈ t.lexeme.getLast?, isBlank c = false := by
  obtain ⟨kind, literal⟩ := t
  cases kind with
  | identifier => exact isBlank_eq_false_of_getLast? not_isBlank_of_isLetter h.2.1
  | integer => exact isBlank_eq_false_of_getLast? not_isBlank_of_isDigit h.2
  | string =>
    have hquote : Terminal.lexeme ⟨.string, literal⟩ = ('"' :: literal.toList) ++ ['"'] := rfl
    rw [hquote, List.getLast?_concat]
    simp [isBlank]
  | illegal =>
    obtain ⟨c, rfl, hc⟩ := h
    simp only [isIllegal, Bool.and_eq_true, Bool.not_eq_true'] at hc
    simp [Terminal.lexeme, hc.1.1.1.1]
  | eof => cases h
  | _ =>
    cases h
    simp [Terminal.lexeme, isBlank]

namespace Occurrence

variable {source : List Char}

/-- The closing quote of a string is there. -/
def Closed (o : Occurrence source) : Prop := o.text = o.token.terminal.lexeme

theorem not_closed_of_newline {o : Occurrence source} (h : o.text.getLast? = some '\n') :
    ¬ o.Closed := by
  intro hclosed
  rw [hclosed] at h
  cases o.valid.getLast?_lexeme _ h

theorem getLast?_of_not_closed {o : Occurrence source} (h : ¬ o.Closed) :
    o.text.getLast? = source.getLast? := by
  obtain ⟨-, hafter, -⟩ := o.spelled.resolve_left h
  have hwhole := congrArg List.getLast? o.whole
  rw [hafter, List.append_nil, List.getLast?_append_of_ne_nil _ o.nonempty] at hwhole
  exact hwhole

theorem count_quotes (o : Occurrence source) : o.Closed ↔ o.text.count '"' % 2 = 0 := by
  have hlexeme := o.valid.count_quotes
  rcases o.spelled with hclosed | ⟨-, -, htext⟩
  · rw [← hclosed] at hlexeme
    exact iff_of_true hclosed hlexeme
  · have hcount : o.text.count '"' + 1 = o.token.terminal.lexeme.count '"' := by
      rw [← htext]
      simp
    refine iff_of_false (fun hclosed => ?_) (by omega)
    rw [Closed] at hclosed
    rw [hclosed] at hcount
    omega

theorem Cover.closed_iff {read : List Char} {os : List (Occurrence source)} (h : Cover read os) :
    (∀ o ∈ os, o.Closed) ↔ source.count '"' % 2 = read.count '"' % 2 := by
  induction os generalizing read with
  | nil =>
    obtain ⟨blanks, hblanks⟩ := h
    have hnone := count_quotes_eq_zero blanks.2
    rw [← hblanks, List.count_append, hnone]
    simp
  | cons o os ih =>
    obtain ⟨⟨blanks, hbefore⟩, hcover⟩ := h
    have hnone := count_quotes_eq_zero blanks.2
    have hquotes := o.count_quotes
    have hcount : (o.before ++ o.text).count '"' = read.count '"' + o.text.count '"' := by
      rw [hbefore, List.count_append, List.count_append, hnone, Nat.add_zero]
    rw [List.forall_mem_cons, ih hcover, hcount]
    by_cases hclosed : o.Closed
    · have heven := hquotes.mp hclosed
      simp only [hclosed, true_and]
      omega
    · -- Behind a string without a closing quote there is nothing left to read.
      obtain ⟨-, hafter, -⟩ := o.spelled.resolve_left hclosed
      have hsource := congrArg (List.count '"') o.whole
      rw [hafter, List.append_nil, hcount] at hsource
      rw [hquotes] at hclosed
      simp only [hquotes, hclosed, false_and, false_iff]
      omega

theorem Noted.last {o : Occurrence source} (h : o.Noted) :
    o.token.span.last =
      if o.text.getLast? = some '\n' then .behind (o.before ++ o.text) else o.lastPlace := by
  have hlast : o.text.getLast? = some (o.text.getLast o.nonempty) := List.getLast?_eq_some_getLast _
  rw [h, hlast, before_append_text, Position.back_behind_concat]
  simp only [Option.some_inj, lastPlace]

end Occurrence

theorem Reading.newline_iff {source : String} (r : Reading source) :
    (∃ o ∈ r.occurrences, o.text.getLast? = some '\n') ↔
      (Cursor.ofSource source).EndsInString ∧ source.toList.getLast? = some '\n' := by
  have hclosed : (∀ o ∈ r.occurrences, o.Closed) ↔ source.toList.count '"' % 2 = 0 :=
    r.cover.closed_iff
  have hrest : (Cursor.ofSource source).rest = source.toList := rfl
  -- Only a string that is not closed makes the number of quotes odd.
  have hstring : (Cursor.ofSource source).EndsInString ↔ ¬ ∀ o ∈ r.occurrences, o.Closed := by
    rw [(Cursor.ofSource source).endsInString_iff, hclosed, hrest]
    omega
  constructor
  · rintro ⟨o, ho, hnewline⟩
    have hopen := Occurrence.not_closed_of_newline hnewline
    refine ⟨hstring.mpr fun hall => hopen (hall o ho), ?_⟩
    rw [← Occurrence.getLast?_of_not_closed hopen, hnewline]
  · rintro ⟨hends, hnewline⟩
    rw [hstring, not_forall] at hends
    obtain ⟨o, ho⟩ := hends
    obtain ⟨ho, hopen⟩ := Classical.not_imp.mp ho
    exact ⟨o, ho, (Occurrence.getLast?_of_not_closed hopen).trans hnewline⟩

/-- Every token ends at its last character, which is not before its first one, and in front of all
that comes later. -/
def EndsExactly (source : String) : Prop :=
  (∃ r : Reading source, ∀ o ∈ r.occurrences,
    o.token.span.last = o.lastPlace ∧ o.token.span.first ≤ o.token.span.last) ∧
  (tokenize source).Pairwise fun t u => t.span.last < u.span.first

theorem endsExactly_of_reading {source : String} {r : Reading source}
    (hnoted : ∀ o ∈ r.occurrences, o.Noted)
    (hnewline : ∀ o ∈ r.occurrences, o.text.getLast? ≠ some '\n') : EndsExactly source := by
  have hfirst : ∀ o ∈ r.occurrences, o.token.span.first = o.firstPlace := by
    intro o ho
    rw [hnoted o ho]
  have hlast : ∀ o ∈ r.occurrences, o.token.span.last = o.lastPlace := by
    intro o ho
    rw [(hnoted o ho).last, if_neg (hnewline o ho)]
  refine ⟨⟨r, fun o ho => ⟨hlast o ho, ?_⟩⟩, ?_⟩
  · rw [hfirst o ho, hlast o ho]
    exact o.firstPlace_le
  · rw [r.tokens, List.pairwise_append, List.pairwise_map]
    refine ⟨?_, List.pairwise_singleton _ _, ?_⟩
    · refine r.cover.pairwise.imp_of_mem ?_
      rintro o p ho hp ⟨text, hbefore⟩
      rw [hlast o ho, hfirst p hp, Occurrence.firstPlace, ← hbefore]
      exact o.lastPlace_lt.trans_le (Position.behind_le _ _)
    · intro t ht u hu
      obtain ⟨o, ho, rfl⟩ := List.mem_map.mp ht
      rw [List.mem_singleton.mp hu, hlast o ho]
      exact o.lastPlace_lt.trans_le o.behind_le_source

theorem not_endsExactly_of_reading {source : String} {r : Reading source}
    {o : Occurrence source.toList} (ho : o ∈ r.occurrences) (hnoted : o.Noted)
    (hnewline : o.text.getLast? = some '\n') : ¬ EndsExactly source := by
  rintro ⟨-, hpairwise⟩
  obtain ⟨-, hafter, -⟩ := o.spelled.resolve_left (Occurrence.not_closed_of_newline hnewline)
  have hwhole := o.whole
  rw [hafter, List.append_nil] at hwhole
  have hlast : o.token.span.last = .behind source.toList := by
    rw [hnoted.last, if_pos hnewline, hwhole]
  rw [r.tokens, List.pairwise_append] at hpairwise
  -- The end of the input would have to stand behind itself.
  have hlt := hpairwise.2.2 o.token (List.mem_map_of_mem ho) _ (List.mem_singleton_self _)
  rw [hlast] at hlt
  exact lt_irrefl _ hlt

/-- Tokens end where they should, unless the source stops inside a string and behind a newline. -/
theorem tokenize_ends (source : String) (h : source.length < 4294967295) :
    (∀ before, before <+: source.toList → (Position.behind before).extent < 4294967296) ∧
      (EndsExactly source ↔
        ¬ ((Cursor.ofSource source).EndsInString ∧ source.toList.getLast? = some '\n')) := by
  refine ⟨fun before hbefore => ?_, ?_⟩
  · exact Position.extent_behind_lt (by rwa [String.length_toList]) hbefore
  · obtain ⟨r, hnoted⟩ := exists_reading source
    rw [← r.newline_iff]
    constructor
    · rintro hexact ⟨o, ho, hnewline⟩
      exact not_endsExactly_of_reading ho (hnoted o ho) hnewline hexact
    · intro hnone
      refine endsExactly_of_reading hnoted fun o ho hnewline => ?_
      exact hnone ⟨o, ho, hnewline⟩

/-- A closed string that ends with a newline, and a string without a closing quote that does not. -/
def manyLines : String := "x == \"a\n\nb\n\" \r\n\"c\nd"

theorem tokenize_ends_manyLines :
    manyLines.length < 4294967295 ∧
      ¬ ((Cursor.ofSource manyLines).EndsInString ∧ manyLines.toList.getLast? = some '\n') ∧
      (tokenize manyLines).map (fun t => (t.span.last.line, t.span.last.column)) =
        [(1, 1), (1, 4), (4, 1), (6, 1), (6, 2)] ∧
      EndsExactly manyLines := by
  have hshort : manyLines.length < 4294967295 := by decide
  have hnewline :
      ¬ ((Cursor.ofSource manyLines).EndsInString ∧ manyLines.toList.getLast? = some '\n') := by
    decide
  exact ⟨hshort, hnewline, by decide +kernel, (tokenize_ends manyLines hshort).2.mpr hnewline⟩

/-- The newline stands in the first line, but its token is said to end in the second. -/
theorem not_endsExactly_openLine :
    (tokenize "\"\n").map Token.span = [⟨⟨1, 1⟩, ⟨2, 1⟩⟩, .point ⟨2, 1⟩] ∧
      ¬ EndsExactly "\"\n" := by
  have hspans : (tokenize "\"\n").map Token.span = [⟨⟨1, 1⟩, ⟨2, 1⟩⟩, .point ⟨2, 1⟩] := by
    decide +kernel
  refine ⟨hspans, ?_⟩
  rintro ⟨-, hpairwise⟩
  have hmap : ((tokenize "\"\n").map Token.span).Pairwise fun a b => a.last < b.first :=
    List.pairwise_map.mpr hpairwise
  rw [hspans] at hmap
  have hlt : (⟨2, 1⟩ : Position) < ⟨2, 1⟩ := List.rel_of_pairwise_cons hmap List.mem_cons_self
  exact lt_irrefl _ hlt

end Monkey
