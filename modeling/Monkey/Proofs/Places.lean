import Mathlib.Data.Prod.Lex
import Monkey.Proofs.Lexemes
import Monkey.Proofs.Walk

/-!
# Where things stand in the source

Places in a text are ordered by line and then by column. Each token starts behind the one before it,
and the end of the input behind them all, so errors that are reported on the way through the tokens
are in the order of the source.
-/

namespace Monkey

/-! ## The order of positions -/

namespace Position

theorem lex_injective : Function.Injective fun p : Position => toLex (p.line, p.column) := by
  rintro ⟨l, c⟩ ⟨l', c'⟩ h
  cases toLex.injective h
  rfl

instance : LinearOrder Position := LinearOrder.lift' _ lex_injective

theorem lt_iff {p q : Position} :
    p < q ↔ p.line < q.line ∨ p.line = q.line ∧ p.column < q.column :=
  Prod.Lex.toLex_lt_toLex

theorem lt_advance (p : Position) (c : Char) : p < p.advance c := by
  rw [lt_iff]
  unfold advance
  split
  · exact .inl (Nat.lt_succ_self _)
  · exact .inr ⟨rfl, Nat.lt_succ_self _⟩

theorem le_advanceBy (p : Position) (text : List Char) : p ≤ p.advanceBy text := by
  induction text generalizing p with
  | nil => exact le_refl p
  | cons c text ih => exact (p.lt_advance c).le.trans (ih (p.advance c))

theorem lt_advanceBy (p : Position) {text : List Char} (h : text ≠ []) :
    p < p.advanceBy text := by
  obtain ⟨c, cs, rfl⟩ := List.exists_cons_of_ne_nil h
  exact (p.lt_advance c).trans_le ((p.advance c).le_advanceBy cs)

/-- The larger one of line and column. -/
def extent (p : Position) : Nat := max p.line p.column

theorem fits_iff {p : Position} : p.Fits ↔ p.extent < 4294967296 := Nat.max_lt.symm

theorem extent_advance (p : Position) (c : Char) : (p.advance c).extent ≤ p.extent + 1 := by
  unfold advance extent
  split <;> simp only <;> omega

theorem extent_advanceBy (p : Position) (text : List Char) :
    (p.advanceBy text).extent ≤ p.extent + text.length := by
  induction text generalizing p with
  | nil => exact Nat.le_refl _
  | cons c text ih =>
    have hfirst := p.extent_advance c
    have hrest := ih (p.advance c)
    simp only [advanceBy_cons, List.length_cons]
    omega

theorem extent_back (p : Position) : p.back.extent ≤ max p.extent 1 := by
  unfold back extent
  simp only
  omega

end Position

/-! ## The order of tokens -/

namespace Cursor

variable {s : Cursor} {c : Char} {cs : List Char}

theorem next_first (h : s.rest.dropWhile isBlank = c :: cs) :
    s.position ≤ s.next.1.span.first ∧ s.next.1.span.first < s.next.2.position := by
  rw [next_eq_scan h]
  exact ⟨Position.le_advanceBy _ _, Position.lt_advanceBy _ (Lexeme.scan_text_ne_nil c cs)⟩

/-- The tokens of the unread text, and then the end of the input. -/
def stream (s : Cursor) : List Token := s.tokens ++ [.endOfInput s.endPosition]

theorem stream_eq_end (h : s.rest.dropWhile isBlank = []) :
    s.stream = [.endOfInput s.endPosition] := by
  rw [stream, Cursor.tokens_eq_nil h, List.nil_append]

theorem stream_eq_cons (h : s.rest.dropWhile isBlank = c :: cs) :
    s.stream = s.next.1 :: s.next.2.stream := by
  rw [stream, stream, Cursor.tokens_eq_cons h, Cursor.endPosition_next, List.cons_append]

theorem stream_ascends (s : Cursor) :
    s.stream.Pairwise (fun t u => t.span.first < u.span.first) ∧
      ∀ t ∈ s.stream, s.position ≤ t.span.first := by
  cases hs : s.rest.dropWhile isBlank with
  | nil =>
    rw [stream_eq_end hs, List.forall_mem_singleton]
    exact ⟨List.pairwise_singleton _ _, s.position.le_advanceBy s.rest⟩
  | cons c cs =>
    have hlen := Cursor.next_shorter hs
    obtain ⟨hfirst, hbehind⟩ := next_first hs
    obtain ⟨hpairwise, hafter⟩ := stream_ascends s.next.2
    rw [stream_eq_cons hs, List.pairwise_cons, List.forall_mem_cons]
    refine ⟨⟨?_, hpairwise⟩, hfirst, ?_⟩
    · intro t ht
      exact hbehind.trans_le (hafter t ht)
    · intro t ht
      exact (hfirst.trans hbehind.le).trans (hafter t ht)
termination_by s.rest.length

theorem stream_fits (s : Cursor) (h : s.position.extent + s.rest.length < 4294967296) :
    ∀ t ∈ s.stream, t.span.Fits := by
  cases hs : s.rest.dropWhile isBlank with
  | nil =>
    rw [stream_eq_end hs, List.forall_mem_singleton]
    have hend := s.position.extent_advanceBy s.rest
    have hfits : s.endPosition.Fits := Position.fits_iff.mpr (Nat.lt_of_le_of_lt hend h)
    exact ⟨hfits, hfits⟩
  | cons c cs =>
    have hlen := Cursor.next_shorter hs
    -- Each character adds at most one to the extent, and what is read is part of the text.
    have hblanks := congrArg List.length (Blanks.ofText_append_dropWhile s.rest)
    have hlexeme := congrArg List.length (Lexeme.scan_text_append_rest c cs)
    simp only [hs, Blanks.ofText, List.length_append, List.length_cons] at hblanks hlexeme
    have hfirst := s.position.extent_advanceBy (s.rest.takeWhile isBlank)
    have hafter := (s.position.advanceBy (s.rest.takeWhile isBlank)).extent_advanceBy
      (Lexeme.scan c cs).text
    have hlast := ((s.position.advanceBy (s.rest.takeWhile isBlank)).advanceBy
      (Lexeme.scan c cs).text).extent_back
    rw [stream_eq_cons hs, List.forall_mem_cons]
    constructor
    · rw [next_eq_scan hs]
      simp only [Span.Fits, Position.fits_iff]
      omega
    · apply stream_fits
      rw [next_eq_scan hs]
      simp only
      omega
termination_by s.rest.length

end Cursor

/-! ## The order of errors -/

namespace Along

variable {stop : Span} {ts rest : List Token} {ds : List Diagnostic}

theorem span_mem (h : Along stop ts ds rest) :
    ∀ d ∈ ds, d.span ∈ ts.map Token.span ++ [stop] := by
  induction h with
  | here => simp
  | read t _ ih =>
    intro d hd
    rw [List.map_cons, List.cons_append]
    exact List.mem_cons_of_mem _ (ih d hd)
  | report message _ ih =>
    rename_i ts _ _ _
    rw [List.forall_mem_cons]
    refine ⟨?_, ih⟩
    cases ts <;> simp [headSpan]

theorem ascends (h : Along stop ts ds rest)
    (hts : (ts.map Token.span ++ [stop]).Pairwise fun a b => a.first ≤ b.first) :
    ds.Pairwise (fun d e => d.span.first ≤ e.span.first) ∧
      ∀ d ∈ ds, (headSpan stop ts).first ≤ d.span.first := by
  induction h with
  | here => simp
  | read t _ ih =>
    rename_i ts _ _ _
    rw [List.map_cons, List.cons_append, List.pairwise_cons] at hts
    obtain ⟨hpairwise, hafter⟩ := ih hts.2
    refine ⟨hpairwise, fun d hd => ?_⟩
    -- Whatever comes behind this token is behind it in the source as well.
    have hhead : t.span.first ≤ (headSpan stop ts).first := by
      apply hts.1
      cases ts <;> simp [headSpan]
    exact hhead.trans (hafter d hd)
  | report message _ ih =>
    obtain ⟨hpairwise, hafter⟩ := ih hts
    rw [List.pairwise_cons, List.forall_mem_cons]
    exact ⟨⟨hafter, hpairwise⟩, le_refl _, hafter⟩

end Along

theorem countP_tokenize (source : String) :
    (tokenize source).countP (·.kind ≠ .eof) = (Cursor.ofSource source).tokens.length := by
  have hkinds : ∀ t ∈ (Cursor.ofSource source).tokens, t.kind ≠ .eof :=
    fun t ht => (Cursor.valid_of_mem_tokens ht).kind_ne_eof
  have htokens : (Cursor.ofSource source).tokens.countP (·.kind ≠ .eof) =
      (Cursor.ofSource source).tokens.length :=
    List.countP_eq_length.mpr (by simpa using hkinds)
  rw [tokenize, List.countP_append, htokens]
  simp [Token.endOfInput]

/-- Errors stand at tokens, in the order of the source, and are no more than the tokens. -/
theorem parse_errors_inOrder (source : String) (h : source.length < 4294967295) :
    (∀ t ∈ tokenize source, t.span.Fits) ∧
      (∀ d ∈ (parse source).errors, ∃ t ∈ tokenize source, d.span = t.span) ∧
      (parse source).errors.Pairwise (fun d e => d.span.first ≤ e.span.first) ∧
      (parse source).errors.length ≤ (tokenize source).countP (·.kind ≠ .eof) := by
  let s := Cursor.ofSource source
  have hwalk := Parser.statements_walks (.point s.endPosition) s.tokens
  have hspans : (tokenize source).map Token.span =
      s.tokens.map Token.span ++ [.point s.endPosition] :=
    List.map_append
  refine ⟨?_, ?_, ?_, ?_⟩
  · apply s.stream_fits
    have hlength : s.rest.length = source.length := String.length_toList
    have hstart : s.position.extent = 1 := rfl
    omega
  · intro d hd
    have hmem := hwalk.along.span_mem d hd
    rw [← hspans, List.mem_map] at hmem
    obtain ⟨t, ht, hspan⟩ := hmem
    exact ⟨t, ht, hspan.symm⟩
  · apply (hwalk.along.ascends _).1
    rw [← hspans, List.pairwise_map]
    exact s.stream_ascends.1.imp fun h => h.le
  -- Each error is paid for by a token that was read.
  · have hcost := hwalk.cost
    rw [countP_tokenize]
    simp only [free] at hcost
    exact Nat.le_of_add_right_le hcost

/-- Errors inside a block, at the token in the place of a missing one, and at the end of the
input. -/
def threeErrors : String := "if (x) \x7b let 1 \x7d else 2 +"

theorem parse_errors_inOrder_threeErrors :
    threeErrors.length < 4294967295 ∧
      (parse threeErrors).errors.map Diagnostic.render =
        ["1:14: expected next token to be IDENT, got INT instead",
          "1:23: expected next token to be \x7b, got INT instead",
          "1:26: no prefix parse function for EOF found"] ∧
      (∀ t ∈ tokenize threeErrors, t.span.Fits) ∧
      (∀ d ∈ (parse threeErrors).errors, ∃ t ∈ tokenize threeErrors, d.span = t.span) ∧
      (parse threeErrors).errors.Pairwise (fun d e => d.span.first ≤ e.span.first) ∧
      (parse threeErrors).errors.length ≤ (tokenize threeErrors).countP (·.kind ≠ .eof) := by
  have hshort : threeErrors.length < 4294967295 := by decide
  exact ⟨hshort, by decide +kernel, parse_errors_inOrder _ hshort⟩

end Monkey
