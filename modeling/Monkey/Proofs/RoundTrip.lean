import Monkey.Proofs.Parsing
import Monkey.Proofs.WellFormed
import Monkey.Syntax.Printer

/-!
# Printing and parsing

The canonical text of a well-formed tree is in the grammar, and the grammar gives it that tree. So
parsing the text of a program brings the program back.
-/

namespace Monkey

open Grammar

/-! ## Text as terminals -/

/-- The text does not start with a character that could belong to a word or a number. -/
def Separated (k : List Char) : Prop := ∀ c ∈ k.head?, isLetter c = false ∧ c.isDigit = false

/-- In front of any separated text, the text is read as the terminals. -/
def Written (text : String) (ts : List Terminal) : Prop :=
  ∀ k, Separated k → terminals (text.toList ++ k) = ts ++ terminals k

@[simp] theorem separated_nil : Separated [] := by
  simp [Separated]

@[simp] theorem separated_cons (c : Char) (k : List Char) :
    Separated (c :: k) ↔ (c.isAlpha = false ∧ c ≠ '_') ∧ c.isDigit = false := by
  simp [Separated, isLetter]

theorem Written.read {text : String} {ts : List Terminal} (h : Written text ts) (k : List Char)
    (hk : Separated k) : terminals (text.toList ++ k) = ts ++ terminals k :=
  h k hk

theorem Written.terminals_eq {text : String} {ts : List Terminal} (h : Written text ts) :
    terminals text.toList = ts := by
  have hnil := h.read [] separated_nil
  simpa using hnil

/-- A character that is a token whatever comes next. -/
@[simp] def isDelimiter (c : Char) : Bool :=
  ['(', ')', '[', ']', '\x7b', '\x7d', ',', ':', ';', '+', '-', '*', '/', '<', '>'].contains c

theorem ofSymbol?_of_isDelimiter {c : Char} (h : isDelimiter c) :
    (∃ kind, TokenKind.ofSymbol? c = some kind) ∧ c ≠ '=' ∧ c ≠ '!' := by
  rw [← Option.isSome_iff_exists]
  revert c
  simp only [isDelimiter, List.contains_iff_mem, List.forall_mem_cons, List.not_mem_nil,
    false_implies, implies_true]
  decide

@[simp] theorem terminals_delimiter {c : Char} (k : List Char) (h : isDelimiter c) :
    terminals (c :: k) = .symbol c :: terminals k := by
  obtain ⟨⟨kind, hkind⟩, hne⟩ := ofSymbol?_of_isDelimiter h
  exact terminals_symbol k hkind fun _ => hne

theorem terminals_binary (op : BinaryOp) (k : List Char) :
    terminals (op.symbol.toList ++ k) = ⟨binaryKind op, op.symbol⟩ :: terminals k := by
  cases op with
  | equal => exact terminals_scan ('=' :: k) rfl
  | notEqual => exact terminals_scan ('=' :: k) rfl
  | _ => exact terminals_delimiter k (by decide)

theorem terminals_unary (op : UnaryOp) {k : List Char} (hk : k.head? ≠ some '=') :
    terminals (op.symbol.toList ++ k) = ⟨unaryKind op, op.symbol⟩ :: terminals k := by
  cases op with
  | bang => exact terminals_symbol k rfl fun h => absurd h hk
  | minus => exact terminals_delimiter k (by decide)

/-- No expression starts with an equals sign, so a bang in front of one stays a bang. -/
theorem head?_ne_of_starts {cs : List Char} (h : startsExpression (firstKind (terminals cs))) :
    cs.head? ≠ some '=' := by
  intro hcs
  obtain ⟨ds, rfl⟩ := List.head?_eq_some_iff.mp hcs
  rw [terminals_scan ds rfl] at h
  cases ds with
  | nil => cases h
  | cons d ds =>
    by_cases hd : d = '='
    · subst hd
      cases h
    · have hassign : TokenKind.ofSymbol? '=' = some .assign := rfl
      rw [Lexeme.scan_symbol hassign (by simp [hd])] at h
      cases h

theorem Written.divide {s t : String} {ts us : List Terminal} (hs : Written s ts)
    (ht : Written t us) {c : Char} (hc : isDelimiter c) (hsep : Separated [c]) :
    Written (s ++ String.ofList [c, ' '] ++ t) (ts ++ .symbol c :: us) := by
  intro k hk
  have hc' : Separated (c :: ' ' :: (t.toList ++ k)) := hsep
  simp only [String.toList_append, String.toList_ofList, List.append_assoc, List.cons_append,
    List.nil_append]
  rw [hs.read _ hc', terminals_delimiter _ hc, terminals_space, ht.read k hk]

/-! ## Words and numbers -/

theorem written_word {w : String} (hne : w.toList ≠ []) (hw : ∀ c ∈ w.toList, isLetter c) :
    Written w [.word w] :=
  fun k hk => terminals_word k hne hw fun c hc => (hk c hc).1

theorem written_keyword {w : String} (h : w ∈ TokenKind.keywords.map (·.1)) :
    Written w [.word w] := by
  have hall : ∀ v ∈ TokenKind.keywords.map (·.1), v.toList ≠ [] ∧ v.toList.all isLetter := by
    decide
  obtain ⟨hne, hletters⟩ := hall w h
  exact written_word hne (List.all_eq_true.mp hletters)

theorem terminals_if (k : List Char) (hk : Separated k) :
    terminals ('i' :: 'f' :: k) = .word "if" :: terminals k :=
  written_keyword (w := "if") (by decide) k hk

theorem terminals_assign (k : List Char) :
    terminals ('=' :: ' ' :: k) = .symbol '=' :: terminals k := by
  have hassign : TokenKind.ofSymbol? '=' = some .assign := rfl
  rw [terminals_symbol _ hassign (by simp), terminals_space]

theorem written_name {name : String} (h : IsName name) : Written name [.word name] :=
  written_word h.1 h.2.1

theorem word_kind_of_isName {name : String} (h : IsName name) :
    (Terminal.word name).kind = .identifier := by
  rw [Terminal.word, TokenKind.ofWord, h.2.2]
  rfl

theorem toInt_eq_toNat {n : Int64} (h : 0 ≤ n.toInt) : n.toInt = n.toInt.toNat :=
  (Int.toNat_of_nonneg h).symm

theorem render_toList {n : Int64} (h : 0 ≤ n.toInt) :
    (Integer.render n).toList = Nat.toDigits 10 n.toInt.toNat := by
  rw [Integer.render, toInt_eq_toNat h, Int.toNat_natCast, ← Nat.toList_repr]
  rfl

theorem valueOfDigits_toDigits (n : Nat) : Integer.valueOfDigits (Nat.toDigits 10 n) = n := by
  rw [Integer.valueOfDigits, ← Nat.ofDigitChars_eq_foldl, Nat.ofDigitChars_ten_toDigits]

theorem written_integer {n : Int64} (h : 0 ≤ n.toInt) :
    Written (Integer.render n) [⟨.integer, Integer.render n⟩] := by
  intro k hk
  refine terminals_digits k ?_ ?_ fun c hc => (hk c hc).2
  · rw [render_toList h]
    exact Nat.toDigits_ne_nil
  · intro c hc
    rw [render_toList h] at hc
    exact Nat.isDigit_of_mem_toDigits (by decide) (by decide) hc

theorem expression_integer {n : Int64} (h : 0 ≤ n.toInt) :
    Expression .primary [⟨.integer, Integer.render n⟩] (.integer n) := by
  have hvalue : Integer.valueOfDigits (Integer.render n).toList = n.toInt.toNat := by
    rw [render_toList h, valueOfDigits_toDigits]
  have hle := Integer.le_greatest n
  have hn : Int64.ofNat n.toInt.toNat = n := by
    rw [← Int64.ofInt_eq_ofNat, ← toInt_eq_toNat h, Int64.ofInt_toInt]
  have hexpr := Expression.integer (t := ⟨.integer, Integer.render n⟩) rfl (by
    rw [hvalue]
    unfold Integer.greatest at hle
    omega)
  rw [hvalue, hn] at hexpr
  exact hexpr

/-! ## Trees -/

theorem names_written (name : String) (ns : List String) (h : ∀ n ∈ name :: ns, IsName n) :
    ∃ ts, Names ts (name :: ns) ∧ Written (", ".intercalate (name :: ns)) ts := by
  induction ns generalizing name with
  | nil =>
    have hname := h name (by simp)
    refine ⟨[.word name], .one (word_kind_of_isName hname), ?_⟩
    simpa using written_name hname
  | cons n ns ih =>
    have hname := h name (by simp)
    obtain ⟨ts, hts, hrest⟩ := ih n fun m hm => h m (List.mem_cons_of_mem _ hm)
    refine ⟨.word name :: .symbol ',' :: ts, .more (word_kind_of_isName hname) rfl hts, ?_⟩
    rw [String.intercalate_cons_cons]
    exact (written_name hname).divide hrest (c := ',') rfl (by simp)

theorem parameters_written (ps : List String) (h : ∀ n ∈ ps, IsName n) :
    ∃ ts, Parameters ts ps ∧ Written (", ".intercalate ps) ts := by
  cases ps with
  | nil => exact ⟨[], .none, fun k _ => by simp⟩
  | cons p ps =>
    obtain ⟨ts, hts, hw⟩ := names_written p ps h
    exact ⟨ts, .some hts, hw⟩

theorem Grammar.Expression.of_primary {ts : List Terminal} {e : Expr}
    (h : Expression .primary ts e) : Expression .postfixed ts e :=
  .tighter rfl h

theorem Grammar.Expression.parenthesized {l : Level} {ts : List Terminal} {e : Expr}
    (h : Expression l ts e) :
    Expression .postfixed (.symbol '(' :: (ts ++ [.symbol ')'])) e := by
  refine .of_primary (.group rfl (h.looser ?_) rfl)
  cases l <;> decide

mutual

/-- The text of an expression is read as that expression, at the tightest level but one. -/
theorem Expr.render_written : ∀ e : Expr, e.WellFormed →
    ∃ ts, Expression .postfixed ts e ∧ Written e.render ts
  | .identifier name, h => by
    rw [Expr.render]
    refine ⟨[.word name], .of_primary ?_, written_name h.1⟩
    exact .identifier (t := .word name) (word_kind_of_isName h.1)
  | .integer n, h => by
    rw [Expr.render]
    exact ⟨_, .of_primary (expression_integer h.1), written_integer h.1⟩
  | .boolean b, _ => by
    rw [Expr.render]
    cases b with
    | true =>
      exact ⟨_, .of_primary (.boolean true rfl), written_keyword (w := "true") (by decide)⟩
    | false =>
      exact ⟨_, .of_primary (.boolean false rfl), written_keyword (w := "false") (by decide)⟩
  | .string text, h => by
    refine ⟨[⟨.string, text⟩], .of_primary (.string (t := ⟨.string, text⟩) rfl), ?_⟩
    intro k _
    simp [Expr.render, terminals_string k h.1]
  | .array es, h => by
    obtain ⟨ts, hts, hw⟩ := Expr.renderList_written es h.2
    refine ⟨.symbol '[' :: (ts ++ [.symbol ']']), .of_primary (.array rfl hts rfl), ?_⟩
    intro k hk
    simp [-String.toList_intercalate, Expr.render, hw.read]
  | .hash ps, h => by
    obtain ⟨ts, hts, hw⟩ := Expr.renderPairs_written ps h.2
    refine ⟨.symbol '\x7b' :: (ts ++ [.symbol '\x7d']), .of_primary (.hash rfl hts rfl), ?_⟩
    intro k hk
    simp [-String.toList_intercalate, Expr.render, hw.read]
  | .unary op right, h => by
    obtain ⟨ts, hts, hw⟩ := right.render_written h.2
    have hunary : Expression .unary (⟨unaryKind op, op.symbol⟩ :: ts) (.unary op right) :=
      .unary rfl (.tighter rfl hts)
    refine ⟨_, hunary.parenthesized, ?_⟩
    intro k hk
    have hright := hw.read (')' :: k) (by simp)
    -- A `!` in front of an `=` would be read as one symbol.
    have hhead : (right.render.toList ++ ')' :: k).head? ≠ some '=' := by
      apply head?_ne_of_starts
      rw [hright, firstKind_append_of_starts _ hts.starts]
      exact hts.starts
    simp [Expr.render, terminals_unary op hhead, hright]
  | .binary left op right, h => by
    obtain ⟨ts, hts, hleft⟩ := left.render_written h.2.1
    obtain ⟨us, hus, hright⟩ := right.render_written h.2.2
    obtain ⟨l, hop⟩ := exists_level op
    have hle := Level.rank_le_of_mem_operators hop
    obtain ⟨m, hm⟩ := Level.exists_next? (by omega : l.rank < 7)
    have hnext := Level.rank_next? hm
    -- The operands are tighter than any level of binary operators.
    have hpost : Level.postfixed.rank = 6 := rfl
    have hbinary : Expression l (ts ++ ⟨binaryKind op, op.symbol⟩ :: us)
        (.binary left op right) :=
      .binary hop hm (hts.looser (by omega)) rfl (hus.looser (by omega))
    refine ⟨_, hbinary.parenthesized, ?_⟩
    intro k hk
    simp [Expr.render, hleft.read, hright.read, terminals_binary]
  | .conditional c ss none, h => by
    obtain ⟨ts, hts, hc⟩ := c.render_written h.2.1
    obtain ⟨us, hus, hss⟩ := Block.render_written ss h.2.2.1
    refine ⟨_, .of_primary (.ifOnly (k := .word "if") (t := .symbol '(') (u := .symbol ')') rfl rfl
      (hts.looser (by decide)) rfl hus), ?_⟩
    intro k hk
    simp [Expr.render, Block.renderElse, terminals_if, hc.read, hss.read, hk]
  | .conditional c ss (some zs), h => by
    obtain ⟨ts, hts, hc⟩ := c.render_written h.2.1
    obtain ⟨us, hus, hss⟩ := Block.render_written ss h.2.2.1
    obtain ⟨vs, hvs, hzs⟩ := Block.render_written zs h.2.2.2
    refine ⟨_, .of_primary (.ifElse (k := .word "if") (t := .symbol '(') (u := .symbol ')')
      (w := .word "else") rfl rfl (hts.looser (by decide)) rfl hus rfl hvs), ?_⟩
    intro k hk
    have helse : ∀ k, Separated k →
        terminals ('e' :: 'l' :: 's' :: 'e' :: k) = .word "else" :: terminals k :=
      written_keyword (w := "else") (by decide)
    simp [Expr.render, Block.renderElse, terminals_if, helse, hc.read, hss.read, hzs.read, hk]
  | .function ps ss, h => by
    obtain ⟨ts, hts, hps⟩ := parameters_written ps h.1
    obtain ⟨us, hus, hss⟩ := Block.render_written ss h.2
    refine ⟨_, .of_primary (.function (k := .word "fn") (t := .symbol '(') (u := .symbol ')') rfl
      rfl hts rfl hus), ?_⟩
    intro k hk
    have hfn : ∀ k, Separated k → terminals ('f' :: 'n' :: k) = .word "fn" :: terminals k :=
      written_keyword (w := "fn") (by decide)
    simp [-String.toList_intercalate, Expr.render, hfn, hps.read, hss.read, hk]
  | .call callee args, h => by
    obtain ⟨ts, hts, hcallee⟩ := callee.render_written h.2.1
    obtain ⟨us, hus, hargs⟩ := Expr.renderList_written args h.2.2
    refine ⟨_, .call (t := .symbol '(') (u := .symbol ')') hts rfl hus rfl, ?_⟩
    intro k hk
    simp [-String.toList_intercalate, Expr.render, hcallee.read, hargs.read]
  | .index left index, h => by
    obtain ⟨ts, hts, hleft⟩ := left.render_written h.2.1
    obtain ⟨us, hus, hindex⟩ := index.render_written h.2.2
    have hpost := Expression.index (t := .symbol '[') (u := .symbol ']') hts rfl
      (hus.looser (by decide)) rfl
    refine ⟨_, hpost.parenthesized, ?_⟩
    intro k hk
    simp [Expr.render, hleft.read, hindex.read]

theorem Expr.renderList_written : ∀ es : List Expr, Expr.ListEverywhere wellFormed es →
    ∃ ts, Items ts es ∧ Written (", ".intercalate (Expr.renderList es)) ts
  | [], _ => ⟨[], .none, fun k _ => by simp [Expr.renderList]⟩
  | [e], h => by
    obtain ⟨ts, hts, hw⟩ := e.render_written h.1
    refine ⟨ts, .some (.one (hts.looser (by decide))), ?_⟩
    simpa [Expr.renderList] using hw
  | e :: f :: es, h => by
    obtain ⟨ts, hts, hw⟩ := e.render_written h.1
    obtain ⟨us, hus, hrest⟩ := Expr.renderList_written (f :: es) h.2
    cases hus with
    | some items =>
      refine ⟨_, .some (.more (c := .symbol ',') (hts.looser (by decide)) rfl items), ?_⟩
      simp only [Expr.renderList] at hrest ⊢
      rw [String.intercalate_cons_cons]
      exact hw.divide hrest rfl (by simp)

theorem Expr.renderPairs_written : ∀ ps : List (Expr × Expr), Expr.PairsEverywhere wellFormed ps →
    ∃ ts, Pairs ts ps ∧ Written (", ".intercalate (Expr.renderPairs ps)) ts
  | [], _ => ⟨[], .none, fun k _ => by simp [Expr.renderPairs]⟩
  | [(key, value)], h => by
    obtain ⟨ts, hts, hkey⟩ := key.render_written h.1.1
    obtain ⟨us, hus, hvalue⟩ := value.render_written h.1.2
    refine ⟨_, .last (c := .symbol ':') (hts.looser (by decide)) rfl (hus.looser (by decide)), ?_⟩
    simp only [Expr.renderPairs, String.intercalate_singleton]
    exact hkey.divide hvalue rfl (by simp)
  | (key, value) :: p :: ps, h => by
    obtain ⟨ts, hts, hkey⟩ := key.render_written h.1.1
    obtain ⟨us, hus, hvalue⟩ := value.render_written h.1.2
    obtain ⟨vs, hvs, hrest⟩ := Expr.renderPairs_written (p :: ps) h.2
    refine ⟨_, .more (c := .symbol ':') (d := .symbol ',') (hts.looser (by decide)) rfl
      (hus.looser (by decide)) rfl hvs, ?_⟩
    have hpair := hkey.divide hvalue (c := ':') rfl (by simp)
    have hpairs := hpair.divide hrest (c := ',') rfl (by simp)
    rw [List.append_assoc, List.cons_append] at hpairs
    simp only [Expr.renderPairs] at hpairs ⊢
    rw [String.intercalate_cons_cons]
    exact hpairs

theorem Stmt.render_written : ∀ s : Stmt, s.WellFormed →
    ∃ ts, Statement ts s ∧ Written s.render ts
  | .bind name value, h => by
    obtain ⟨ts, hts, hw⟩ := value.render_written h.2
    refine ⟨_, .bind (k := .word "let") (n := .word name) (t := .symbol '=') rfl
      (word_kind_of_isName h.1) rfl (hts.looser (by decide)), ?_⟩
    intro k hk
    have hlet : ∀ k, Separated k →
        terminals ('l' :: 'e' :: 't' :: k) = .word "let" :: terminals k :=
      written_keyword (w := "let") (by decide)
    simp [Stmt.render, hlet, (written_name h.1).read, terminals_assign, hw.read, hk]
  | .ret value, h => by
    obtain ⟨ts, hts, hw⟩ := value.render_written h.2
    refine ⟨_, .ret (k := .word "return") rfl (hts.looser (by decide)), ?_⟩
    intro k hk
    have hreturn : ∀ k, Separated k →
        terminals ('r' :: 'e' :: 't' :: 'u' :: 'r' :: 'n' :: k) = .word "return" :: terminals k :=
      written_keyword (w := "return") (by decide)
    simp [Stmt.render, hreturn, hw.read, hk]
  | .expr value, h => by
    obtain ⟨ts, hts, hw⟩ := value.render_written h.2
    exact ⟨ts, .expr (hts.looser (by decide)), hw⟩

theorem Stmt.renderList_written : ∀ ss : List Stmt, Stmt.ListEverywhere wellFormed ss →
    ∃ ts, Statements ts ss ∧ Written ("; ".intercalate (Stmt.renderList ss)) ts
  | [], _ => ⟨[], .nil, fun k _ => by simp [Stmt.renderList]⟩
  | [s], h => by
    obtain ⟨ts, hts, hw⟩ := s.render_written h.1
    refine ⟨ts ++ [], .unended hts (by simp) .nil, ?_⟩
    simpa [Stmt.renderList] using hw
  | s :: z :: ss, h => by
    obtain ⟨ts, hts, hw⟩ := s.render_written h.1
    obtain ⟨us, hus, hrest⟩ := Stmt.renderList_written (z :: ss) h.2
    refine ⟨_, .ended (t := .symbol ';') hts rfl hus, ?_⟩
    simp only [Stmt.renderList] at hrest ⊢
    rw [String.intercalate_cons_cons]
    exact hw.divide hrest rfl (by simp)

theorem Block.render_written : ∀ ss : List Stmt, Stmt.ListEverywhere wellFormed ss →
    ∃ ts, Grammar.Block ts ss ∧ Written (Block.render ss) ts
  | [], _ => by
    refine ⟨_, .braces (t := .symbol '\x7b') (u := .symbol '\x7d') rfl .nil (.inl rfl), ?_⟩
    intro k hk
    simp [Block.render]
  | s :: ss, h => by
    obtain ⟨ts, hts, hw⟩ := Stmt.renderList_written (s :: ss) h
    refine ⟨_, .braces (t := .symbol '\x7b') (u := .symbol '\x7d') rfl hts (.inl rfl), ?_⟩
    intro k hk
    simp only [Stmt.renderList] at hw
    simp [-String.toList_intercalate, Block.render, hw.read]

end

/-! ## Programs -/

theorem Program.parse_render (P : Program) (h : P.WellFormed) :
    (parse P.render).program = P ∧ (parse P.render).errors = [] := by
  obtain ⟨ss⟩ := P
  obtain ⟨ts, hts, hw⟩ := Stmt.renderList_written ss (Stmt.listEverywhere_iff.mpr h)
  have hterminals := hw.terminals_eq
  have htokens :
      Accepts ((Cursor.ofSource (Program.render ⟨ss⟩)).tokens.map Token.terminal) ⟨ss⟩ := by
    rw [Monkey.terminals_eq]
    refine ⟨1, ?_⟩
    have hwhole : Whole (ts ++ [.endOfInput]) ⟨ss⟩ := .statements hts rfl
    rw [← hterminals] at hwhole
    exact hwhole
  -- The grammar accepts the tokens of the text, so the parser makes the program of them.
  have hclean := Parser.statements_clean_of_accepts
    (.point (Cursor.ofSource (Program.render ⟨ss⟩)).endPosition)
    (shows_map fun t ht => Cursor.kind_ne_eof_of_mem_tokens ht) htokens
  obtain ⟨herrors, hprogram⟩ := (parse_clean_iff _ _).mpr ⟨[], hclean⟩
  exact ⟨hprogram, herrors⟩

/-- Exactly the well-formed programs are what their own text parses to, without an error. -/
theorem Program.parse_render_eq_iff (P : Program) :
    ((parse P.render).program = P ↔ P.WellFormed) ∧
      (P.WellFormed → (parse P.render).errors = []) := by
  refine ⟨⟨fun hparse => ?_, fun hP => ?_⟩, fun hP => ?_⟩
  · -- Nothing but well-formed programs comes out of the parser, whatever goes in.
    have hwell := parse_wellFormed P.render
    rw [hparse] at hwell
    exact hwell
  · exact (P.parse_render hP).1
  · exact (P.parse_render hP).2

/-- The text of a parsed program parses to that program again, without an error. -/
theorem parse_render_parse (source : String) :
    (parse (parse source).program.render).program = (parse source).program ∧
      (parse (parse source).program.render).errors = [] :=
  Program.parse_render _ (parse_wellFormed source)

end Monkey
