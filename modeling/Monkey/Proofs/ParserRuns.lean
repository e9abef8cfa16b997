import Monkey.Proofs.Step

/-!
# Clean runs of the parser

For each function of the parser, what a run without errors does: which tokens it meets, which runs
it is made of, and what it leaves. Later proofs read these and do not open the parser.
-/

namespace Monkey

theorem eq_cons_of_headKind {ts : List Token} {k : TokenKind} (h : headKind ts = k)
    (hk : k ≠ .eof) : ∃ t, ts = t :: ts.tail ∧ t.kind = k := by
  cases ts with
  | nil => exact absurd h.symm hk
  | cons t us => exact ⟨t, rfl, h⟩

namespace Parser

variable (stop : Span)

/-! ## Parameters -/

theorem moreParameters_clean_iff (ts : List Token) (ns : List String) (rest : List Token) :
    (moreParameters stop ts).Clean (some ns) rest ↔
      (∃ t, ts = t :: rest ∧ t.kind = .rightParen ∧ ns = []) ∨
      ∃ c p us ms, ts = c :: p :: us ∧ c.kind = .comma ∧ p.kind = .identifier ∧
        (moreParameters stop us).Clean (some ms) rest ∧ ns = p.literal :: ms := by
  cases ts with
  | nil => simp [moreParameters]
  | cons c us =>
    rw [moreParameters]
    by_cases hc : c.kind = .comma
    · simp only [if_pos hc, expect_clean, Step.mapSome_clean, exists_prop]
      constructor
      · rintro ⟨p, mid, rfl, hp, ms, hm, rfl⟩
        exact .inr ⟨c, p, mid, ms, rfl, hc, hp, hm, rfl⟩
      · rintro (⟨t, heq, ht, -⟩ | ⟨c, p, mid, ms, heq, -, hp, hm, rfl⟩)
        · cases heq
          rw [ht] at hc
          cases hc
        · cases heq
          exact ⟨p, mid, rfl, hp, ms, hm, rfl⟩
    · simp only [if_neg hc, expect_clean, Step.done_clean, exists_prop]
      constructor
      · rintro ⟨t, mid, heq, ht, hns, rfl⟩
        cases heq
        exact .inl ⟨c, rfl, ht, (Option.some.inj hns).symm⟩
      · rintro (⟨t, heq, ht, rfl⟩ | ⟨c, p, mid, ms, heq, hc', -⟩)
        · cases heq
          exact ⟨c, rest, rfl, ht, rfl, rfl⟩
        · cases heq
          exact absurd hc' hc

theorem parameters_clean_iff (ts : List Token) (ns : List String) (rest : List Token) :
    (parameters stop ts).Clean (some ns) rest ↔
      (∃ t, ts = t :: rest ∧ t.kind = .rightParen ∧ ns = []) ∨
      ∃ p us ms, ts = p :: us ∧ p.kind = .identifier ∧
        (moreParameters stop us).Clean (some ms) rest ∧ ns = p.literal :: ms := by
  unfold parameters
  by_cases hk : headKind ts = .rightParen
  · obtain ⟨t, hts, ht⟩ := eq_cons_of_headKind hk (by decide)
    rw [if_pos hk, Step.done_clean, hts]
    constructor
    · rintro ⟨hns, rfl⟩
      exact .inl ⟨t, rfl, ht, (Option.some.inj hns).symm⟩
    · rintro (⟨t, heq, -, rfl⟩ | ⟨p, us, ms, heq, hp, -⟩)
      · cases heq
        exact ⟨rfl, rfl⟩
      · cases heq
        rw [hp] at ht
        cases ht
  · simp only [if_neg hk, expect_clean, Step.mapSome_clean, exists_prop]
    constructor
    · rintro ⟨p, us, rfl, hp, ms, hm, rfl⟩
      exact .inr ⟨p, us, ms, rfl, hp, hm, rfl⟩
    · rintro (⟨t, rfl, ht, -⟩ | ⟨p, us, ms, rfl, hp, hm, rfl⟩)
      · exact absurd ht hk
      · exact ⟨p, us, rfl, hp, ms, hm, rfl⟩

/-! ## Expressions -/

theorem expression_clean_iff (p : Precedence) (ts : List Token) (e : Expr) (rest : List Token) :
    (expression stop p ts).Clean (some e) rest ↔
      ∃ left mid, (operand stop ts).Clean (some left) mid ∧
        (operators stop p left mid).Clean (some e) rest := by
  simp only [expression, Step.andThen_clean, Step.widen_clean, exists_prop]

theorem operators_clean_done {p : Precedence} {ts : List Token} (left e : Expr)
    (rest : List Token) (h : (headKind ts).precedence.rank ≤ p.rank) :
    (operators stop p left ts).Clean (some e) rest ↔ left = e ∧ ts = rest := by
  cases ts with
  | nil => rw [operators, Step.done_clean, Option.some.injEq]
  | cons t us =>
    have hp : ¬ p.rank < t.kind.precedence.rank := Nat.not_lt.mpr h
    rw [operators, if_neg hp, Step.done_clean, Option.some.injEq]

theorem operators_clean_binary {p : Precedence} {t : Token} {op : BinaryOp} (left e : Expr)
    (us rest : List Token) (hp : p.rank < t.kind.precedence.rank)
    (hop : BinaryOp.ofKind? t.kind = some op) :
    (operators stop p left (t :: us)).Clean (some e) rest ↔
      ∃ right mid, (expression stop t.kind.precedence us).Clean (some right) mid ∧
        (operators stop p (.binary left op right) mid).Clean (some e) rest := by
  rw [operators, if_pos hp, hop]
  simp only [Step.andThen_clean, Step.widen_clean, exists_prop]

theorem operators_clean_call {p : Precedence} {t : Token} (left e : Expr) (us rest : List Token)
    (hp : p.rank < t.kind.precedence.rank) (ht : t.kind = .leftParen) :
    (operators stop p left (t :: us)).Clean (some e) rest ↔
      ∃ args mid, (expressions stop .rightParen us).Clean (some args) mid ∧
        (operators stop p (.call left args) mid).Clean (some e) rest := by
  have hop : BinaryOp.ofKind? t.kind = none := by rw [ht]; rfl
  rw [operators, if_pos hp, hop]
  simp only [if_pos ht, Step.andThen_clean, Step.widen_clean, exists_prop]

theorem operators_clean_index {p : Precedence} {t : Token} (left e : Expr) (us rest : List Token)
    (hp : p.rank < t.kind.precedence.rank) (ht : t.kind = .leftBracket) :
    (operators stop p left (t :: us)).Clean (some e) rest ↔
      ∃ i u mid, (expression stop .lowest us).Clean (some i) (u :: mid) ∧
        u.kind = .rightBracket ∧ (operators stop p (.index left i) mid).Clean (some e) rest := by
  have hop : BinaryOp.ofKind? t.kind = none := by rw [ht]; rfl
  have hne : ¬ t.kind = .leftParen := by rw [ht]; decide
  rw [operators, if_pos hp, hop]
  simp only [if_neg hne, Step.andThen_clean, expect_clean, Step.widen_clean, exists_prop]
  constructor
  · rintro ⟨i, _, hi, u, mid, rfl, hu, ho⟩
    exact ⟨i, u, mid, hi, hu, ho⟩
  · rintro ⟨i, u, mid, hi, hu, ho⟩
    exact ⟨i, u :: mid, hi, u, mid, rfl, hu, ho⟩

/-- What the parser can do with an operand. -/
inductive OperandRun : List Token → Expr → List Token → Prop
  | identifier {t : Token} {rest : List Token} (ht : t.kind = .identifier) :
      OperandRun (t :: rest) (.identifier t.literal) rest
  | integer {t : Token} {rest : List Token} {n : Int64} (ht : t.kind = .integer)
      (hn : Integer.ofDigits? t.literal.toList = some n) :
      OperandRun (t :: rest) (.integer n) rest
  | string {t : Token} {rest : List Token} (ht : t.kind = .string) :
      OperandRun (t :: rest) (.string t.literal) rest
  | trueWord {t : Token} {rest : List Token} (ht : t.kind = .trueWord) :
      OperandRun (t :: rest) (.boolean true) rest
  | falseWord {t : Token} {rest : List Token} (ht : t.kind = .falseWord) :
      OperandRun (t :: rest) (.boolean false) rest
  | bang {t : Token} {us rest : List Token} {e : Expr} (ht : t.kind = .bang)
      (right : (expression stop .unary us).Clean (some e) rest) :
      OperandRun (t :: us) (.unary .bang e) rest
  | minus {t : Token} {us rest : List Token} {e : Expr} (ht : t.kind = .minus)
      (right : (expression stop .unary us).Clean (some e) rest) :
      OperandRun (t :: us) (.unary .minus e) rest
  | group {t u : Token} {us rest : List Token} {e : Expr} (ht : t.kind = .leftParen)
      (inner : (expression stop .lowest us).Clean (some e) (u :: rest))
      (hu : u.kind = .rightParen) : OperandRun (t :: us) e rest
  | ifOnly {k t u l : Token} {us mid rest : List Token} {c : Expr} {ss : List Stmt}
      (hk : k.kind = .ifWord) (ht : t.kind = .leftParen)
      (condition : (expression stop .lowest us).Clean (some c) (u :: l :: mid))
      (hu : u.kind = .rightParen) (hl : l.kind = .leftBrace)
      (body : (block stop mid).Clean ss rest) (hrest : headKind rest ≠ .elseWord) :
      OperandRun (k :: t :: us) (.conditional c ss none) rest
  | ifElse {k t u l w m : Token} {us mid vs rest : List Token} {c : Expr} {ss zs : List Stmt}
      (hk : k.kind = .ifWord) (ht : t.kind = .leftParen)
      (condition : (expression stop .lowest us).Clean (some c) (u :: l :: mid))
      (hu : u.kind = .rightParen) (hl : l.kind = .leftBrace)
      (body : (block stop mid).Clean ss (w :: m :: vs)) (hw : w.kind = .elseWord)
      (hm : m.kind = .leftBrace) (alternative : (block stop vs).Clean zs rest) :
      OperandRun (k :: t :: us) (.conditional c ss (some zs)) rest
  | function {k t l : Token} {us mid rest : List Token} {ps : List String} {ss : List Stmt}
      (hk : k.kind = .functionWord) (ht : t.kind = .leftParen)
      (names : (parameters stop us).Clean (some ps) (l :: mid)) (hl : l.kind = .leftBrace)
      (body : (block stop mid).Clean ss rest) :
      OperandRun (k :: t :: us) (.function ps ss) rest
  | array {t : Token} {us rest : List Token} {es : List Expr} (ht : t.kind = .leftBracket)
      (list : (expressions stop .rightBracket us).Clean (some es) rest) :
      OperandRun (t :: us) (.array es) rest
  | hash {t : Token} {us rest : List Token} {ps : List (Expr × Expr)} (ht : t.kind = .leftBrace)
      (list : (pairs stop us).Clean (some ps) rest) : OperandRun (t :: us) (.hash ps) rest

theorem operandRun_of_clean {ts : List Token} {e : Expr} {rest : List Token}
    (h : (operand stop ts).Clean (some e) rest) : OperandRun stop ts e rest := by
  cases ts with
  | nil =>
    rw [operand] at h
    exact absurd h (Step.fail_clean _ _ _ _ _)
  | cons t us =>
    rw [operand] at h
    split at h
    · rename_i hk
      obtain ⟨he, rfl⟩ := (Step.done_clean ..).mp h
      cases he
      exact .identifier hk
    · rename_i hk
      split at h
      · rename_i n hn
        obtain ⟨he, rfl⟩ := (Step.done_clean ..).mp h
        cases he
        exact .integer hk hn
      · exact absurd h (Step.fail_clean _ _ _ _ _)
    · rename_i hk
      obtain ⟨he, rfl⟩ := (Step.done_clean ..).mp h
      cases he
      exact .string hk
    · rename_i hk
      obtain ⟨he, rfl⟩ := (Step.done_clean ..).mp h
      cases he
      exact .trueWord hk
    · rename_i hk
      obtain ⟨he, rfl⟩ := (Step.done_clean ..).mp h
      cases he
      exact .falseWord hk
    · rename_i hk
      obtain ⟨a, hs, rfl⟩ := (Step.mapSome_clean ..).mp h
      exact .bang hk hs
    · rename_i hk
      obtain ⟨a, hs, rfl⟩ := (Step.mapSome_clean ..).mp h
      exact .minus hk hs
    · rename_i hk
      obtain ⟨a, _, hs, h⟩ := (Step.andThen_clean ..).mp h
      obtain ⟨u, mid, rfl, hu, h⟩ := (expect_clean ..).mp h
      obtain ⟨ha, rfl⟩ := (Step.done_clean ..).mp h
      cases ha
      exact .group hk hs hu
    · rename_i hk
      obtain ⟨t, us, rfl, ht, h⟩ := (expect_clean ..).mp h
      obtain ⟨c, _, hs, h⟩ := (Step.andThen_clean ..).mp h
      obtain ⟨u, _, rfl, hu, h⟩ := (expect_clean ..).mp h
      obtain ⟨l, mid, rfl, hl, h⟩ := (expect_clean ..).mp h
      obtain ⟨ss, r, hss, h⟩ := (Step.next_clean ..).mp h
      split at h
      · rename_i helse
        obtain ⟨w, hr, hw⟩ := eq_cons_of_headKind helse (by decide)
        obtain ⟨m, vs, hvs, hm, h⟩ := (expect_clean ..).mp h
        obtain ⟨zs, hzs, hcond⟩ := (Step.map_clean ..).mp h
        cases hcond
        rw [hr, hvs] at hss
        exact .ifElse hk ht hs hu hl hss hw hm hzs
      · rename_i helse
        obtain ⟨hcond, rfl⟩ := (Step.done_clean ..).mp h
        cases hcond
        exact .ifOnly hk ht hs hu hl hss helse
    · rename_i hk
      obtain ⟨t, us, rfl, ht, h⟩ := (expect_clean ..).mp h
      obtain ⟨ps, _, hs, h⟩ := (Step.andThen_clean ..).mp h
      obtain ⟨l, mid, rfl, hl, h⟩ := (expect_clean ..).mp h
      obtain ⟨ss, hss, hfun⟩ := (Step.map_clean ..).mp h
      cases hfun
      exact .function hk ht hs hl hss
    · rename_i hk
      obtain ⟨es, hs, rfl⟩ := (Step.mapSome_clean ..).mp h
      exact .array hk hs
    · rename_i hk
      obtain ⟨ps, hs, rfl⟩ := (Step.mapSome_clean ..).mp h
      exact .hash hk hs
    · exact absurd h (Step.fail_clean _ _ _ _ _)

theorem OperandRun.clean {ts : List Token} {e : Expr} {rest : List Token}
    (h : OperandRun stop ts e rest) : (operand stop ts).Clean (some e) rest := by
  cases h with
  | identifier ht | string ht | trueWord ht | falseWord ht => simp [operand, ht]
  | integer ht hn => simp [operand, ht, hn]
  | bang ht right | minus ht right =>
    simp only [operand, ht, Step.mapSome_clean]
    exact ⟨_, right, rfl⟩
  | group ht inner hu =>
    simp only [operand, ht, Step.andThen_clean, expect_clean, Step.done_clean]
    exact ⟨_, _, inner, _, _, rfl, hu, rfl, rfl⟩
  | ifOnly hk ht condition hu hl body hrest =>
    simp only [operand, hk, expect_clean, Step.andThen_clean, Step.next_clean]
    refine ⟨_, _, rfl, ht, _, _, condition, _, _, rfl, hu, _, _, rfl, hl, _, _, body, ?_⟩
    rw [if_neg hrest, Step.done_clean]
    exact ⟨rfl, rfl⟩
  | ifElse hk ht condition hu hl body hw hm alternative =>
    simp only [operand, hk, expect_clean, Step.andThen_clean, Step.next_clean]
    refine ⟨_, _, rfl, ht, _, _, condition, _, _, rfl, hu, _, _, rfl, hl, _, _, body, ?_⟩
    rw [if_pos (by exact hw), expect_clean]
    exact ⟨_, _, rfl, hm, (Step.map_clean ..).mpr ⟨_, alternative, rfl⟩⟩
  | function hk ht names hl body =>
    simp only [operand, hk, expect_clean, Step.andThen_clean, Step.map_clean]
    exact ⟨_, _, rfl, ht, _, _, names, _, _, rfl, hl, _, body, rfl⟩
  | array ht list | hash ht list =>
    simp only [operand, ht, Step.mapSome_clean]
    exact ⟨_, list, rfl⟩

theorem operand_clean_length_lt {ts : List Token} {e : Expr} {rest : List Token}
    (h : (operand stop ts).Clean (some e) rest) : rest.length < ts.length := by
  have hle := h.length_le
  have hne : ts ≠ [] := by cases operandRun_of_clean stop h <;> simp
  have := List.length_pos_iff.mpr hne
  omega

theorem expression_clean_length_lt {p : Precedence} {ts : List Token} {e : Expr}
    {rest : List Token} (h : (expression stop p ts).Clean (some e) rest) :
    rest.length < ts.length := by
  obtain ⟨left, mid, hl, ho⟩ := (expression_clean_iff ..).mp h
  exact Nat.lt_of_le_of_lt ho.length_le (operand_clean_length_lt stop hl)

/-! ## Lists -/

theorem expressions_clean_iff (closing : TokenKind) (ts : List Token) (es : List Expr)
    (rest : List Token) (hclosing : closing ≠ .eof) :
    (expressions stop closing ts).Clean (some es) rest ↔
      (∃ t, ts = t :: rest ∧ t.kind = closing ∧ es = []) ∨
      headKind ts ≠ closing ∧ ∃ e mid fs, (expression stop .lowest ts).Clean (some e) mid ∧
        (moreExpressions stop closing mid).Clean (some fs) rest ∧ es = e :: fs := by
  rw [expressions]
  by_cases hk : headKind ts = closing
  · obtain ⟨t, hts, ht⟩ := eq_cons_of_headKind hk hclosing
    rw [if_pos hk, Step.done_clean]
    constructor
    · rintro ⟨hes, rfl⟩
      exact .inl ⟨t, hts, ht, (Option.some.inj hes).symm⟩
    · rintro (⟨t, rfl, -, rfl⟩ | ⟨hne, -⟩)
      · exact ⟨rfl, rfl⟩
      · exact absurd hk hne
  · simp only [if_neg hk, Step.andThen_clean, Step.mapSome_clean, exists_prop]
    constructor
    · rintro ⟨e, mid, he, fs, hfs, rfl⟩
      exact .inr ⟨hk, e, mid, fs, he, hfs, rfl⟩
    · rintro (⟨t, rfl, ht, -⟩ | ⟨-, e, mid, fs, he, hfs, rfl⟩)
      · exact absurd ht hk
      · exact ⟨e, mid, he, fs, hfs, rfl⟩

theorem moreExpressions_clean_iff (closing : TokenKind) (ts : List Token) (es : List Expr)
    (rest : List Token) (hclosing : closing ≠ .comma) :
    (moreExpressions stop closing ts).Clean (some es) rest ↔
      (∃ t, ts = t :: rest ∧ t.kind = closing ∧ es = []) ∨
      ∃ c us e mid fs, ts = c :: us ∧ c.kind = .comma ∧
        (expression stop .lowest us).Clean (some e) mid ∧
        (moreExpressions stop closing mid).Clean (some fs) rest ∧ es = e :: fs := by
  cases ts with
  | nil => simp [moreExpressions]
  | cons c us =>
    rw [moreExpressions]
    by_cases hc : c.kind = .comma
    · simp only [if_pos hc, Step.andThen_clean, Step.mapSome_clean, exists_prop]
      constructor
      · rintro ⟨e, mid, he, fs, hfs, rfl⟩
        exact .inr ⟨c, us, e, mid, fs, rfl, hc, he, hfs, rfl⟩
      · rintro (⟨t, heq, ht, -⟩ | ⟨c, us, e, mid, fs, heq, -, he, hfs, rfl⟩)
        · cases heq
          exact absurd (ht.symm.trans hc) hclosing
        · cases heq
          exact ⟨e, mid, he, fs, hfs, rfl⟩
    · simp only [if_neg hc, expect_clean, Step.done_clean, exists_prop]
      constructor
      · rintro ⟨t, mid, heq, ht, hes, rfl⟩
        cases heq
        exact .inl ⟨c, rfl, ht, (Option.some.inj hes).symm⟩
      · rintro (⟨t, heq, ht, rfl⟩ | ⟨c, us, e, mid, fs, heq, hc', -⟩)
        · cases heq
          exact ⟨c, rest, rfl, ht, rfl, rfl⟩
        · cases heq
          exact absurd hc' hc

theorem pairs_clean_iff (ts : List Token) (ps : List (Expr × Expr)) (rest : List Token) :
    (pairs stop ts).Clean (some ps) rest ↔
      (∃ t, ts = t :: rest ∧ t.kind = .rightBrace ∧ ps = []) ∨
      headKind ts ≠ .rightBrace ∧ ∃ k c us v mid,
        (expression stop .lowest ts).Clean (some k) (c :: us) ∧ c.kind = .colon ∧
        (expression stop .lowest us).Clean (some v) mid ∧
        ((∃ u, mid = u :: rest ∧ u.kind = .rightBrace ∧ ps = [(k, v)]) ∨
          ∃ d vs qs, mid = d :: vs ∧ d.kind = .comma ∧ (pairs stop vs).Clean (some qs) rest ∧
            ps = (k, v) :: qs) := by
  rw [pairs]
  by_cases hk : headKind ts = .rightBrace
  · obtain ⟨t, hts, ht⟩ := eq_cons_of_headKind hk (by decide)
    rw [if_pos hk, Step.done_clean]
    constructor
    · rintro ⟨hps, rfl⟩
      exact .inl ⟨t, hts, ht, (Option.some.inj hps).symm⟩
    · rintro (⟨t, rfl, -, rfl⟩ | ⟨hne, -⟩)
      · exact ⟨rfl, rfl⟩
      · exact absurd hk hne
  · simp only [if_neg hk, Step.andThen_clean, expect_clean]
    constructor
    · rintro ⟨k, _, hk', c, us, rfl, hc, v, mid, hv, h⟩
      refine .inr ⟨hk, k, c, us, v, mid, hk', hc, hv, ?_⟩
      split at h
      · rename_i hbrace
        obtain ⟨u, hmid, hu⟩ := eq_cons_of_headKind hbrace (by decide)
        obtain ⟨hps, rfl⟩ := (Step.done_clean ..).mp h
        exact .inl ⟨u, hmid, hu, (Option.some.inj hps).symm⟩
      · obtain ⟨d, vs, rfl, hd, h⟩ := (expect_clean ..).mp h
        obtain ⟨qs, hq, rfl⟩ := (Step.mapSome_clean ..).mp h
        exact .inr ⟨d, vs, qs, rfl, hd, hq, rfl⟩
    · rintro (⟨t, rfl, ht, -⟩ | ⟨-, k, c, us, v, mid, hk', hc, hv, h⟩)
      · exact absurd ht hk
      · refine ⟨k, c :: us, hk', c, us, rfl, hc, v, mid, hv, ?_⟩
        rcases h with ⟨u, rfl, hu, rfl⟩ | ⟨d, vs, qs, rfl, hd, hq, rfl⟩
        · rw [if_pos (show headKind (u :: rest) = .rightBrace from hu), Step.done_clean]
          exact ⟨rfl, rfl⟩
        · have hne : headKind (d :: vs) ≠ .rightBrace := by
            rw [show headKind (d :: vs) = .comma from hd]
            decide
          rw [if_neg hne, expect_clean]
          exact ⟨d, vs, rfl, hd, (Step.mapSome_clean ..).mpr ⟨qs, hq, rfl⟩⟩

/-! ## Statements -/

theorem skipSemicolon_eq_self {ts : List Token} (h : headKind ts ≠ .semicolon) :
    skipSemicolon ts = ts := by
  cases ts with
  | nil => rfl
  | cons t us => exact if_neg h

/-- What the parser can do with a statement. A semicolon behind it is skipped. -/
inductive StatementRun : List Token → Stmt → List Token → Prop
  | bind {k n t : Token} {us mid : List Token} {e : Expr} (hk : k.kind = .letWord)
      (hn : n.kind = .identifier) (ht : t.kind = .assign)
      (value : (expression stop .lowest us).Clean (some e) mid) :
      StatementRun (k :: n :: t :: us) (.bind n.literal e) mid
  | ret {k : Token} {us mid : List Token} {e : Expr} (hk : k.kind = .returnWord)
      (value : (expression stop .lowest us).Clean (some e) mid) :
      StatementRun (k :: us) (.ret e) mid
  | expr {ts mid : List Token} {e : Expr} (hl : headKind ts ≠ .letWord)
      (hr : headKind ts ≠ .returnWord)
      (value : (expression stop .lowest ts).Clean (some e) mid) : StatementRun ts (.expr e) mid

theorem finish_clean {n : Nat} (s a : Stmt) (mid rest : List Token) (h : mid.length ≤ n) :
    (finish s mid h).Clean (some a) rest ↔ s = a ∧ skipSemicolon mid = rest := by
  simp [finish, Step.Clean]

theorem statement_clean_iff (ts : List Token) (s : Stmt) (rest : List Token) :
    (statement stop ts).Clean (some s) rest ↔
      ∃ mid, StatementRun stop ts s mid ∧ rest = skipSemicolon mid := by
  rw [statement]
  split
  · rename_i hk
    obtain ⟨k, hts, hk'⟩ := eq_cons_of_headKind hk (by decide)
    simp only [expect_clean, Step.andThen_clean, finish_clean, exists_prop]
    constructor
    · rintro ⟨n, _, hn', hn, t, us, rfl, ht, e, mid, he, rfl, rfl⟩
      rw [hts, hn']
      exact ⟨mid, .bind hk' hn ht he, rfl⟩
    · rintro ⟨mid, run, rfl⟩
      cases run with
      | bind _ hn ht he => exact ⟨_, _, rfl, hn, _, _, rfl, ht, _, mid, he, rfl, rfl⟩
      | ret hr _ => exact absurd (hr.symm.trans hk) (by decide)
      | expr hl _ _ => exact absurd hk hl
  · rename_i hk
    obtain ⟨k, hts, hk'⟩ := eq_cons_of_headKind hk (by decide)
    simp only [Step.andThen_clean, finish_clean, exists_prop]
    constructor
    · rintro ⟨e, mid, he, rfl, rfl⟩
      rw [hts]
      exact ⟨mid, .ret hk' he, rfl⟩
    · rintro ⟨mid, run, rfl⟩
      cases run with
      | bind hl _ _ _ => exact absurd (hl.symm.trans hk) (by decide)
      | ret _ he => exact ⟨_, mid, he, rfl, rfl⟩
      | expr _ hr _ => exact absurd hk hr
  · rename_i hl hr
    simp only [Step.andThen_clean, finish_clean, exists_prop]
    constructor
    · rintro ⟨e, mid, he, rfl, rfl⟩
      exact ⟨mid, .expr hl hr he, rfl⟩
    · rintro ⟨mid, run, rfl⟩
      cases run with
      | bind hk _ _ _ => exact absurd hk hl
      | ret hk _ => exact absurd hk hr
      | expr _ _ he => exact ⟨_, mid, he, rfl, rfl⟩

theorem statement_clean_length_lt {ts : List Token} {s : Stmt} {rest : List Token}
    (h : (statement stop ts).Clean (some s) rest) : rest.length < ts.length := by
  have hle := h.length_le
  obtain ⟨mid, run, rfl⟩ := (statement_clean_iff ..).mp h
  have hpos : 0 < ts.length := by
    cases run with
    | bind _ _ _ _ => exact Nat.zero_lt_succ _
    | ret _ _ => exact Nat.zero_lt_succ _
    | expr _ _ he => exact Nat.zero_lt_of_lt (expression_clean_length_lt stop he)
  omega

theorem block_clean_iff (ts : List Token) (ss : List Stmt) (rest : List Token) :
    (block stop ts).Clean ss rest ↔
      (ts = [] ∧ ss = [] ∧ rest = []) ∨ (∃ t, ts = t :: rest ∧ t.kind = .rightBrace ∧ ss = []) ∨
      ∃ t us s mid zs, ts = t :: us ∧ t.kind ≠ .rightBrace ∧
        (statement stop ts).Clean (some s) mid ∧ (block stop mid).Clean zs rest ∧ ss = s :: zs := by
  cases ts with
  | nil => simp [block, eq_comm]
  | cons t us =>
    rw [block]
    by_cases hk : t.kind = .rightBrace
    · rw [if_pos hk, Step.done_clean]
      constructor
      · rintro ⟨rfl, rfl⟩
        exact .inr (.inl ⟨t, rfl, hk, rfl⟩)
      · rintro (⟨h, -⟩ | ⟨t, h, -, rfl⟩ | ⟨t, us, s, mid, zs, h, hne, -⟩)
        · cases h
        · cases h
          exact ⟨rfl, rfl⟩
        · cases h
          exact absurd hk hne
    · simp only [if_neg hk, Step.next_clean, Step.map_clean, exists_prop]
      constructor
      · rintro ⟨o, mid, ho, zs, hz, rfl⟩
        obtain ⟨s, rfl⟩ := (statement_reports stop _).some_of_clean ho
        exact .inr (.inr ⟨t, us, s, mid, zs, rfl, hk, ho, hz, rfl⟩)
      · rintro (⟨h, -⟩ | ⟨t, h, ht, -⟩ | ⟨_, _, s, mid, zs, -, -, ho, hz, rfl⟩)
        · cases h
        · cases h
          exact absurd ht hk
        · exact ⟨some s, mid, ho, zs, hz, rfl⟩

theorem statements_clean_iff (ts : List Token) (ss : List Stmt) (rest : List Token) :
    (statements stop ts).Clean ss rest ↔
      (ts = [] ∧ ss = [] ∧ rest = []) ∨
      ∃ t us s mid zs, ts = t :: us ∧ (statement stop ts).Clean (some s) mid ∧
        (statements stop mid).Clean zs rest ∧ ss = s :: zs := by
  cases ts with
  | nil => simp [statements, eq_comm]
  | cons t us =>
    simp only [statements, Step.next_clean, Step.map_clean, exists_prop]
    constructor
    · rintro ⟨o, mid, ho, zs, hz, rfl⟩
      obtain ⟨s, rfl⟩ := (statement_reports stop _).some_of_clean ho
      exact .inr ⟨t, us, s, mid, zs, rfl, ho, hz, rfl⟩
    · rintro (⟨h, -⟩ | ⟨_, _, s, mid, zs, -, ho, hz, rfl⟩)
      · cases h
      · exact ⟨some s, mid, ho, zs, hz, rfl⟩

end Parser

end Monkey
