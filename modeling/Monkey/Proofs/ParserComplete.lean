import Monkey.Proofs.ParserSound

/-!
# What is in the grammar the parser accepts

A piece of the input that the grammar derives is read by a clean run of the parser, whatever stands
behind it, as long as that cannot carry the piece on. With the other direction, the parser accepts
exactly the grammar and builds exactly its tree.
-/

namespace Monkey

open Grammar

/-! ## Tokens and terminals -/

/-- The tokens are the terminals up to the end of the input, and behind that nothing else comes. -/
structure Shows (ts : List Token) (ws : List Terminal) : Prop where
  terminals : ts.map Token.terminal = ws.takeWhile (·.kind ≠ .eof)
  ends : ws.Pairwise fun a b => a.kind = .eof → b.kind = .eof

/-- The kind of the first terminal, or the end of the input. -/
def firstKind : List Terminal → TokenKind
  | [] => .eof
  | t :: _ => t.kind

theorem firstKind_append {ts : List Terminal} (us : List Terminal) (h : firstKind ts ≠ .eof) :
    firstKind (ts ++ us) = firstKind ts := by
  cases ts with
  | nil => exact absurd rfl h
  | cons t ts => rfl

theorem Shows.cons {ts : List Token} {x : Terminal} {ws : List Terminal} (h : Shows ts (x :: ws))
    (hx : x.kind ≠ .eof) : ∃ t us, ts = t :: us ∧ t.terminal = x ∧ Shows us ws := by
  obtain ⟨hts, hends⟩ := h
  rw [List.takeWhile_cons_of_pos (by simpa using hx)] at hts
  obtain ⟨t, us, rfl, ht, hus⟩ := List.map_eq_cons_iff.mp hts
  exact ⟨t, us, rfl, ht, hus, (List.pairwise_cons.mp hends).2⟩

theorem Shows.atEnd {ts : List Token} {x : Terminal} {ws : List Terminal} (h : Shows ts (x :: ws))
    (hx : x.kind = .eof) : ts = [] ∧ Shows [] ws := by
  obtain ⟨hts, hends⟩ := h
  obtain ⟨hall, hrest⟩ := List.pairwise_cons.mp hends
  rw [List.takeWhile_cons_of_neg (by simpa using hx)] at hts
  refine ⟨List.map_eq_nil_iff.mp hts, ?_, hrest⟩
  cases ws with
  | nil => rfl
  | cons y ys => rw [List.takeWhile_cons_of_neg (by simpa using hall y (by simp) hx)]; rfl

theorem Shows.headKind_eq {ts : List Token} {ws : List Terminal} (h : Shows ts ws) :
    headKind ts = firstKind ws := by
  cases ws with
  | nil => rw [List.map_eq_nil_iff.mp h.terminals]; rfl
  | cons x ws =>
    by_cases hx : x.kind = .eof
    · rw [(h.atEnd hx).1]
      exact hx.symm
    · obtain ⟨t, us, rfl, rfl, -⟩ := h.cons hx
      rfl

theorem Shows.of_kind {ts : List Token} {x : Terminal} {ws : List Terminal} {k : TokenKind}
    (h : Shows ts (x :: ws)) (hx : x.kind = k) (hk : k ≠ .eof) :
    ∃ t us, ts = t :: us ∧ t.terminal = x ∧ t.kind = k ∧ Shows us ws := by
  obtain ⟨t, us, rfl, rfl, hus⟩ := h.cons (by rw [hx]; exact hk)
  exact ⟨t, us, rfl, rfl, hx, hus⟩

/-! ## First terminals -/

/-- The kinds that an expression can start with. -/
def startsExpression : TokenKind → Bool
  | .identifier | .integer | .string | .trueWord | .falseWord | .bang | .minus | .leftParen
  | .ifWord | .functionWord | .leftBracket | .leftBrace => true
  | _ => false

/-- The kinds that a statement can start with. -/
def startsStatement : TokenKind → Bool
  | .letWord | .returnWord => true
  | k => startsExpression k

theorem ne_eof_of_startsStatement {k : TokenKind} (h : startsStatement k) : k ≠ .eof := by
  rintro rfl
  cases h

theorem startsStatement_of_startsExpression {k : TokenKind} (h : startsExpression k) :
    startsStatement k := by
  cases k <;> first | rfl | cases h

theorem firstKind_append_of_starts {ts : List Terminal} (us : List Terminal)
    (h : startsExpression (firstKind ts)) : firstKind (ts ++ us) = firstKind ts :=
  firstKind_append us (ne_eof_of_startsStatement (startsStatement_of_startsExpression h))

theorem Grammar.Expression.starts :
    ∀ {l : Level} {ts : List Terminal} {e : Expr}, Expression l ts e →
      startsExpression (firstKind ts)
  | _, _, _, .tighter _ inner => inner.starts
  | _, _, _, .binary _ _ left _ _ => by
    rw [firstKind_append_of_starts _ left.starts]
    exact left.starts
  | _, _, _, @Expression.unary op _ _ _ ht _ => by
    rw [firstKind, ht]
    cases op <;> rfl
  | _, _, _, .call callee _ _ _ => by
    rw [firstKind_append_of_starts _ callee.starts]
    exact callee.starts
  | _, _, _, .index left _ _ _ => by
    rw [firstKind_append_of_starts _ left.starts]
    exact left.starts
  | _, _, _, .boolean b ht => by
    rw [firstKind, ht]
    cases b <;> rfl
  | _, _, _, .identifier ht | _, _, _, .integer ht _ | _, _, _, .string ht
  | _, _, _, .group ht _ _ | _, _, _, .ifOnly ht _ _ _ _ | _, _, _, .ifElse ht _ _ _ _ _ _
  | _, _, _, .function ht _ _ _ _ | _, _, _, .array ht _ _ | _, _, _, .hash ht _ _ => by
    rw [firstKind, ht]
    rfl

theorem Grammar.Statement.starts {ts : List Terminal} {s : Stmt} (h : Statement ts s) :
    startsStatement (firstKind ts) := by
  cases h with
  | bind hk _ _ _ => rw [firstKind, hk]; rfl
  | ret hk _ => rw [firstKind, hk]; rfl
  | expr value => exact startsStatement_of_startsExpression value.starts

theorem Shows.starts {ts : List Token} {w v : List Terminal} (hts : Shows ts (w ++ v))
    (hw : startsExpression (firstKind w)) : startsExpression (headKind ts) := by
  rw [hts.headKind_eq, firstKind_append_of_starts _ hw]
  exact hw

theorem Shows.headKind_ne {ts : List Token} {w v : List Terminal} {k : TokenKind}
    (hts : Shows ts (w ++ v)) (hw : startsExpression (firstKind w))
    (hk : startsExpression k = false) : headKind ts ≠ k := by
  intro h
  have hs := hts.starts hw
  rw [h, hk] at hs
  cases hs

/-! ## What may stand behind an expression -/

/-- What comes next does not carry an expression of the level on. -/
def Follows (l : Level) (v : List Terminal) : Prop :=
  (firstKind v).precedence.rank ≤ l.rank ∧ firstKind v ≠ .elseWord

theorem Follows.tighter {l m : Level} {v : List Terminal} (h : Follows l v)
    (hle : l.rank ≤ m.rank) : Follows m v :=
  ⟨Nat.le_trans h.1 hle, h.2⟩

theorem follows_of_kind {k : TokenKind} {v : List Terminal} (l : Level) (h : firstKind v = k)
    (hk : k.precedence = .lowest) (hne : k ≠ .elseWord) : Follows l v := by
  refine ⟨?_, by rw [h]; exact hne⟩
  rw [h, hk]
  exact Nat.zero_le _

/-- The parser reads expressions of the level at the precedence. Unary operators are read before the
loop, so at their own precedence too. -/
def Admits (p : Precedence) (l : Level) : Prop :=
  p.rank < l.rank ∨ p.rank = 5 ∧ l.rank = 5

theorem Admits.tighter {p : Precedence} {l m : Level} (h : Admits p l)
    (hm : m.rank = l.rank + 1) : Admits p m := by
  unfold Admits at *
  omega

theorem Admits.rank_lt_postfixed {p : Precedence} (h : Admits p .postfixed) : p.rank < 6 := by
  rcases h with hp | ⟨-, hl⟩
  · exact hp
  · cases hl

namespace Parser

variable (stop : Span)

/-- Reading an expression comes to the loop over operators with `e` read and `us` left. -/
def Reaches (p : Precedence) (ts : List Token) (e : Expr) (us : List Token) : Prop :=
  ∀ r rest, (operators stop p e us).Clean (some r) rest →
    (expression stop p ts).Clean (some r) rest

theorem OperandRun.reaches {ts us : List Token} {e : Expr} (h : OperandRun stop ts e us)
    (p : Precedence) : Reaches stop p ts e us := by
  intro r rest ho
  exact (expression_clean_iff ..).mpr ⟨e, us, h.clean, ho⟩

theorem Reaches.clean {p : Precedence} {ts us : List Token} {e : Expr} {v : List Terminal}
    (h : Reaches stop p ts e us) (hus : Shows us v)
    (hv : (firstKind v).precedence.rank ≤ p.rank) :
    (expression stop p ts).Clean (some e) us := by
  apply h
  rw [operators_clean_done stop e e us (by rw [hus.headKind_eq]; exact hv)]
  exact ⟨rfl, rfl⟩

theorem Reaches.clean_of_lowest {ts us : List Token} {e : Expr} {v : List Terminal}
    (h : Reaches stop .lowest ts e us) (hus : Shows us v)
    (hv : (firstKind v).precedence = .lowest) : (expression stop .lowest ts).Clean (some e) us :=
  h.clean stop hus (Nat.le_of_eq (congrArg Precedence.rank hv))

theorem admits_lowest : Admits .lowest .equality := .inl (by decide)

theorem closed_of_reaches {ts : List Token} {e : Expr} {u : Terminal} {v : List Terminal}
    {k : TokenKind} (h : ∃ us, Shows us (u :: v) ∧ Reaches stop .lowest ts e us) (hu : u.kind = k)
    (hk : k.precedence = .lowest) (hne : k ≠ .eof) :
    ∃ t rest, (expression stop .lowest ts).Clean (some e) (t :: rest) ∧ t.kind = k ∧
      Shows rest v := by
  obtain ⟨us, hus, hgo⟩ := h
  have he := hgo.clean_of_lowest stop hus (by rw [firstKind, hu, hk])
  obtain ⟨t, rest, rfl, -, ht, hrest⟩ := hus.of_kind hu hne
  exact ⟨t, rest, he, ht, hrest⟩

/-! ## Parameters -/

theorem names_complete {w : List Terminal} {ns : List String} (h : Names w ns) {ts : List Token}
    {u : Terminal} {v : List Terminal} (hts : Shows ts (w ++ u :: v)) (hu : u.kind = .rightParen) :
    ∃ p us ms rest, ts = p :: us ∧ p.kind = .identifier ∧
      (moreParameters stop us).Clean (some ms) rest ∧ ns = p.literal :: ms ∧ Shows rest v := by
  induction h generalizing ts with
  | one ht =>
    obtain ⟨p, us, rfl, rfl, hp, hus⟩ := hts.of_kind ht (by decide)
    obtain ⟨t, rest, rfl, -, ht, hrest⟩ := hus.of_kind hu (by decide)
    have hm := (moreParameters_clean_iff stop (t :: rest) [] rest).mpr (.inl ⟨t, rfl, ht, rfl⟩)
    exact ⟨p, t :: rest, [], rest, rfl, hp, hm, rfl, hrest⟩
  | more ht hc _ ih =>
    obtain ⟨p, us, rfl, rfl, hp, hus⟩ := hts.of_kind ht (by decide)
    obtain ⟨c, us, rfl, -, hc, hus⟩ := hus.of_kind hc (by decide)
    obtain ⟨q, us, ms, rest, rfl, hq, hms, rfl, hrest⟩ := ih hus
    have hm := (moreParameters_clean_iff stop (c :: q :: us) _ rest).mpr
      (.inr ⟨c, q, us, ms, rfl, hc, hq, hms, rfl⟩)
    exact ⟨p, _, _, rest, rfl, hp, hm, rfl, hrest⟩

theorem parameters_complete {w : List Terminal} {ns : List String} (h : Parameters w ns)
    {ts : List Token} {u : Terminal} {v : List Terminal} (hts : Shows ts (w ++ u :: v))
    (hu : u.kind = .rightParen) :
    ∃ us, Shows us v ∧ (parameters stop ts).Clean (some ns) us := by
  cases h with
  | none =>
    obtain ⟨t, us, rfl, -, ht, hus⟩ := hts.of_kind hu (by decide)
    exact ⟨us, hus, (parameters_clean_iff ..).mpr (.inl ⟨t, rfl, ht, rfl⟩)⟩
  | some names =>
    obtain ⟨p, us, ms, rest, rfl, hp, hm, rfl, hrest⟩ := names_complete stop names hts hu
    exact ⟨rest, hrest, (parameters_clean_iff ..).mpr (.inr ⟨p, us, ms, rfl, hp, hm, rfl⟩)⟩

/-! ## The end of a list -/

/-- The kinds that end a list of expressions. -/
def IsClosing (k : TokenKind) : Prop := k = .rightParen ∨ k = .rightBracket

section

variable {k : TokenKind} (h : IsClosing k)

include h

theorem IsClosing.precedence_eq : k.precedence = .lowest := by
  rcases h with rfl | rfl <;> rfl

theorem IsClosing.startsExpression_eq : startsExpression k = false := by
  rcases h with rfl | rfl <;> rfl

theorem IsClosing.ne : k ≠ .eof ∧ k ≠ .comma ∧ k ≠ .elseWord := by
  rcases h with rfl | rfl <;> decide

end

/-! ## Between statements -/

theorem follows_statement {k : TokenKind} (h : startsStatement k) (hc : ¬ continues k) :
    k.precedence = .lowest ∧ k ≠ .elseWord ∧ k ≠ .semicolon := by
  cases k <;> first | exact ⟨rfl, by decide, by decide⟩ | exact absurd rfl hc | cases h

theorem statements_firstKind {us : List Terminal} {ss : List Stmt} (h : Statements us ss) :
    us = [] ∨ startsStatement (firstKind us) := by
  cases h with
  | nil => exact .inl rfl
  | ended first _ _ =>
    rw [firstKind_append _ (ne_eof_of_startsStatement first.starts)]
    exact .inr first.starts
  | unended first _ _ =>
    rw [firstKind_append _ (ne_eof_of_startsStatement first.starts)]
    exact .inr first.starts

theorem follows_unended {us : List Terminal} {ss : List Stmt} (h : Statements us ss)
    (hus : ∀ x ∈ us.head?, ¬ continues x.kind) {u : Terminal} (v : List Terminal)
    (hu : u.kind = .rightBrace ∨ u.kind = .eof) :
    (firstKind (us ++ u :: v)).precedence = .lowest ∧ firstKind (us ++ u :: v) ≠ .elseWord ∧
      firstKind (us ++ u :: v) ≠ .semicolon := by
  -- If no statement follows, the closing terminal comes first.
  rcases statements_firstKind h with rfl | hs
  · rw [List.nil_append, firstKind]
    rcases hu with hu | hu <;> rw [hu] <;> exact ⟨rfl, by decide, by decide⟩
  · rw [firstKind_append _ (ne_eof_of_startsStatement hs)]
    cases us with
    | nil => exact absurd rfl (ne_eof_of_startsStatement hs)
    | cons x us => exact follows_statement hs (hus x rfl)

theorem StatementRun.clean_ended {ts mid : List Token} {s : Stmt} {t : Terminal}
    {ws : List Terminal} (run : StatementRun stop ts s mid) (hmid : Shows mid (t :: ws))
    (ht : t.kind = .semicolon) :
    ∃ rest, Shows rest ws ∧ (statement stop ts).Clean (some s) rest := by
  obtain ⟨t', rest, rfl, -, ht', hrest⟩ := hmid.of_kind ht (by decide)
  exact ⟨rest, hrest, (statement_clean_iff ..).mpr ⟨t' :: rest, run, (if_pos ht').symm⟩⟩

theorem StatementRun.clean_unended {ts mid : List Token} {s : Stmt} {ws : List Terminal}
    (run : StatementRun stop ts s mid) (hmid : Shows mid ws) (hw : firstKind ws ≠ .semicolon) :
    (statement stop ts).Clean (some s) mid := by
  rw [← hmid.headKind_eq] at hw
  exact (statement_clean_iff ..).mpr ⟨mid, run, (skipSemicolon_eq_self hw).symm⟩

theorem block_clean_cons {ts mid rest : List Token} {w v : List Terminal} {s : Stmt}
    {ss : List Stmt} (first : Statement w s) (hts : Shows ts (w ++ v))
    (hs : (statement stop ts).Clean (some s) mid) (hss : (block stop mid).Clean ss rest) :
    (block stop ts).Clean (s :: ss) rest := by
  have hstart := first.starts
  have hne := ne_eof_of_startsStatement hstart
  have hhead : headKind ts = firstKind w := by rw [hts.headKind_eq, firstKind_append _ hne]
  obtain ⟨t, hts', ht⟩ := eq_cons_of_headKind hhead hne
  refine (block_clean_iff ..).mpr (.inr (.inr ⟨t, ts.tail, s, mid, ss, hts', ?_, hs, hss, rfl⟩))
  rw [ht]
  intro hbrace
  rw [hbrace] at hstart
  cases hstart

theorem statements_clean_cons {ts mid rest : List Token} {s : Stmt} {ss : List Stmt}
    (hs : (statement stop ts).Clean (some s) mid) (hss : (statements stop mid).Clean ss rest) :
    (statements stop ts).Clean (s :: ss) rest := by
  have hlen := statement_clean_length_lt stop hs
  obtain ⟨t, us, hts⟩ := List.exists_cons_of_length_pos (Nat.zero_lt_of_lt hlen)
  exact (statements_clean_iff ..).mpr (.inr ⟨t, us, s, mid, ss, hts, hs, hss, rfl⟩)

/-! ## Expressions, blocks and statements -/

mutual

theorem expression_complete : ∀ {l : Level} {w : List Terminal} {e : Expr}, Expression l w e →
    ∀ {ts : List Token} {v : List Terminal} {p : Precedence}, Shows ts (w ++ v) → Admits p l →
      Follows l v → ∃ us, Shows us v ∧ Reaches stop p ts e us
  | _, _, _, .tighter hm inner, ts, v, p, hts, hp, hv => by
    have hr := Level.rank_next? hm
    exact expression_complete inner hts (hp.tighter hr) (hv.tighter (by omega))
  | l, _, _, @Expression.binary _ m op _ _ _ _ _ hop hm left ht right, ts, v, p, hts, hp, hv => by
    have hr := Level.rank_next? hm
    have hl := Level.rank_le_of_mem_operators hop
    have hop' := rank_binaryKind hop
    rw [List.append_assoc, List.cons_append] at hts
    obtain ⟨mid, hmid, hleft⟩ := expression_complete left hts hp
      ⟨Nat.le_of_eq (by rw [firstKind, ht, hop']), by rw [firstKind, ht]; cases op <;> decide⟩
    obtain ⟨t, us, rfl, -, ht, hus⟩ := hmid.of_kind ht (by cases op <;> decide)
    rw [← ht] at hop'
    obtain ⟨rest, hrest, hright⟩ :=
      expression_complete right hus (p := t.kind.precedence) (.inl (by omega))
        (hv.tighter (by omega))
    -- What follows binds no tighter than this operator, so the right operand ends there.
    have hb := hright.clean stop hrest (by rw [hop']; exact hv.1)
    have hlt : p.rank < t.kind.precedence.rank := by
      rcases hp with hp | hp <;> omega
    -- The loop goes on from the left operand: one more round of it reads the operator.
    refine ⟨rest, hrest, fun r rest' ho => hleft r rest' ?_⟩
    exact (operators_clean_binary stop _ r us rest' hlt (by rw [ht, ofKind?_binaryKind])).mpr
      ⟨_, rest, hb, ho⟩
  | _, _, _, @Expression.unary op _ _ _ ht right, ts, v, p, hts, hp, hv => by
    obtain ⟨t, us, rfl, -, ht, hus⟩ := Shows.of_kind hts ht (by cases op <;> decide)
    obtain ⟨rest, hrest, hright⟩ :=
      expression_complete right hus (p := .unary) (.inr ⟨rfl, rfl⟩) hv
    have he := hright.clean stop hrest hv.1
    cases op with
    | bang => exact ⟨rest, hrest, (OperandRun.bang ht he).reaches stop p⟩
    | minus => exact ⟨rest, hrest, (OperandRun.minus ht he).reaches stop p⟩
  | _, _, _, .call callee ht list hu, ts, v, p, hts, hp, hv => by
    simp only [List.append_assoc, List.cons_append, List.nil_append] at hts
    obtain ⟨mid, hmid, hleft⟩ := expression_complete callee hts hp
      ⟨by rw [firstKind, ht]; decide, by rw [firstKind, ht]; decide⟩
    obtain ⟨t, us, rfl, -, ht, hus⟩ := hmid.of_kind ht (by decide)
    obtain ⟨rest, hrest, hargs⟩ := items_complete list (.inl rfl) hu hus
    have hlt : p.rank < t.kind.precedence.rank := by
      rw [ht]
      exact hp.rank_lt_postfixed
    refine ⟨rest, hrest, fun r rest' ho => hleft r rest' ?_⟩
    exact (operators_clean_call stop _ r us rest' hlt ht).mpr ⟨_, rest, hargs, ho⟩
  | _, _, _, .index left ht inner hu, ts, v, p, hts, hp, hv => by
    simp only [List.append_assoc, List.cons_append, List.nil_append] at hts
    obtain ⟨mid, hmid, hleft⟩ := expression_complete left hts hp
      ⟨by rw [firstKind, ht]; decide, by rw [firstKind, ht]; decide⟩
    obtain ⟨t, us, rfl, -, ht, hus⟩ := hmid.of_kind ht (by decide)
    have hinner :=
      expression_complete inner hus admits_lowest (follows_of_kind _ hu rfl (by decide))
    obtain ⟨u', rest, hi, hu', hrest⟩ := closed_of_reaches stop hinner hu rfl (by decide)
    have hlt : p.rank < t.kind.precedence.rank := by
      rw [ht]
      exact hp.rank_lt_postfixed
    refine ⟨rest, hrest, fun r rest' ho => hleft r rest' ?_⟩
    exact (operators_clean_index stop _ r us rest' hlt ht).mpr ⟨_, u', rest, hi, hu', ho⟩
  | _, _, _, .identifier ht, ts, v, p, hts, hp, hv => by
    obtain ⟨t, us, rfl, rfl, ht, hus⟩ := Shows.of_kind hts ht (by decide)
    exact ⟨us, hus, (OperandRun.identifier ht).reaches stop p⟩
  | _, _, _, .integer ht hn, ts, v, p, hts, hp, hv => by
    obtain ⟨t, us, rfl, rfl, ht, hus⟩ := Shows.of_kind hts ht (by decide)
    have hn := (ofDigits?_eq_some_iff ..).mpr ⟨hn, rfl⟩
    exact ⟨us, hus, (OperandRun.integer ht hn).reaches stop p⟩
  | _, _, _, .string ht, ts, v, p, hts, hp, hv => by
    obtain ⟨t, us, rfl, rfl, ht, hus⟩ := Shows.of_kind hts ht (by decide)
    exact ⟨us, hus, (OperandRun.string ht).reaches stop p⟩
  | _, _, _, .boolean b ht, ts, v, p, hts, hp, hv => by
    obtain ⟨t, us, rfl, rfl, ht, hus⟩ := Shows.of_kind hts ht (by cases b <;> decide)
    cases b with
    | true => exact ⟨us, hus, (OperandRun.trueWord ht).reaches stop p⟩
    | false => exact ⟨us, hus, (OperandRun.falseWord ht).reaches stop p⟩
  | _, _, _, .group ht inner hu, ts, v, p, hts, hp, hv => by
    simp only [List.append_assoc, List.cons_append, List.nil_append] at hts
    obtain ⟨t, us, rfl, -, ht, hus⟩ := hts.of_kind ht (by decide)
    have hinner :=
      expression_complete inner hus admits_lowest (follows_of_kind _ hu rfl (by decide))
    obtain ⟨u, rest, he, hu, hrest⟩ := closed_of_reaches stop hinner hu rfl (by decide)
    exact ⟨rest, hrest, (OperandRun.group ht he hu).reaches stop p⟩
  | _, _, _, .ifOnly hk ht condition hu body, ts, v, p, hts, hp, hv => by
    simp only [List.append_assoc, List.cons_append] at hts
    obtain ⟨k, us, rfl, -, hk, hus⟩ := hts.of_kind hk (by decide)
    obtain ⟨t, us, rfl, -, ht, hus⟩ := hus.of_kind ht (by decide)
    have hinner :=
      expression_complete condition hus admits_lowest (follows_of_kind _ hu rfl (by decide))
    obtain ⟨u, us, hc, hu, hus⟩ := closed_of_reaches stop hinner hu rfl (by decide)
    obtain ⟨l, us, rest, rfl, hl, hrest, hss⟩ := block_complete body hus
    -- No `else` may follow an expression, so this `if` ends here.
    have helse : headKind rest ≠ .elseWord := by
      rw [hrest.headKind_eq]
      exact hv.2
    exact ⟨rest, hrest, (OperandRun.ifOnly hk ht hc hu hl hss helse).reaches stop p⟩
  | _, _, _, .ifElse hk ht condition hu body hw alternative, ts, v, p, hts, hp, hv => by
    simp only [List.append_assoc, List.cons_append] at hts
    obtain ⟨k, us, rfl, -, hk, hus⟩ := hts.of_kind hk (by decide)
    obtain ⟨t, us, rfl, -, ht, hus⟩ := hus.of_kind ht (by decide)
    have hinner :=
      expression_complete condition hus admits_lowest (follows_of_kind _ hu rfl (by decide))
    obtain ⟨u, us, hc, hu, hus⟩ := closed_of_reaches stop hinner hu rfl (by decide)
    obtain ⟨l, us, mid, rfl, hl, hmid, hss⟩ := block_complete body hus
    obtain ⟨w, vs, rfl, -, hw, hvs⟩ := hmid.of_kind hw (by decide)
    obtain ⟨m, vs, rest, rfl, hm, hrest, hzs⟩ := block_complete alternative hvs
    exact ⟨rest, hrest, (OperandRun.ifElse hk ht hc hu hl hss hw hm hzs).reaches stop p⟩
  | _, _, _, .function hk ht names hu body, ts, v, p, hts, hp, hv => by
    simp only [List.append_assoc, List.cons_append] at hts
    obtain ⟨k, us, rfl, -, hk, hus⟩ := hts.of_kind hk (by decide)
    obtain ⟨t, us, rfl, -, ht, hus⟩ := hus.of_kind ht (by decide)
    obtain ⟨mid, hmid, hps⟩ := parameters_complete stop names hus hu
    obtain ⟨l, us, rest, rfl, hl, hrest, hss⟩ := block_complete body hmid
    exact ⟨rest, hrest, (OperandRun.function hk ht hps hl hss).reaches stop p⟩
  | _, _, _, .array ht list hu, ts, v, p, hts, hp, hv => by
    simp only [List.append_assoc, List.cons_append, List.nil_append] at hts
    obtain ⟨t, us, rfl, -, ht, hus⟩ := hts.of_kind ht (by decide)
    obtain ⟨rest, hrest, hes⟩ := items_complete list (.inr rfl) hu hus
    exact ⟨rest, hrest, (OperandRun.array ht hes).reaches stop p⟩
  | _, _, _, .hash ht list hu, ts, v, p, hts, hp, hv => by
    simp only [List.append_assoc, List.cons_append, List.nil_append] at hts
    obtain ⟨t, us, rfl, -, ht, hus⟩ := hts.of_kind ht (by decide)
    obtain ⟨rest, hrest, hps⟩ := pairs_complete list hu hus
    exact ⟨rest, hrest, (OperandRun.hash ht hps).reaches stop p⟩

theorem items_complete : ∀ {w : List Terminal} {es : List Expr}, Items w es →
    ∀ {closing : TokenKind} {ts : List Token} {u : Terminal} {v : List Terminal},
      IsClosing closing → u.kind = closing → Shows ts (w ++ u :: v) →
      ∃ us, Shows us v ∧ (expressions stop closing ts).Clean (some es) us
  | _, _, .none, closing, ts, u, v, hclosing, hu, hts => by
    obtain ⟨t, us, rfl, -, ht, hus⟩ := Shows.of_kind hts hu hclosing.ne.1
    exact ⟨us, hus, (expressions_clean_iff _ _ _ _ _ hclosing.ne.1).mpr (.inl ⟨t, rfl, ht, rfl⟩)⟩
  | _, _, .some items, closing, ts, u, v, hclosing, hu, hts => by
    obtain ⟨e, mid, fs, us, hfirst, he, hfs, rfl, hus⟩ := someItems_complete items hclosing hu hts
    have hhead : headKind ts ≠ closing := by
      intro h
      rw [h, hclosing.startsExpression_eq] at hfirst
      cases hfirst
    exact ⟨us, hus, (expressions_clean_iff _ _ _ _ _ hclosing.ne.1).mpr
      (.inr ⟨hhead, e, mid, fs, he, hfs, rfl⟩)⟩

theorem someItems_complete : ∀ {w : List Terminal} {es : List Expr}, SomeItems w es →
    ∀ {closing : TokenKind} {ts : List Token} {u : Terminal} {v : List Terminal},
      IsClosing closing → u.kind = closing → Shows ts (w ++ u :: v) →
      ∃ e mid fs us, startsExpression (headKind ts) ∧
        (expression stop .lowest ts).Clean (some e) mid ∧
        (moreExpressions stop closing mid).Clean (some fs) us ∧ es = e :: fs ∧ Shows us v
  | _, _, .one first, closing, ts, u, v, hclosing, hu, hts => by
    have hlow := hclosing.precedence_eq
    obtain ⟨heof, hcomma, helse⟩ := hclosing.ne
    have hinner := expression_complete first hts admits_lowest (follows_of_kind _ hu hlow helse)
    obtain ⟨t, us, he, ht, hus⟩ := closed_of_reaches stop hinner hu hlow heof
    have hm := (moreExpressions_clean_iff stop closing (t :: us) [] us hcomma).mpr
      (.inl ⟨t, rfl, ht, rfl⟩)
    exact ⟨_, _, [], us, hts.starts first.starts, he, hm, rfl, hus⟩
  | _, _, .more first hc rest, closing, ts, u, v, hclosing, hu, hts => by
    rw [List.append_assoc, List.cons_append] at hts
    have hinner :=
      expression_complete first hts admits_lowest (follows_of_kind _ hc rfl (by decide))
    obtain ⟨c, mid, he, hc, hmid⟩ := closed_of_reaches stop hinner hc rfl (by decide)
    obtain ⟨f, mid', fs, us, -, hf, hfs, rfl, hus⟩ := someItems_complete rest hclosing hu hmid
    have hm := (moreExpressions_clean_iff stop closing (c :: mid) _ us hclosing.ne.2.1).mpr
      (.inr ⟨c, mid, f, mid', fs, rfl, hc, hf, hfs, rfl⟩)
    exact ⟨_, _, f :: fs, us, hts.starts first.starts, he, hm, rfl, hus⟩

theorem pairs_complete : ∀ {w : List Terminal} {ps : List (Expr × Expr)}, Pairs w ps →
    ∀ {ts : List Token} {u : Terminal} {v : List Terminal}, u.kind = .rightBrace →
      Shows ts (w ++ u :: v) → ∃ us, Shows us v ∧ (pairs stop ts).Clean (some ps) us
  | _, _, .none, ts, u, v, hu, hts => by
    obtain ⟨t, us, rfl, -, ht, hus⟩ := Shows.of_kind hts hu (by decide)
    exact ⟨us, hus, (pairs_clean_iff ..).mpr (.inl ⟨t, rfl, ht, rfl⟩)⟩
  | _, _, .last key hc value, ts, u, v, hu, hts => by
    rw [List.append_assoc, List.cons_append] at hts
    have hkey := expression_complete key hts admits_lowest (follows_of_kind _ hc rfl (by decide))
    obtain ⟨c, mid, hk, hc, hmid⟩ := closed_of_reaches stop hkey hc rfl (by decide)
    have hvalue :=
      expression_complete value hmid admits_lowest (follows_of_kind _ hu rfl (by decide))
    obtain ⟨t, us, hv, ht, hus⟩ := closed_of_reaches stop hvalue hu rfl (by decide)
    refine ⟨us, hus, (pairs_clean_iff ..).mpr (.inr ⟨hts.headKind_ne key.starts rfl, ?_⟩)⟩
    exact ⟨_, c, mid, _, t :: us, hk, hc, hv, .inl ⟨t, rfl, ht, rfl⟩⟩
  | _, _, .more key hc value hd rest, ts, u, v, hu, hts => by
    simp only [List.append_assoc, List.cons_append] at hts
    have hkey := expression_complete key hts admits_lowest (follows_of_kind _ hc rfl (by decide))
    obtain ⟨c, mid, hk, hc, hmid⟩ := closed_of_reaches stop hkey hc rfl (by decide)
    have hvalue :=
      expression_complete value hmid admits_lowest (follows_of_kind _ hd rfl (by decide))
    obtain ⟨d, vs, hv, hd, hvs⟩ := closed_of_reaches stop hvalue hd rfl (by decide)
    obtain ⟨us, hus, hps⟩ := pairs_complete rest hu hvs
    refine ⟨us, hus, (pairs_clean_iff ..).mpr (.inr ⟨hts.headKind_ne key.starts rfl, ?_⟩)⟩
    exact ⟨_, c, mid, _, d :: vs, hk, hc, hv, .inr ⟨d, vs, _, rfl, hd, hps, rfl⟩⟩

theorem block_complete : ∀ {w : List Terminal} {ss : List Stmt}, Grammar.Block w ss →
    ∀ {ts : List Token} {v : List Terminal}, Shows ts (w ++ v) →
      ∃ t us rest, ts = t :: us ∧ t.kind = .leftBrace ∧ Shows rest v ∧
        (block stop us).Clean ss rest
  | _, _, .braces ht list hu, ts, v, hts => by
    simp only [List.append_assoc, List.cons_append, List.nil_append] at hts
    obtain ⟨t, us, rfl, -, ht, hus⟩ := hts.of_kind ht (by decide)
    obtain ⟨rest, hrest, hss⟩ := statements_complete list hu hus
    exact ⟨t, us, rest, rfl, ht, hrest, hss⟩

theorem statements_complete : ∀ {w : List Terminal} {ss : List Stmt}, Statements w ss →
    ∀ {ts : List Token} {u : Terminal} {v : List Terminal},
      u.kind = .rightBrace ∨ u.kind = .eof → Shows ts (w ++ u :: v) →
      ∃ us, Shows us v ∧ (block stop ts).Clean ss us
  | _, _, .nil, ts, u, v, hu, hts => by
    rcases hu with hu | hu
    · obtain ⟨t, us, rfl, -, ht, hus⟩ := Shows.of_kind hts hu (by decide)
      exact ⟨us, hus, (block_clean_iff ..).mpr (.inr (.inl ⟨t, rfl, ht, rfl⟩))⟩
    · obtain ⟨rfl, hrest⟩ := Shows.atEnd hts hu
      exact ⟨[], hrest, (block_clean_iff ..).mpr (.inl ⟨rfl, rfl, rfl⟩)⟩
  | _, _, .ended first ht rest, ts, u, v, hu, hts => by
    rw [List.append_assoc, List.cons_append] at hts
    obtain ⟨mid, hmid, run⟩ := statement_complete first hts (by rw [firstKind, ht]; rfl)
      (by rw [firstKind, ht]; decide)
    obtain ⟨mid, hmid, hs⟩ := run.clean_ended stop hmid ht
    obtain ⟨us, hus, hss⟩ := statements_complete rest hu hmid
    exact ⟨us, hus, block_clean_cons stop first hts hs hss⟩
  | _, _, .unended first hc rest, ts, u, v, hu, hts => by
    rw [List.append_assoc] at hts
    obtain ⟨hlow, helse, hsemi⟩ := follows_unended rest hc v hu
    obtain ⟨mid, hmid, run⟩ := statement_complete first hts hlow helse
    have hs := run.clean_unended stop hmid hsemi
    obtain ⟨us, hus, hss⟩ := statements_complete rest hu hmid
    exact ⟨us, hus, block_clean_cons stop first hts hs hss⟩

theorem statement_complete : ∀ {w : List Terminal} {s : Stmt}, Statement w s →
    ∀ {ts : List Token} {v : List Terminal}, Shows ts (w ++ v) →
      (firstKind v).precedence = .lowest → firstKind v ≠ .elseWord →
      ∃ mid, Shows mid v ∧ StatementRun stop ts s mid
  | _, _, .bind hk hn ht value, ts, v, hts, hlow, helse => by
    obtain ⟨k, us, rfl, -, hk, hus⟩ := Shows.of_kind hts hk (by decide)
    obtain ⟨n, us, rfl, rfl, hn, hus⟩ := Shows.of_kind hus hn (by decide)
    obtain ⟨t, us, rfl, -, ht, hus⟩ := Shows.of_kind hus ht (by decide)
    obtain ⟨mid, hmid, hgo⟩ :=
      expression_complete value hus admits_lowest (follows_of_kind _ rfl hlow helse)
    have he := hgo.clean_of_lowest stop hmid hlow
    exact ⟨mid, hmid, .bind hk hn ht he⟩
  | _, _, .ret hk value, ts, v, hts, hlow, helse => by
    obtain ⟨k, us, rfl, -, hk, hus⟩ := Shows.of_kind hts hk (by decide)
    obtain ⟨mid, hmid, hgo⟩ :=
      expression_complete value hus admits_lowest (follows_of_kind _ rfl hlow helse)
    have he := hgo.clean_of_lowest stop hmid hlow
    exact ⟨mid, hmid, .ret hk he⟩
  | _, _, .expr value, ts, v, hts, hlow, helse => by
    obtain ⟨mid, hmid, hgo⟩ :=
      expression_complete value hts admits_lowest (follows_of_kind _ rfl hlow helse)
    have he := hgo.clean_of_lowest stop hmid hlow
    have hstart := value.starts
    exact ⟨mid, hmid, .expr (hts.headKind_ne hstart rfl) (hts.headKind_ne hstart rfl) he⟩

end

theorem whole_complete : ∀ {w : List Terminal} {ss : List Stmt}, Statements w ss →
    ∀ {ts : List Token} {u : Terminal} {v : List Terminal}, u.kind = .eof →
      Shows ts (w ++ u :: v) → (statements stop ts).Clean ss []
  | _, _, .nil, ts, u, v, hu, hts => by
    obtain ⟨rfl, -⟩ := Shows.atEnd hts hu
    exact (statements_clean_iff ..).mpr (.inl ⟨rfl, rfl, rfl⟩)
  | _, _, .ended first ht rest, ts, u, v, hu, hts => by
    rw [List.append_assoc, List.cons_append] at hts
    obtain ⟨mid, hmid, run⟩ := statement_complete stop first hts (by rw [firstKind, ht]; rfl)
      (by rw [firstKind, ht]; decide)
    obtain ⟨mid, hmid, hs⟩ := run.clean_ended stop hmid ht
    exact statements_clean_cons stop hs (whole_complete rest hu hmid)
  | _, _, .unended first hc rest, ts, u, v, hu, hts => by
    rw [List.append_assoc] at hts
    obtain ⟨hlow, helse, hsemi⟩ := follows_unended rest hc v (.inr hu)
    obtain ⟨mid, hmid, run⟩ := statement_complete stop first hts hlow helse
    have hs := run.clean_unended stop hmid hsemi
    exact statements_clean_cons stop hs (whole_complete rest hu hmid)

end Parser

end Monkey
