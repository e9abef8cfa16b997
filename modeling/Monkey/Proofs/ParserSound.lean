import Monkey.Proofs.Grammar
import Monkey.Proofs.ParserRuns

/-!
# What the parser accepts is in the grammar

A clean run of each parser function reads a piece of the input that the grammar derives. The loop
over operators carries the level of the expression read so far: the next operator never binds
tighter.
-/

namespace Monkey

open Grammar

/-! ## What a run reads -/

/-- Reading `w` off the tokens leaves `rest`. Both may be followed by ends of the input. -/
def Consumes (ts : List Token) (w : List Terminal) (rest : List Token) : Prop :=
  ∃ n k, ts.map Token.terminal ++ List.replicate n .endOfInput =
    w ++ (rest.map Token.terminal ++ List.replicate k .endOfInput)

theorem consumes_nil (ts : List Token) : Consumes ts [] ts := ⟨0, 0, rfl⟩

theorem Consumes.trans {ts mid rest : List Token} {v w : List Terminal} (h : Consumes ts v mid)
    (k : Consumes mid w rest) : Consumes ts (v ++ w) rest := by
  obtain ⟨n, i, hn⟩ := h
  obtain ⟨m, j, hm⟩ := k
  refine ⟨n + m, j + i, ?_⟩
  calc ts.map Token.terminal ++ List.replicate (n + m) .endOfInput
      = ts.map Token.terminal ++ List.replicate n .endOfInput ++
          List.replicate m .endOfInput := by
        rw [List.append_assoc, List.replicate_append_replicate]
    _ = v ++ (mid.map Token.terminal ++ List.replicate m .endOfInput ++
          List.replicate i .endOfInput) := by
        simp [hn, Nat.add_comm]
    _ = v ++ w ++ (rest.map Token.terminal ++ List.replicate (j + i) .endOfInput) := by
        simp [hm]

theorem Consumes.cons {ts rest : List Token} {w : List Terminal} (t : Token)
    (h : Consumes ts w rest) : Consumes (t :: ts) (t.terminal :: w) rest := by
  obtain ⟨n, k, hn⟩ := h
  exact ⟨n, k, by simp [hn]⟩

theorem Consumes.snoc {ts rest : List Token} {w : List Terminal} {t : Token}
    (h : Consumes ts w (t :: rest)) : Consumes ts (w ++ [t.terminal]) rest :=
  h.trans (.cons t (consumes_nil rest))

theorem consumes_end : Consumes [] [.endOfInput] [] := ⟨1, 0, rfl⟩

theorem Consumes.head_kind {ts rest : List Token} {t : Terminal} {w : List Terminal}
    (h : Consumes ts (t :: w) rest) : t.kind = headKind ts := by
  obtain ⟨n, k, hn⟩ := h
  cases ts with
  | nil =>
    cases n with
    | zero => cases hn
    | succ n => rw [← (List.cons.inj hn).1]; rfl
  | cons u us => rw [← (List.cons.inj hn).1]; rfl

/-! ## The level of a precedence -/

/-- The loosest level that the parser reads for a precedence. -/
def Precedence.level : Precedence → Level
  | lowest => .equality
  | equality => .comparison
  | comparison => .sum
  | sum => .product
  | product | unary | postfixed => .unary

theorem exists_cons_of_rank_lt {ts : List Token} {r : Nat}
    (h : r < (headKind ts).precedence.rank) : ∃ t us, ts = t :: us := by
  cases ts with
  | nil => exact absurd h (Nat.not_lt_zero r)
  | cons t us => exact ⟨t, us, rfl⟩

theorem rank_postfix {k : TokenKind} (h : k = .leftParen ∨ k = .leftBracket) :
    k.precedence.rank = Level.postfixed.rank := by
  rcases h with rfl | rfl <;> rfl

theorem rank_level_le (p : Precedence) : p.level.rank ≤ 5 := by
  cases p <;> decide

theorem rank_level_le_postfixed (p : Precedence) : p.level.rank ≤ Level.postfixed.rank :=
  Nat.le_trans (rank_level_le p) (by decide)

theorem rank_level_le_of_lt {p : Precedence} {r : Nat} (h : p.rank < r) : p.level.rank ≤ r := by
  cases p <;> simp only [Precedence.rank, Precedence.level, Level.rank] at h ⊢ <;> omega

theorem next?_eq_level {l : Level} {op : BinaryOp} (h : op ∈ l.operators) :
    l.next? = some (binaryKind op).precedence.level := by
  cases l <;> simp only [Level.operators, List.mem_cons, List.not_mem_nil, or_false] at h
  all_goals rcases h with rfl | rfl <;> rfl

theorem ofDigits?_eq_some_iff (ds : List Char) (n : Int64) :
    Integer.ofDigits? ds = some n ↔
      Integer.valueOfDigits ds ≤ 9223372036854775807 ∧
        n = .ofNat (Integer.valueOfDigits ds) := by
  unfold Integer.ofDigits? Integer.ofInt? Integer.least Integer.greatest
  rw [← Int64.ofInt_eq_ofNat]
  split
  · rename_i hv
    have hle : Integer.valueOfDigits ds ≤ 9223372036854775807 := by omega
    simp [hle, eq_comm]
  · rename_i hv
    have hle : ¬ Integer.valueOfDigits ds ≤ 9223372036854775807 := by omega
    simp [hle]

namespace Parser

variable (stop : Span)

/-! ## Parameters -/

theorem moreParameters_sound (ts : List Token) (ns : List String) (rest : List Token)
    (h : (moreParameters stop ts).Clean (some ns) rest) (t : Terminal)
    (ht : t.kind = .identifier) :
    ∃ w u, Names (t :: w) (t.literal :: ns) ∧ u.kind = .rightParen ∧
      Consumes ts (w ++ [u]) rest := by
  rcases (moreParameters_clean_iff ..).mp h with
    ⟨u, rfl, hu, rfl⟩ | ⟨c, p, us, ms, rfl, hc, hp, hm, rfl⟩
  · exact ⟨[], u.terminal, .one ht, hu, .cons u (consumes_nil rest)⟩
  · obtain ⟨w, u, hw, hu, hr⟩ := moreParameters_sound us ms rest hm p.terminal hp
    exact ⟨c.terminal :: p.terminal :: w, u, .more ht hc hw, hu, .cons c (.cons p hr)⟩
termination_by ts.length

theorem parameters_sound (ts : List Token) (ns : List String) (rest : List Token)
    (h : (parameters stop ts).Clean (some ns) rest) :
    ∃ w u, Parameters w ns ∧ u.kind = .rightParen ∧ Consumes ts (w ++ [u]) rest := by
  rcases (parameters_clean_iff ..).mp h with ⟨u, rfl, hu, rfl⟩ | ⟨p, us, ms, rfl, hp, hm, rfl⟩
  · exact ⟨[], u.terminal, .none, hu, .cons u (consumes_nil rest)⟩
  · obtain ⟨w, u, hw, hu, hr⟩ := moreParameters_sound stop us ms rest hm p.terminal hp
    exact ⟨p.terminal :: w, u, .some hw, hu, .cons p hr⟩

/-! ## Expressions, blocks and statements -/

theorem statements_cons {ts mid rest : List Token} {v w : List Terminal} {u : Terminal} {s : Stmt}
    {ss : List Stmt} (first : Statement v s) (hv : Consumes ts v mid)
    (hmid : (headKind mid).precedence.rank ≤ 0) (list : Statements w ss)
    (hw : Consumes (skipSemicolon mid) (w ++ [u]) rest) :
    ∃ w, Statements w (s :: ss) ∧ Consumes ts (w ++ [u]) rest := by
  by_cases hk : headKind mid = .semicolon
  · obtain ⟨t, hmid, ht⟩ := eq_cons_of_headKind hk (by decide)
    rw [hmid] at hv
    rw [hmid, skipSemicolon, if_pos ht] at hw
    refine ⟨v ++ t.terminal :: w, .ended first ht list, ?_⟩
    simpa using hv.trans (.cons t hw)
  · rw [skipSemicolon_eq_self hk] at hw
    refine ⟨v ++ w, .unended first ?_ list, by simpa using hv.trans hw⟩
    -- What comes next is no operator, or the expression would have gone on.
    intro x hx
    cases w with
    | nil => cases hx
    | cons y w =>
      cases hx
      rw [Consumes.head_kind hw]
      exact not_continues_of_rank hmid

/-- What clean runs on the tokens read is what the grammar derives. -/
structure SoundAt (ts : List Token) : Prop where
  expression : ∀ p e rest, (expression stop p ts).Clean (some e) rest →
    ∃ w, Expression p.level w e ∧ Consumes ts w rest ∧ (headKind rest).precedence.rank ≤ p.rank
  /-- The expression so far is of a level no looser than the operator that comes next. -/
  operators : ∀ p left e rest l v, (operators stop p left ts).Clean (some e) rest →
    Expression l v left → (headKind ts).precedence.rank ≤ l.rank → p.level.rank ≤ l.rank →
    ∃ w, Expression p.level (v ++ w) e ∧ Consumes ts w rest ∧
      (headKind rest).precedence.rank ≤ p.rank
  items : ∀ closing es rest, closing ≠ .eof → closing ≠ .comma →
    (expressions stop closing ts).Clean (some es) rest →
    ∃ w u, Items w es ∧ u.kind = closing ∧ Consumes ts (w ++ [u]) rest
  moreItems : ∀ closing es rest v e, closing ≠ .comma →
    (moreExpressions stop closing ts).Clean (some es) rest → Expression .equality v e →
    ∃ w u, SomeItems (v ++ w) (e :: es) ∧ u.kind = closing ∧ Consumes ts (w ++ [u]) rest
  pairs : ∀ ps rest, (pairs stop ts).Clean (some ps) rest →
    ∃ w u, Pairs w ps ∧ u.kind = .rightBrace ∧ Consumes ts (w ++ [u]) rest
  block : ∀ ss rest, (block stop ts).Clean ss rest →
    ∃ w u, Statements w ss ∧ (u.kind = .rightBrace ∨ u.kind = .eof) ∧ Consumes ts (w ++ [u]) rest
  statement : ∀ s mid, StatementRun stop ts s mid →
    ∃ w, Statement w s ∧ Consumes ts w mid ∧ (headKind mid).precedence.rank ≤ 0

/-- One round of the loop: what was read with the operator is the left operand of the rest. -/
theorem operators_sound_step {stop : Span} {t : Token} {us mid rest : List Token} {p : Precedence}
    {left e : Expr} {l : Level} {v x : List Terminal} (ih : SoundAt stop mid)
    (hleft : Expression l (v ++ t.terminal :: x) left) (hx : Consumes us x mid)
    (hhead : (headKind mid).precedence.rank ≤ l.rank) (hl : p.level.rank ≤ l.rank)
    (ho : (operators stop p left mid).Clean (some e) rest) :
    ∃ w, Expression p.level (v ++ w) e ∧ Consumes (t :: us) w rest ∧
      (headKind rest).precedence.rank ≤ p.rank := by
  obtain ⟨w, hw, hread, hstop⟩ := ih.operators p left e rest l _ ho hleft hhead hl
  refine ⟨t.terminal :: x ++ w, by simpa using hw, ?_, hstop⟩
  simpa using Consumes.cons t (hx.trans hread)

section

variable {ts : List Token} (ih : ∀ us : List Token, us.length < ts.length → SoundAt stop us)

include ih

theorem operand_sound (e : Expr) (rest : List Token) (h : OperandRun stop ts e rest) :
    ∃ l w, Expression l w e ∧ Consumes ts w rest ∧
      (headKind rest).precedence.rank ≤ l.rank ∧ 5 ≤ l.rank := by
  -- Every operand but a unary one is primary, and any operator may follow it.
  have primary : ∀ w, Expression .primary w e → Consumes ts w rest →
      ∃ l w, Expression l w e ∧ Consumes ts w rest ∧
        (headKind rest).precedence.rank ≤ l.rank ∧ 5 ≤ l.rank := by
    intro w hw hread
    exact ⟨.primary, w, hw, hread, Nat.le_succ_of_le (rank_precedence_le _), by decide⟩
  cases h with
  | @identifier t _ hk =>
    exact primary _ (.identifier (t := t.terminal) hk) (.cons t (consumes_nil rest))
  | @integer t _ n hk hn =>
    obtain ⟨hv, rfl⟩ := (ofDigits?_eq_some_iff ..).mp hn
    exact primary _ (.integer (t := t.terminal) hk hv) (.cons t (consumes_nil rest))
  | @string t _ hk => exact primary _ (.string (t := t.terminal) hk) (.cons t (consumes_nil rest))
  | @trueWord t _ hk =>
    exact primary _ (.boolean (t := t.terminal) true hk) (.cons t (consumes_nil rest))
  | @falseWord t _ hk =>
    exact primary _ (.boolean (t := t.terminal) false hk) (.cons t (consumes_nil rest))
  | @bang t us _ a hk hs | @minus t us _ a hk hs =>
    obtain ⟨w, hw, hread, hstop⟩ := (ih us (Nat.lt_succ_self _)).expression .unary a rest hs
    exact ⟨.unary, t.terminal :: w, .unary hk hw, .cons t hread, hstop, by decide⟩
  | @group t u us _ _ hk hs hu =>
    obtain ⟨w, hw, hread, -⟩ := (ih us (Nat.lt_succ_self _)).expression .lowest e _ hs
    exact primary _ (.group (t := t.terminal) (u := u.terminal) hk hw hu) (.cons t hread.snoc)
  | @ifOnly k t u l us mid _ c ss hk ht hs hu hl hss _ =>
    have hlen := hs.length_le
    simp only [List.length_cons] at ih hlen
    obtain ⟨w, hw, hread, -⟩ := (ih us (by omega)).expression .lowest c _ hs
    obtain ⟨x, b, hx, hb, hreadx⟩ := (ih mid (by omega)).block ss rest hss
    refine primary _ (.ifOnly (k := k.terminal) (t := t.terminal) (u := u.terminal) hk ht hw hu
      (.braces (t := l.terminal) hl hx hb)) ?_
    simpa using (hread.trans (.cons u (.cons l hreadx)) |>.cons t).cons k
  | @ifElse k t u l w' m us mid vs _ c ss zs hk ht hs hu hl hss hw' hm hzs =>
    have hlen := hs.length_le
    have hlen' := hss.length_le
    simp only [List.length_cons] at ih hlen hlen'
    obtain ⟨w, hw, hread, -⟩ := (ih us (by omega)).expression .lowest c _ hs
    obtain ⟨x, b, hx, hb, hreadx⟩ := (ih mid (by omega)).block ss _ hss
    obtain ⟨y, d, hy, hd, hready⟩ := (ih vs (by omega)).block zs rest hzs
    refine primary _ (.ifElse (k := k.terminal) (t := t.terminal) (u := u.terminal)
      (w := w'.terminal) hk ht hw hu (.braces (t := l.terminal) hl hx hb) hw'
      (.braces (t := m.terminal) hm hy hd)) ?_
    have hall := hreadx.trans (.cons w' (.cons m hready))
    simpa using (hread.trans (.cons u (.cons l hall)) |>.cons t).cons k
  | @function k t l us mid _ ps ss hk ht hs hl hss =>
    have hlen := hs.length_le
    simp only [List.length_cons] at ih hlen
    obtain ⟨w, u, hw, hu, hread⟩ := parameters_sound stop us ps _ hs
    obtain ⟨x, b, hx, hb, hreadx⟩ := (ih mid (by omega)).block ss rest hss
    refine primary _ (.function (k := k.terminal) (t := t.terminal) hk ht hw hu
      (.braces (t := l.terminal) hl hx hb)) ?_
    simpa using (hread.trans (.cons l hreadx) |>.cons t).cons k
  | @array t us _ es hk hs =>
    obtain ⟨w, u, hw, hu, hread⟩ :=
      (ih us (Nat.lt_succ_self _)).items .rightBracket es rest (by decide) (by decide) hs
    exact primary _ (.array (t := t.terminal) hk hw hu) (.cons t hread)
  | @hash t us _ ps hk hs =>
    obtain ⟨w, u, hw, hu, hread⟩ := (ih us (Nat.lt_succ_self _)).pairs ps rest hs
    exact primary _ (.hash (t := t.terminal) hk hw hu) (.cons t hread)

theorem operators_sound (p : Precedence) (left e : Expr) (rest : List Token) (l : Level)
    (v : List Terminal) (h : (operators stop p left ts).Clean (some e) rest)
    (hv : Expression l v left) (hhead : (headKind ts).precedence.rank ≤ l.rank)
    (hl : p.level.rank ≤ l.rank) :
    ∃ w, Expression p.level (v ++ w) e ∧ Consumes ts w rest ∧
      (headKind rest).precedence.rank ≤ p.rank := by
  by_cases hp : (headKind ts).precedence.rank ≤ p.rank
  · obtain ⟨rfl, rfl⟩ := (operators_clean_done stop left e rest hp).mp h
    exact ⟨[], by simpa using hv.looser hl, consumes_nil ts, hp⟩
  · obtain ⟨t, us, rfl⟩ := exists_cons_of_rank_lt (Nat.lt_of_not_le hp)
    have hlt : p.rank < t.kind.precedence.rank := Nat.lt_of_not_le hp
    have ihus := ih us (Nat.lt_succ_self _)
    cases hop : BinaryOp.ofKind? t.kind with
    | some op =>
      obtain ⟨right, mid, hr, ho⟩ := (operators_clean_binary stop left e us rest hlt hop).mp h
      have hmid := expression_clean_length_lt stop hr
      obtain ⟨x, hx, hreadx, hheadx⟩ := ihus.expression _ right mid hr
      obtain ⟨k, hmem⟩ := exists_level op
      have hk := eq_binaryKind hop
      have hrank : t.kind.precedence.rank = k.rank := by rw [hk, rank_binaryKind hmem]
      have hnext : k.next? = some t.kind.precedence.level := by rw [hk, next?_eq_level hmem]
      -- The operator binds no tighter than the left operand, which is thus of its level.
      have hbin : Expression k (v ++ t.terminal :: x) (.binary left op right) :=
        .binary hmem hnext (hv.looser (by rw [← hrank]; exact hhead)) hk hx
      rw [hrank] at hheadx hlt
      exact operators_sound_step (ih mid (Nat.lt_succ_of_lt hmid)) hbin hreadx hheadx
        (rank_level_le_of_lt hlt) ho
    | none =>
      have hsix := rank_postfix (postfix_of_ofKind?_eq_none hop (Nat.zero_lt_of_lt hlt))
      have hleft : Expression .postfixed v left := hv.looser (by rw [← hsix]; exact hhead)
      rcases postfix_of_ofKind?_eq_none hop (Nat.zero_lt_of_lt hlt) with hk | hk
      · obtain ⟨args, mid, ha, ho⟩ := (operators_clean_call stop left e us rest hlt hk).mp h
        obtain ⟨x, u, hx, hu, hreadx⟩ :=
          ihus.items .rightParen args mid (by decide) (by decide) ha
        exact operators_sound_step (ih mid (Nat.lt_succ_of_le ha.length_le))
          (.call (t := t.terminal) hleft hk hx hu) hreadx (rank_precedence_le _)
          (rank_level_le_postfixed p) ho
      · obtain ⟨i, u, mid, hi, hu, ho⟩ :=
          (operators_clean_index stop left e us rest hlt hk).mp h
        have hmid := expression_clean_length_lt stop hi
        simp only [List.length_cons] at ih hmid
        obtain ⟨x, hx, hreadx, -⟩ := ihus.expression .lowest i (u :: mid) hi
        exact operators_sound_step (ih mid (by omega))
          (.index (t := t.terminal) (u := u.terminal) hleft hk hx hu) hreadx.snoc
          (rank_precedence_le _) (rank_level_le_postfixed p) ho

theorem expression_sound (p : Precedence) (e : Expr) (rest : List Token)
    (h : (expression stop p ts).Clean (some e) rest) :
    ∃ w, Expression p.level w e ∧ Consumes ts w rest ∧
      (headKind rest).precedence.rank ≤ p.rank := by
  obtain ⟨left, mid, hl, ho⟩ := (expression_clean_iff ..).mp h
  obtain ⟨l, v, hv, hread, hhead, hrank⟩ :=
    operand_sound stop ih left mid (operandRun_of_clean stop hl)
  obtain ⟨w, hw, hrest, hstop⟩ := (ih mid (operand_clean_length_lt stop hl)).operators p left e
    rest l v ho hv hhead (Nat.le_trans (rank_level_le p) hrank)
  exact ⟨v ++ w, hw, hread.trans hrest, hstop⟩

theorem expressions_sound (closing : TokenKind) (es : List Expr) (rest : List Token)
    (heof : closing ≠ .eof) (hcomma : closing ≠ .comma)
    (h : (expressions stop closing ts).Clean (some es) rest) :
    ∃ w u, Items w es ∧ u.kind = closing ∧ Consumes ts (w ++ [u]) rest := by
  rcases (expressions_clean_iff stop closing ts es rest heof).mp h with
    ⟨u, rfl, hu, rfl⟩ | ⟨-, e, mid, fs, he, hfs, rfl⟩
  · exact ⟨[], u.terminal, .none, hu, .cons u (consumes_nil rest)⟩
  · obtain ⟨v, hv, hread, -⟩ := expression_sound stop ih .lowest e mid he
    obtain ⟨w, u, hw, hu, hrest⟩ :=
      (ih mid (expression_clean_length_lt stop he)).moreItems closing fs rest v e hcomma hfs hv
    exact ⟨v ++ w, u, .some hw, hu, by simpa using hread.trans hrest⟩

theorem moreExpressions_sound (closing : TokenKind) (es : List Expr) (rest : List Token)
    (v : List Terminal) (e : Expr) (hcomma : closing ≠ .comma)
    (h : (moreExpressions stop closing ts).Clean (some es) rest)
    (hv : Expression .equality v e) :
    ∃ w u, SomeItems (v ++ w) (e :: es) ∧ u.kind = closing ∧ Consumes ts (w ++ [u]) rest := by
  rcases (moreExpressions_clean_iff stop closing ts es rest hcomma).mp h with
    ⟨u, rfl, hu, rfl⟩ | ⟨c, us, f, mid, fs, rfl, hc, hf, hfs, rfl⟩
  · exact ⟨[], u.terminal, by simpa using SomeItems.one hv, hu, .cons u (consumes_nil rest)⟩
  · have hmid := expression_clean_length_lt stop hf
    obtain ⟨x, hx, hread, -⟩ := (ih us (Nat.lt_succ_self _)).expression .lowest f mid hf
    obtain ⟨w, u, hw, hu, hrest⟩ :=
      (ih mid (Nat.lt_succ_of_lt hmid)).moreItems closing fs rest x f hcomma hfs hx
    refine ⟨c.terminal :: (x ++ w), u, .more hv hc hw, hu, ?_⟩
    simpa using Consumes.cons c (hread.trans hrest)

theorem pairs_sound (ps : List (Expr × Expr)) (rest : List Token)
    (h : (pairs stop ts).Clean (some ps) rest) :
    ∃ w u, Pairs w ps ∧ u.kind = .rightBrace ∧ Consumes ts (w ++ [u]) rest := by
  rcases (pairs_clean_iff ..).mp h with
    ⟨u, rfl, hu, rfl⟩ | ⟨-, k, c, us, v, mid, hk, hc, hv, h⟩
  · exact ⟨[], u.terminal, .none, hu, .cons u (consumes_nil rest)⟩
  · have hus := expression_clean_length_lt stop hk
    have hmid := expression_clean_length_lt stop hv
    obtain ⟨x, hx, hreadx, -⟩ := expression_sound stop ih .lowest k _ hk
    rw [List.length_cons] at hus
    obtain ⟨y, hy, hready, -⟩ := (ih us (by omega)).expression .lowest v mid hv
    have hread := hreadx.trans (.cons c hready)
    rcases h with ⟨u, rfl, hu, rfl⟩ | ⟨d, vs, qs, rfl, hd, hq, rfl⟩
    · exact ⟨x ++ c.terminal :: y, u.terminal, .last hx hc hy, hu, hread.snoc⟩
    · rw [List.length_cons] at hmid
      obtain ⟨w, u, hw, hu, hrest⟩ := (ih vs (by omega)).pairs qs rest hq
      refine ⟨x ++ c.terminal :: (y ++ d.terminal :: w), u, .more hx hc hy hd hw, hu, ?_⟩
      simpa using hread.trans (.cons d hrest)

theorem statement_sound (s : Stmt) (mid : List Token) (h : StatementRun stop ts s mid) :
    ∃ w, Statement w s ∧ Consumes ts w mid ∧ (headKind mid).precedence.rank ≤ 0 := by
  cases h with
  | @bind k n a us _ e hk hn ha he =>
    simp only [List.length_cons] at ih
    obtain ⟨w, hw, hread, hstop⟩ := (ih us (by omega)).expression .lowest e mid he
    exact ⟨_, .bind (k := k.terminal) (n := n.terminal) (t := a.terminal) hk hn ha hw,
      .cons k (.cons n (.cons a hread)), hstop⟩
  | @ret k us _ e hk he =>
    obtain ⟨w, hw, hread, hstop⟩ := (ih us (Nat.lt_succ_self _)).expression .lowest e mid he
    exact ⟨_, .ret (k := k.terminal) hk hw, .cons k hread, hstop⟩
  | @expr _ _ e _ _ he =>
    obtain ⟨w, hw, hread, hstop⟩ := expression_sound stop ih .lowest e mid he
    exact ⟨w, .expr hw, hread, hstop⟩

theorem block_sound (ss : List Stmt) (rest : List Token) (h : (block stop ts).Clean ss rest) :
    ∃ w u, Statements w ss ∧ (u.kind = .rightBrace ∨ u.kind = .eof) ∧
      Consumes ts (w ++ [u]) rest := by
  rcases (block_clean_iff ..).mp h with
    ⟨rfl, rfl, rfl⟩ | ⟨u, rfl, hu, rfl⟩ | ⟨t, us, s, mid, zs, -, -, hs, hz, rfl⟩
  · exact ⟨[], .endOfInput, .nil, .inr rfl, consumes_end⟩
  · exact ⟨[], u.terminal, .nil, .inl hu, .cons u (consumes_nil rest)⟩
  · have hlen := statement_clean_length_lt stop hs
    obtain ⟨mid', run, rfl⟩ := (statement_clean_iff ..).mp hs
    obtain ⟨v, hv, hread, hhead⟩ := statement_sound stop ih s mid' run
    obtain ⟨w, u, hw, hu, hrest⟩ := (ih _ hlen).block zs rest hz
    obtain ⟨x, hx, hreadx⟩ := statements_cons hv hread hhead hw hrest
    exact ⟨x, u, hx, hu, hreadx⟩

end

theorem soundAt (ts : List Token) : SoundAt stop ts :=
  have ih : ∀ us : List Token, us.length < ts.length → SoundAt stop us := fun us _ => soundAt us
  ⟨expression_sound stop ih, operators_sound stop ih, expressions_sound stop ih,
    moreExpressions_sound stop ih, pairs_sound stop ih, block_sound stop ih,
    statement_sound stop ih⟩
termination_by ts.length

theorem statements_sound (ts : List Token) (ss : List Stmt) (rest : List Token)
    (h : (statements stop ts).Clean ss rest) :
    ∃ w, Statements w ss ∧ Consumes ts (w ++ [.endOfInput]) [] := by
  rcases (statements_clean_iff ..).mp h with
    ⟨rfl, rfl, rfl⟩ | ⟨t, us, s, mid, zs, -, hs, hz, rfl⟩
  · exact ⟨[], .nil, consumes_end⟩
  · have hlen := statement_clean_length_lt stop hs
    obtain ⟨mid', run, rfl⟩ := (statement_clean_iff ..).mp hs
    obtain ⟨v, hv, hread, hhead⟩ := (soundAt stop ts).statement s mid' run
    obtain ⟨w, hw, hrest⟩ := statements_sound _ zs rest hz
    exact statements_cons hv hread hhead hw hrest
termination_by ts.length

end Parser

end Monkey
