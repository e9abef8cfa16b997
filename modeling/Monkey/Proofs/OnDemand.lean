import Mathlib.Data.List.ReduceOption
import Mathlib.Data.Stream.Init
import Monkey.Proofs.Spans

/-!
# Tokens on demand

The two ways to ask a lexer for a token read from one supply: the tokens of the text, and then the
end of the input forever. Requests of both kinds may come in any order. Only `next?` can run dry,
and what `nextToken` has given does not matter to it.
-/

namespace Monkey

/-! ## The supply of tokens -/

namespace Cursor

/-- All that there is to be read: the tokens of the unread text, and then the end of the input
forever. -/
def supply (s : Cursor) : Stream' Token :=
  s.tokens ++ₛ .const (.endOfInput s.endPosition)

theorem supply_eq_cons (s : Cursor) : s.supply = .cons s.next.1 s.next.2.supply := by
  cases h : s.rest.dropWhile isBlank with
  | nil =>
    -- The cursor stays at the end of the text, where the supply does not get less.
    have hend : (Cursor.mk [] s.endPosition).supply = .const (.endOfInput s.endPosition) := by
      rw [supply, tokens_eq_nil rfl, Stream'.nil_append_stream]
      rfl
    rw [next_eq_end h, hend, supply, tokens_eq_nil h, Stream'.nil_append_stream]
    exact Stream'.const_eq _
  | cons c cs =>
    rw [supply, supply, tokens_eq_cons h, endPosition_next, Stream'.cons_append_stream]

end Cursor

theorem Reading.supply_eq {source : String} (r : Reading source) :
    (Cursor.ofSource source).supply =
      r.occurrences.map Occurrence.token ++ₛ .const (.endOfInput (.behind source.toList)) := by
  obtain ⟨htokens, hend⟩ := List.append_inj' r.tokens rfl
  rw [Cursor.supply, htokens, List.singleton_inj.mp hend]

namespace Lexer

variable (l : Lexer) (r : Request) (rs : List Request)

/-! ## One request -/

theorem answer_cases :
    (r = .next ∧ l.finished) ∧ l.answer r = (none, l) ∨
      ¬ (r = .next ∧ l.finished) ∧ l.answer r = (some l.cursor.next.1,
        ⟨l.cursor.next.2, l.finished || (r = .next && l.cursor.next.1.kind = .eof)⟩) := by
  obtain ⟨cursor, finished⟩ := l
  cases r with
  | nextToken => exact .inr ⟨by simp, by simp [answer, nextToken]⟩
  | next =>
    cases finished with
    | true => exact .inl ⟨by simp, rfl⟩
    | false => exact .inr ⟨by simp, by simp [answer, next?]⟩

theorem answer_eq_none_iff : (l.answer r).1 = none ↔ r = .next ∧ l.finished := by
  rcases l.answer_cases r with ⟨hdry, heq⟩ | ⟨hnot, heq⟩
  · rw [heq]
    exact iff_of_true rfl hdry
  · rw [heq]
    exact iff_of_false (Option.some_ne_none _) hnot

variable {l r} in
theorem answer_snd_of_none (h : (l.answer r).1 = none) : (l.answer r).2 = l := by
  rcases l.answer_cases r with ⟨-, heq⟩ | ⟨-, heq⟩
  · rw [heq]
  · rw [heq] at h
    cases h

theorem answer_supply : l.cursor.supply =
    (l.answer r).1.toList ++ₛ (l.answer r).2.cursor.supply := by
  rcases l.answer_cases r with ⟨-, heq⟩ | ⟨-, heq⟩
  · rw [heq]
    rfl
  · rw [heq]
    exact l.cursor.supply_eq_cons

theorem answer_finished : (l.answer r).2.finished ↔
    l.finished ∨ r = .next ∧ ∃ t, (l.answer r).1 = some t ∧ t.kind = .eof := by
  rcases l.answer_cases r with ⟨⟨-, hfinished⟩, heq⟩ | ⟨-, heq⟩
  · simp [heq, hfinished]
  · simp [heq]

/-! ## One request after another -/

/-- The lexer behind a sequence of requests. -/
def after (l : Lexer) (rs : List Request) : Lexer :=
  rs.foldl (fun l r => (l.answer r).2) l

theorem length_answers : (l.answers rs).length = rs.length := by
  induction rs generalizing l with
  | nil => rfl
  | cons r rs ih => rw [answers, List.length_cons, ih, List.length_cons]

theorem take_answers (i : Nat) : (l.answers rs).take i = l.answers (rs.take i) := by
  induction rs generalizing l i with
  | nil => simp [answers]
  | cons r rs ih =>
    cases i with
    | zero => rfl
    | succ i => rw [answers, List.take_succ_cons, ih, List.take_succ_cons, answers]

theorem drop_answers (i : Nat) :
    (l.answers rs).drop i = (l.after (rs.take i)).answers (rs.drop i) := by
  induction rs generalizing l i with
  | nil => simp [answers]
  | cons r rs ih =>
    cases i with
    | zero => rfl
    | succ i => exact ih (l.answer r).2 i

theorem answers_append (rs' : List Request) :
    l.answers (rs ++ rs') = l.answers rs ++ (l.after rs).answers rs' := by
  have hsplit := List.take_append_drop rs.length (l.answers (rs ++ rs'))
  rw [take_answers, drop_answers, List.take_left, List.drop_left] at hsplit
  exact hsplit.symm

theorem getElem?_answers (i : Nat) :
    (l.answers rs)[i]? = rs[i]?.map fun r => ((l.after (rs.take i)).answer r).1 := by
  rw [← List.head?_drop, drop_answers, ← List.head?_drop]
  cases rs.drop i <;> rfl

variable {rs} in
theorem after_take_succ {i : Nat} (h : rs[i]? = some r) :
    l.after (rs.take (i + 1)) = ((l.after (rs.take i)).answer r).2 := by
  rw [List.take_add_one, h, after, List.foldl_append]
  rfl

theorem answers_supply : l.cursor.supply =
    (l.answers rs).reduceOption ++ₛ (l.after rs).cursor.supply := by
  induction rs generalizing l with
  | nil => rfl
  | cons r rs ih =>
    have hgiven : (l.answers (r :: rs)).reduceOption =
        (l.answer r).1.toList ++ ((l.answer r).2.answers rs).reduceOption := by
      rw [answers]
      cases (l.answer r).1 <;> rfl
    rw [l.answer_supply r, ih, hgiven, Stream'.append_append_stream]
    rfl

/-- The request at place `i` is one for `next?`, and its answer is the end of the input. -/
def EndsAt (i : Nat) : Prop :=
  rs[i]? = some .next ∧ ∃ t, (l.answers rs)[i]? = some (some t) ∧ t.kind = .eof

theorem finished_after_take (i : Nat) :
    (l.after (rs.take i)).finished ↔ l.finished ∨ ∃ j < i, l.EndsAt rs j := by
  induction i with
  | zero => simp [after]
  | succ i ih =>
    rw [Nat.exists_lt_succ_right, ← or_assoc, ← ih, EndsAt, getElem?_answers]
    cases h : rs[i]? with
    | none =>
      -- Behind the last request nothing happens any more.
      have hall : rs.take (i + 1) = rs.take i := by simp [List.take_add_one, h]
      simp [hall]
    | some r =>
      rw [l.after_take_succ r h, answer_finished]
      simp

/-! ## Any order of requests -/

/-- How a lexer answers requests out of a supply of tokens. -/
structure Serves (l : Lexer) (supply : Stream' Token) (rs : List Request) : Prop where
  answered : (l.answers rs).length = rs.length
  /-- What is given is, in order, the first part of the supply. -/
  inOrder : ∃ n, (l.answers rs).reduceOption = supply.take n
  /-- Nothing is given exactly where `next?` is asked and has given the end of the input before. -/
  none_iff : ∀ i, (l.answers rs)[i]? = some none ↔
    rs[i]? = some .next ∧ ∃ j < i, l.EndsAt rs j
  /-- A request that gives nothing leaves the lexer as it was. -/
  stays : ∀ i, (l.answers rs)[i]? = some none → l.after (rs.take (i + 1)) = l.after (rs.take i)
  /-- Without such a request, all others would be answered in the same way. -/
  leftOut : ∀ i, (l.answers rs)[i]? = some none →
    l.answers (rs.eraseIdx i) = (l.answers rs).eraseIdx i

theorem exists_take_supply : ∃ n, (l.answers rs).reduceOption = l.cursor.supply.take n := by
  refine ⟨(l.answers rs).reduceOption.length, ?_⟩
  rw [l.answers_supply rs, Stream'.take_append_of_le_length _ _ _ (Nat.le_refl _), List.take_length]

theorem getElem?_answers_eq_none_iff (i : Nat) : (l.answers rs)[i]? = some none ↔
    rs[i]? = some .next ∧ (l.after (rs.take i)).finished := by
  rw [getElem?_answers, Option.map_eq_some_iff]
  simp only [answer_eq_none_iff]
  constructor
  · rintro ⟨r, hr, rfl, hfinished⟩
    exact ⟨hr, hfinished⟩
  · rintro ⟨hr, hfinished⟩
    exact ⟨.next, hr, rfl, hfinished⟩

variable {l rs} in
theorem after_take_succ_of_none {i : Nat} (h : (l.answers rs)[i]? = some none) :
    l.after (rs.take (i + 1)) = l.after (rs.take i) := by
  rw [getElem?_answers, Option.map_eq_some_iff] at h
  obtain ⟨r, hr, hnone⟩ := h
  rw [l.after_take_succ r hr, answer_snd_of_none hnone]

variable {l rs} in
theorem answers_eraseIdx_of_none {i : Nat} (h : (l.answers rs)[i]? = some none) :
    l.answers (rs.eraseIdx i) = (l.answers rs).eraseIdx i := by
  rw [List.eraseIdx_eq_take_drop_succ, List.eraseIdx_eq_take_drop_succ, answers_append,
    take_answers, drop_answers, after_take_succ_of_none h]

theorem serves_supply {l : Lexer} (h : l.finished = false) : l.Serves l.cursor.supply rs where
  answered := l.length_answers rs
  inOrder := l.exists_take_supply rs
  none_iff i := by
    rw [getElem?_answers_eq_none_iff, finished_after_take]
    simp [h]
  stays _ := after_take_succ_of_none
  leftOut _ := answers_eraseIdx_of_none

/-- Requests in any order are served from the tokens of the source, and then from its end forever.
-/
theorem ofSource_serves (source : String) :
    ∃ r : Reading source, ∀ rs : List Request, (ofSource source).Serves
      (r.occurrences.map Occurrence.token ++ₛ .const (.endOfInput (.behind source.toList))) rs := by
  obtain ⟨r, -⟩ := exists_reading source
  refine ⟨r, fun rs => ?_⟩
  rw [← r.supply_eq]
  exact serves_supply rs rfl

/-- The end of the input that `nextToken` gives does not count for `next?`, and `nextToken` goes on
when `next?` has nothing any more. -/
example :
    ((ofSource "x").answers [.next, .nextToken, .next, .next, .nextToken, .next]).map
        (Option.map Token.kind) =
      [some .identifier, some .eof, some .eof, none, some .eof, none] := by
  decide +kernel

end Lexer

end Monkey
