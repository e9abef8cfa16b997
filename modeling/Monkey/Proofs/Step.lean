import Monkey.Syntax.Parser

/-!
# Steps of a parser, taken apart

A step is clean if it met no error. A clean step built from smaller ones is made of clean steps, so
a clean run of the parser can be read backwards. A step reports if it never gives up in silence.
-/

namespace Monkey

namespace Step

variable {α β : Type} {m n : Nat}

/-- The step has the value `a`, leaves `rest`, and met no error. -/
def Clean (s : Step α n) (a : α) (rest : List Token) : Prop :=
  s.value = a ∧ s.rest = rest ∧ s.errors = []

theorem Clean.length_le {s : Step α n} {a : α} {rest : List Token} (h : s.Clean a rest) :
    rest.length ≤ n := by
  rw [← h.2.1]
  exact s.bound

theorem clean_unique {s : Step α n} {a b : α} {r t : List Token} (h : s.Clean a r)
    (k : s.Clean b t) : a = b ∧ r = t :=
  ⟨h.1.symm.trans k.1, h.2.1.symm.trans k.2.1⟩

/-! ## Clean steps from clean steps -/

@[simp] theorem done_clean (a b : α) (r rest : List Token) (h : r.length ≤ n) :
    (done a r h).Clean b rest ↔ a = b ∧ r = rest := by
  simp [Clean, done]

@[simp] theorem fail_clean (d : Diagnostic) (r : List Token) (h : r.length ≤ n)
    (b : Option α) (rest : List Token) : ¬ (fail d r h).Clean b rest := by
  simp [Clean, fail]

@[simp] theorem widen_clean (s : Step α m) (h : m ≤ n) (a : α) (rest : List Token) :
    (s.widen h).Clean a rest ↔ s.Clean a rest := Iff.rfl

theorem map_clean (s : Step α m) (f : α → β) (h : m ≤ n) (b : β) (rest : List Token) :
    (s.map f h).Clean b rest ↔ ∃ a, s.Clean a rest ∧ f a = b := by
  constructor
  · rintro ⟨hv, hr, he⟩
    exact ⟨s.value, ⟨rfl, hr, he⟩, hv⟩
  · rintro ⟨a, ⟨hv, hr, he⟩, hb⟩
    exact ⟨(congrArg f hv).trans hb, hr, he⟩

theorem mapSome_clean (s : Step (Option α) m) (f : α → β) (h : m ≤ n) (b : β)
    (rest : List Token) :
    (s.mapSome f h).Clean (some b) rest ↔ ∃ a, s.Clean (some a) rest ∧ f a = b := by
  rw [mapSome, map_clean]
  constructor
  · rintro ⟨o, hs, ho⟩
    obtain ⟨a, rfl, hb⟩ := Option.map_eq_some_iff.mp ho
    exact ⟨a, hs, hb⟩
  · rintro ⟨a, hs, hb⟩
    exact ⟨some a, hs, by rw [Option.map_some, hb]⟩

theorem next_clean (s : Step α m) (f : α → (rest : List Token) → rest.length ≤ m → Step β n)
    (b : β) (rest : List Token) :
    (s.next f).Clean b rest ↔
      ∃ a mid, ∃ h : s.Clean a mid, (f a mid h.length_le).Clean b rest := by
  constructor
  · rintro ⟨hv, hr, he⟩
    obtain ⟨hs, hf⟩ := List.append_eq_nil_iff.mp he
    exact ⟨s.value, s.rest, ⟨rfl, rfl, hs⟩, hv, hr, hf⟩
  · rintro ⟨a, mid, ⟨rfl, rfl, hs⟩, hv, hr, hf⟩
    exact ⟨hv, hr, List.append_eq_nil_iff.mpr ⟨hs, hf⟩⟩

theorem andThen_clean (s : Step (Option α) m)
    (f : α → (rest : List Token) → rest.length ≤ m → Step (Option β) n) (h : m ≤ n) (b : β)
    (rest : List Token) :
    (s.andThen f h).Clean (some b) rest ↔
      ∃ a mid, ∃ h : s.Clean (some a) mid, (f a mid h.length_le).Clean (some b) rest := by
  unfold andThen
  constructor
  · intro hc
    split at hc
    · cases hc.1
    · rename_i a ha
      obtain ⟨hv, hr, he⟩ := hc
      obtain ⟨hs, hf⟩ := List.append_eq_nil_iff.mp he
      exact ⟨a, s.rest, ⟨ha, rfl, hs⟩, hv, hr, hf⟩
  · rintro ⟨a, mid, ⟨ha, rfl, hs⟩, hv, hr, hf⟩
    split
    · rename_i hn
      rw [hn] at ha
      cases ha
    · rename_i a' ha'
      obtain rfl : a' = a := Option.some.inj (ha'.symm.trans ha)
      exact ⟨hv, hr, List.append_eq_nil_iff.mpr ⟨hs, hf⟩⟩

/-! ## Giving up is reported -/

/-- There is a value or an error. -/
def Reports (s : Step (Option α) n) : Prop := s.value.isSome ∨ s.errors ≠ []

theorem Reports.some_of_clean {s : Step (Option α) n} (h : s.Reports) {o : Option α}
    {rest : List Token} (hc : s.Clean o rest) : ∃ a, o = some a := by
  rcases h with h | h
  · rw [hc.1] at h
    exact Option.isSome_iff_exists.mp h
  · exact absurd hc.2.2 h

theorem reports_done (a : α) (r : List Token) (h : r.length ≤ n) : (done (some a) r h).Reports :=
  Or.inl rfl

theorem reports_fail (d : Diagnostic) (r : List Token) (h : r.length ≤ n) :
    (fail d r h : Step (Option α) n).Reports :=
  Or.inr (by simp [fail])

theorem Reports.mapSome {s : Step (Option α) m} (hs : s.Reports) (f : α → β) (h : m ≤ n) :
    (s.mapSome f h).Reports := by
  rcases hs with hs | hs
  · exact Or.inl (by simpa [Step.mapSome, map] using hs)
  · exact Or.inr hs

theorem reports_map (s : Step α m) (f : α → β) (h : m ≤ n) :
    (s.map (fun a => some (f a)) h).Reports :=
  Or.inl rfl

theorem reports_next (s : Step α m)
    (f : α → (rest : List Token) → rest.length ≤ m → Step (Option β) n)
    (hf : ∀ a rest h, (f a rest h).Reports) : (s.next f).Reports := by
  rcases hf s.value s.rest s.bound with h | h
  · exact Or.inl h
  · exact Or.inr (by simp [next, h])

theorem Reports.andThen {s : Step (Option α) m} (hs : s.Reports)
    {f : α → (rest : List Token) → rest.length ≤ m → Step (Option β) n}
    (hf : ∀ a rest h, (f a rest h).Reports) (h : m ≤ n) : (s.andThen f h).Reports := by
  unfold Step.andThen
  split
  · rename_i hv
    rcases hs with hs | hs
    · simp [hv] at hs
    · exact Or.inr hs
  · rename_i a _
    rcases hf a s.rest s.bound with h | h
    · exact Or.inl h
    · exact Or.inr (by simp [h])

end Step

variable {α : Type} {n : Nat}

theorem length_lt_of_eq_cons {ts us : List Token} {t : Token} (h : ts = t :: us) :
    us.length < ts.length := by
  rw [h]
  exact Nat.lt_succ_self _

theorem expect_clean (stop : Span) (kind : TokenKind) (ts : List Token)
    (f : Token → (rest : List Token) → rest.length < ts.length → Step (Option α) n)
    (h : ts.length ≤ n) (a : α) (rest : List Token) :
    (expect stop kind ts f h).Clean (some a) rest ↔
      ∃ t mid, ∃ h : ts = t :: mid,
        t.kind = kind ∧ (f t mid (length_lt_of_eq_cons h)).Clean (some a) rest := by
  cases ts with
  | nil => simp [expect]
  | cons t us =>
    by_cases hk : t.kind = kind
    · simp only [expect, if_pos hk]
      constructor
      · intro hc
        exact ⟨t, us, rfl, hk, hc⟩
      · rintro ⟨t', mid, heq, -, hc⟩
        cases heq
        exact hc
    · simp only [expect, if_neg hk]
      constructor
      · intro hc
        exact absurd hc (Step.fail_clean _ _ _ _ _)
      · rintro ⟨t', mid, heq, hk', -⟩
        cases heq
        exact absurd hk' hk

theorem reports_expect (stop : Span) (kind : TokenKind) (ts : List Token)
    (f : Token → (rest : List Token) → rest.length < ts.length → Step (Option α) n)
    (h : ts.length ≤ n) (hf : ∀ t rest hlt, (f t rest hlt).Reports) :
    (expect stop kind ts f h).Reports := by
  unfold expect
  split
  · exact Step.reports_fail ..
  · split
    · exact hf _ _ _
    · exact Step.reports_fail ..

/-! ## The parser reports -/

namespace Parser

variable (stop : Span)

theorem moreParameters_reports (ts : List Token) : (moreParameters stop ts).Reports := by
  rw [moreParameters.eq_def]
  split
  · exact Step.reports_fail ..
  · split
    · refine reports_expect _ _ _ _ _ fun p rest _ => ?_
      exact (moreParameters_reports rest).mapSome _ _
    · exact reports_expect _ _ _ _ _ fun _ _ _ => Step.reports_done ..
termination_by ts.length
decreasing_by
  all_goals
    subst_vars
    simp only [List.length_cons] at *
    omega

theorem parameters_reports (ts : List Token) : (parameters stop ts).Reports := by
  unfold parameters
  split
  · exact Step.reports_done ..
  · exact reports_expect _ _ _ _ _ fun _ rest _ => (moreParameters_reports stop rest).mapSome _ _

theorem finish_reports (s : Stmt) (rest : List Token) (h : rest.length ≤ n) :
    (finish s rest h).Reports :=
  Or.inl rfl

mutual

theorem expression_reports (p : Precedence) (ts : List Token) :
    (expression stop p ts).Reports := by
  rw [expression]
  exact (operand_reports ts).andThen (fun left rest _ => operators_reports p left rest) _
termination_by 4 * ts.length + 1
decreasing_by all_goals omega

theorem operators_reports (p : Precedence) (left : Expr) (ts : List Token) :
    (operators stop p left ts).Reports := by
  rw [operators.eq_def]
  split
  · exact Step.reports_done ..
  · rename_i t rest
    split
    · split
      · exact (expression_reports _ rest).andThen
          (fun right rest _ => operators_reports p _ rest) _
      · split
        · exact (expressions_reports _ rest).andThen
            (fun arguments rest _ => operators_reports p _ rest) _
        · exact (expression_reports _ rest).andThen
            (fun index rest _ => reports_expect _ _ _ _ _
              fun _ rest _ => operators_reports p _ rest) _
    · exact Step.reports_done ..
termination_by 4 * ts.length
decreasing_by
  all_goals
    subst_vars
    simp only [List.length_cons] at *
    omega

theorem operand_reports (ts : List Token) : (operand stop ts).Reports := by
  rw [operand.eq_def]
  split
  · exact Step.reports_fail ..
  · rename_i t rest
    split
    · exact Step.reports_done ..
    · split
      · exact Step.reports_done ..
      · exact Step.reports_fail ..
    · exact Step.reports_done ..
    · exact Step.reports_done ..
    · exact Step.reports_done ..
    · exact (expression_reports _ rest).mapSome _ _
    · exact (expression_reports _ rest).mapSome _ _
    · exact (expression_reports _ rest).andThen
        (fun e rest _ => reports_expect _ _ _ _ _ fun _ _ _ => Step.reports_done ..) _
    · refine reports_expect _ _ _ _ _ fun _ rest _ => ?_
      refine (expression_reports _ rest).andThen (fun condition rest _ => ?_) _
      refine reports_expect _ _ _ _ _ fun _ rest _ => reports_expect _ _ _ _ _ fun _ rest _ => ?_
      refine Step.reports_next _ _ fun consequence rest _ => ?_
      split
      · exact reports_expect _ _ _ _ _ fun _ rest _ => Step.reports_map ..
      · exact Step.reports_done ..
    · refine reports_expect _ _ _ _ _ fun _ rest _ => ?_
      refine (parameters_reports stop rest).andThen (fun ps rest _ => ?_) _
      exact reports_expect _ _ _ _ _ fun _ rest _ => Step.reports_map ..
    · exact (expressions_reports _ rest).mapSome _ _
    · exact (pairs_reports rest).mapSome _ _
    · exact Step.reports_fail ..
termination_by 4 * ts.length
decreasing_by
  all_goals
    subst_vars
    simp only [List.length_cons] at *
    omega

theorem expressions_reports (closing : TokenKind) (ts : List Token) :
    (expressions stop closing ts).Reports := by
  rw [expressions]
  split
  · exact Step.reports_done ..
  · exact (expression_reports _ ts).andThen
      (fun e rest _ => (moreExpressions_reports closing rest).mapSome _ _) _
termination_by 4 * ts.length + 2
decreasing_by all_goals omega

theorem moreExpressions_reports (closing : TokenKind) (ts : List Token) :
    (moreExpressions stop closing ts).Reports := by
  rw [moreExpressions.eq_def]
  split
  · exact Step.reports_fail ..
  · rename_i t rest
    split
    · exact (expression_reports _ rest).andThen
        (fun e rest _ => (moreExpressions_reports closing rest).mapSome _ _) _
    · exact reports_expect _ _ _ _ _ fun _ _ _ => Step.reports_done ..
termination_by 4 * ts.length
decreasing_by
  all_goals
    subst_vars
    simp only [List.length_cons] at *
    omega

theorem pairs_reports (ts : List Token) : (pairs stop ts).Reports := by
  rw [pairs]
  split
  · exact Step.reports_done ..
  · refine (expression_reports _ ts).andThen (fun key rest _ => ?_) _
    refine reports_expect _ _ _ _ _ fun _ rest _ => ?_
    refine (expression_reports _ rest).andThen (fun value rest _ => ?_) _
    split
    · exact Step.reports_done ..
    · exact reports_expect _ _ _ _ _ fun _ rest _ => (pairs_reports rest).mapSome _ _
termination_by 4 * ts.length + 2
decreasing_by all_goals omega

end

theorem statement_reports (ts : List Token) : (statement stop ts).Reports := by
  rw [statement]
  split
  · refine reports_expect _ _ _ _ _ fun name rest _ => reports_expect _ _ _ _ _ fun _ rest _ => ?_
    exact (expression_reports stop _ rest).andThen (fun value rest _ => finish_reports ..) _
  · exact (expression_reports stop _ _).andThen (fun value rest _ => finish_reports ..) _
  · exact (expression_reports stop _ _).andThen (fun value rest _ => finish_reports ..) _

end Parser

end Monkey
