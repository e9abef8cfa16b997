import Mathlib.Data.List.TakeWhile
import Monkey.Proofs.ParserComplete

/-!
# Parsing is recognition

A source text parses without an error exactly if the grammar accepts its terminals, and then the
tree is the one the grammar gives. Since parsing is a function, the grammar is unambiguous.
-/

namespace Monkey

open Grammar

/-! ## Ends of the input -/

theorem shows_map {ts : List Token} (h : ∀ t ∈ ts, t.kind ≠ .eof) :
    Shows ts (ts.map Token.terminal) := by
  refine ⟨?_, ?_⟩
  · rw [List.takeWhile_eq_self_iff.mpr]
    simpa using h
  · refine List.pairwise_of_forall_mem_list fun a ha b _ hk => ?_
    obtain ⟨t, ht, rfl⟩ := List.mem_map.mp ha
    exact absurd hk (h t ht)

theorem Shows.pad {ts : List Token} {ws : List Terminal} (h : Shows ts ws) (n : Nat) :
    Shows ts (ws ++ List.replicate n .endOfInput) := by
  refine ⟨?_, ?_⟩
  · rw [h.terminals, List.takeWhile_append]
    split
    · rename_i hall
      have hws : ws.takeWhile (·.kind ≠ .eof) = ws :=
        (List.takeWhile_prefix _).eq_of_length hall
      rw [hws, List.takeWhile_replicate]
      simp [Terminal.endOfInput]
    · rfl
  · rw [List.pairwise_append]
    refine ⟨h.ends, ?_, ?_⟩
    · rw [List.pairwise_replicate]
      exact .inr id
    · intro a _ b hb _
      rw [List.eq_of_mem_replicate hb]
      rfl

theorem eq_pad_of_append_eq {vs w : List Terminal} {n k : Nat} (hvs : ∀ t ∈ vs, t.kind ≠ .eof)
    (h : vs ++ List.replicate n .endOfInput = w ++ .endOfInput :: List.replicate k .endOfInput) :
    ∃ j, w = vs ++ List.replicate j .endOfInput := by
  rcases List.append_eq_append_iff.mp h with ⟨a, rfl, ha⟩ | ⟨c, rfl, hc⟩
  · have hall : ∀ t ∈ a, t = .endOfInput := by
      intro t ht
      exact List.eq_of_mem_replicate (ha ▸ List.mem_append_left _ ht)
    exact ⟨a.length, by rw [← List.eq_replicate_of_mem hall]⟩
  · cases c with
    | nil => exact ⟨0, by simp⟩
    | cons t c =>
      -- One of the tokens would be the end of the input.
      have ht : t = .endOfInput := (List.cons.inj hc).1.symm
      exact absurd (congrArg Terminal.kind ht) (hvs t (by simp))

/-! ## Statements of a list of tokens -/

namespace Parser

variable (stop : Span)

/-- The tokens are the terminals without the ends of the input, so the run sees what the grammar
sees. -/
theorem statements_clean_of_accepts {ts : List Token} {ws : List Terminal} {P : Program}
    (hts : Shows ts ws) (h : Accepts ws P) : (statements stop ts).Clean P.statements [] := by
  obtain ⟨n, hn⟩ := h
  have hpad := hts.pad n
  generalize ws ++ List.replicate n .endOfInput = us at hn hpad
  obtain ⟨list, hu⟩ := hn
  exact whole_complete stop list hu hpad

theorem accepts_of_statements_clean {ts rest : List Token} {ss : List Stmt}
    (hts : ∀ t ∈ ts, t.kind ≠ .eof) (h : (statements stop ts).Clean ss rest) :
    Accepts (ts.map Token.terminal ++ [.endOfInput]) ⟨ss⟩ := by
  obtain ⟨w, hw, n, k, hn⟩ := statements_sound stop ts ss rest h
  have hvs : ∀ t ∈ ts.map Token.terminal, t.kind ≠ .eof := by
    intro t ht
    obtain ⟨u, hu, rfl⟩ := List.mem_map.mp ht
    exact hts u hu
  obtain ⟨j, rfl⟩ := eq_pad_of_append_eq hvs (by simpa using hn)
  refine ⟨j, ?_⟩
  have hend : ts.map Token.terminal ++ [.endOfInput] ++ List.replicate j .endOfInput =
      ts.map Token.terminal ++ List.replicate j .endOfInput ++ [.endOfInput] := by
    rw [List.append_assoc, List.append_assoc, ← List.replicate_succ', List.replicate_succ]
    rfl
  rw [hend]
  exact .statements hw rfl

end Parser

/-! ## Whole sources -/

theorem Cursor.kind_ne_eof_of_mem_tokens {s : Cursor} {t : Token} (h : t ∈ s.tokens) :
    t.kind ≠ .eof :=
  (Cursor.valid_of_mem_tokens h).kind_ne_eof

theorem map_terminal_tokenize (source : String) :
    (tokenize source).map Token.terminal =
      (Cursor.ofSource source).tokens.map Token.terminal ++ [.endOfInput] := by
  rw [tokenize, List.map_append]
  rfl

theorem parse_clean_iff (source : String) (P : Program) :
    (parse source).errors = [] ∧ (parse source).program = P ↔
      ∃ rest, (Parser.statements (.point (Cursor.ofSource source).endPosition)
        (Cursor.ofSource source).tokens).Clean P.statements rest := by
  obtain ⟨ss⟩ := P
  constructor
  · rintro ⟨herrors, hprogram⟩
    exact ⟨_, congrArg Program.statements hprogram, rfl, herrors⟩
  · rintro ⟨rest, rfl, -, herrors⟩
    exact ⟨herrors, rfl⟩

/-- A source parses without an error, to a program, exactly if the grammar accepts its tokens as
that program. -/
theorem parse_iff_accepts (source : String) (P : Program) :
    (parse source).errors = [] ∧ (parse source).program = P ↔
      Accepts ((tokenize source).map Token.terminal) P := by
  have hne : ∀ t ∈ (Cursor.ofSource source).tokens, t.kind ≠ .eof :=
    fun t ht => Cursor.kind_ne_eof_of_mem_tokens ht
  rw [parse_clean_iff, map_terminal_tokenize]
  constructor
  · rintro ⟨rest, h⟩
    exact Parser.accepts_of_statements_clean _ hne h
  · intro h
    exact ⟨[], Parser.statements_clean_of_accepts _ ((shows_map hne).pad 1) h⟩

theorem Grammar.accepts_unique {ws : List Terminal} {P Q : Program}
    (hws : ∀ t ∈ ws, t.kind ≠ .eof) (hP : Accepts ws P) (hQ : Accepts ws Q) : P = Q := by
  -- Parse the terminals as tokens that all stand at one place.
  obtain ⟨ts, hts⟩ : ∃ ts, Shows ts ws := by
    refine ⟨ws.map fun t => ⟨t.kind, t.literal, .none⟩, ?_⟩
    have hmap : (ws.map fun t => (⟨t.kind, t.literal, .none⟩ : Token)).map Token.terminal = ws := by
      rw [List.map_map]
      exact List.map_id ws
    have hkinds : ∀ t ∈ ws.map fun t => (⟨t.kind, t.literal, .none⟩ : Token), t.kind ≠ .eof := by
      simpa using hws
    have hshows := shows_map hkinds
    rwa [hmap] at hshows
  have hrunP := Parser.statements_clean_of_accepts .none hts hP
  have hrunQ := Parser.statements_clean_of_accepts .none hts hQ
  obtain ⟨ss⟩ := P
  obtain ⟨zs⟩ := Q
  exact congrArg Program.mk (Step.clean_unique hrunP hrunQ).1

end Monkey
