import Monkey.Proofs.Levels

/-!
# What an evaluation leaves alone

An evaluation binds names in its own scope and in scopes that it makes itself, and nowhere else. It
takes no name away and never moves a scope to another place. A call leaves all scopes alone that
were there before.
-/

namespace Monkey

/-! ## The frame -/

/-- The scopes of `m₀` are in `m` as well: with the same scopes around them, with no fewer names,
and with the same bindings unless they are writable. -/
def Machine.Frame (writable : ScopeId → Prop) (m₀ m : Machine) : Prop :=
  ∀ (i : ScopeId) (s : Scope), m₀.scopes[i]? = some s →
    ∃ s', m.scopes[i]? = some s' ∧ s'.enclosing = s.enclosing ∧
      (∀ name ∈ s.bindings.map (·.1), name ∈ s'.bindings.map (·.1)) ∧
      (¬ writable i → s'.bindings = s.bindings)

theorem Machine.frame_refl (writable : ScopeId → Prop) (m : Machine) : Frame writable m m :=
  fun _ s hs => ⟨s, hs, rfl, fun _ hn => hn, fun _ => rfl⟩

theorem Bindings.names_set {name n : String} {v : Value} {bs : List (String × Value)}
    (h : n ∈ bs.map (·.1)) : n ∈ (Bindings.set name v bs).map (·.1) := by
  induction bs with
  | nil => cases h
  | cons b bs ih =>
    unfold Bindings.set
    split
    · rename_i hb
      rw [List.map_cons, hb] at h
      exact h
    · rw [List.map_cons, List.mem_cons] at h ⊢
      exact h.imp_right ih

section

variable {writable : ScopeId → Prop} {m₀ m : Machine}

theorem Machine.Frame.size_le (h : Frame writable m₀ m) : m₀.scopes.size ≤ m.scopes.size := by
  apply Nat.le_of_not_lt
  intro hlt
  obtain ⟨s', hs', -⟩ := h m.scopes.size _ (Array.getElem?_eq_getElem hlt)
  simp at hs'

theorem Machine.Frame.define (h : Frame writable m₀ m) {scope : ScopeId}
    (hscope : writable scope ∨ m₀.scopes.size ≤ scope) (name : String) (v : Value) :
    Frame writable m₀ (m.define scope name v) := by
  intro i s hs
  obtain ⟨s', hs', houter, hnames, hbindings⟩ := h i s hs
  rw [Machine.define, Array.getElem?_modify]
  split
  · rename_i hi
    subst hi
    rw [hs']
    refine ⟨_, rfl, houter, fun n hn => Bindings.names_set (hnames n hn), ?_⟩
    intro hnot
    -- A scope of the start that may not be written to is not this one.
    have hlt := (Array.getElem?_eq_some_iff.mp hs).1
    rcases hscope with hw | hle
    · exact absurd hw hnot
    · omega
  · exact ⟨s', hs', houter, hnames, hbindings⟩

theorem Machine.Frame.enclose (h : Frame writable m₀ m) (outer : ScopeId) :
    Frame writable m₀ (m.enclose outer).2 := by
  intro i s hs
  obtain ⟨s', hs', hrest⟩ := h i s hs
  refine ⟨s', ?_, hrest⟩
  have hlt := (Array.getElem?_eq_some_iff.mp hs').1
  rw [Machine.enclose, Array.getElem?_push, if_neg (by omega), hs']

end

/-! ## Evaluations -/

/-- Nothing is written but to the writable scopes of `m₀` and to scopes that are not in `m₀`. -/
def frameDiscipline (writable : ScopeId → Prop) (m₀ : Machine) : Discipline where
  value := .any
  store := Machine.Frame writable m₀
  scope i := writable i ∨ m₀.scopes.size ≤ i
  stop _ := True
  store_define h hs := h.define hs _ _
  store_enclose h := h.enclose _
  scope_new h := .inr h.size_le
  store_fresh h := h
  store_depth h := h
  stop_error _ := trivial

theorem frame_after {α : Type} {Q : α → Prop} {writable : ScopeId → Prop} {m : Machine} {x : Eval α}
    (h : (frameDiscipline writable m).Ensures m.depth Q x) :
    Machine.Frame writable m (x.after m) := by
  have hm : (frameDiscipline writable m).Inv m.depth m :=
    ⟨Machine.frame_refl writable m, fun _ _ _ b _ => b.2.holds_any, rfl⟩
  exact (h.after hm).store

theorem levels_respect_frame (writable : ScopeId → Prop) (m₀ : Machine) (limits : Limits)
    (d : Nat) :
    (frameDiscipline writable m₀).Respects .any d limits.calls (levels .idle limits) :=
  levels_respect (Discipline.admits_any trivial (fun _ _ _ => trivial) (fun _ => trivial) _ _) d

theorem Value.apply_frame (limits : Limits) (f : Value) (args : List Value) (m : Machine) :
    Machine.Frame (fun _ => False) m ((f.apply limits args).after m) := by
  rw [Value.apply_eq_call]
  exact frame_after ((levels_respect_frame (fun _ => False) m limits m.depth).call f args
    f.holds_any fun a _ => a.holds_any)

/-- Evaluation binds names in its own scope and in new ones, and nowhere else; a call, in new ones
only. -/
theorem eval_frame (limits : Limits) (env : ScopeId) (m : Machine) :
    (∀ e : Expr, Machine.Frame (· = env) m ((e.eval limits env).after m)) ∧
      (∀ s : Stmt, Machine.Frame (· = env) m ((s.eval limits env).after m)) ∧
      (∀ b : Block, Machine.Frame (· = env) m ((Block.eval limits b env).after m)) ∧
      (∀ p : Program, Machine.Frame (· = env) m ((p.eval limits env).after m)) ∧
      ∀ (f : Value) (args : List Value),
        Machine.Frame (fun _ => False) m ((f.apply limits args).after m) := by
  have hlevels := levels_respect_frame (· = env) m limits m.depth
  have hblock : ∀ b : Block, (frameDiscipline (· = env) m).Ensures m.depth
      (Value.Holds .any) (Block.eval limits b env) := fun b =>
    Block.evalWith_ensures hlevels b .null env (Stmt.listEverywhere_any b) trivial (.inl rfl)
  refine ⟨fun e => ?_, fun s => ?_, fun b => ?_, fun p => ?_, fun f args => ?_⟩
  · exact frame_after (Expr.evalWith_ensures hlevels e env e.everywhere_any (.inl rfl))
  · exact frame_after (Stmt.evalWith_ensures hlevels s env s.everywhere_any (.inl rfl))
  · exact frame_after (hblock b)
  · exact frame_after (Eval.ensures_bind (hblock p.statements) fun v hv =>
      Eval.ensures_pure (P := fun _ => True) trivial)
  · exact f.apply_frame limits args m

end Monkey
