import Monkey.Proofs.Conformity

/-!
# References lead somewhere

A value refers to objects by their identities, and a function to the scope it was made in. On a
machine that a host can arrive at, whatever is bound refers to identities that were given out and to
scopes that were made.
-/

namespace Monkey

/-- How many scopes there are, and which identity comes next. -/
structure Extent where
  scopes : Nat
  identities : Identity

def Machine.extent (m : Machine) : Extent := ⟨m.scopes.size, m.fresh⟩

/-- The value itself, its parts aside, refers only to what there is. -/
def Value.Refers (w : Extent) : Value → Prop
  | .string id _ | .array id _ | .hash id _ | .quote id _ => id < w.identities
  | .function id _ _ scope => id < w.identities ∧ scope < w.scopes
  | .integer _ | .boolean _ | .null | .returned _ | .builtin _ => True

/-- The value is made of objects and scopes of the machine. -/
def Value.Within (m : Machine) (v : Value) : Prop := v.All (Value.Refers m.extent)

/-! ## The regime -/

structure Extent.Le (w w' : Extent) : Prop where
  scopes : w.scopes ≤ w'.scopes
  identities : w.identities ≤ w'.identities

theorem Extent.Le.refl (w : Extent) : w.Le w := ⟨Nat.le_refl _, Nat.le_refl _⟩

theorem Extent.Le.trans {u v w : Extent} (h : u.Le v) (h' : v.Le w) : u.Le w :=
  ⟨Nat.le_trans h.scopes h'.scopes, Nat.le_trans h.identities h'.identities⟩

theorem Value.Refers.mono {w w' : Extent} (hw : w.Le w') {v : Value} (h : v.Refers w) :
    v.Refers w' := by
  obtain ⟨hscopes, hidentities⟩ := hw
  cases v with
  | string _ _ | array _ _ | hash _ _ | quote _ _ => exact Nat.lt_of_lt_of_le h hidentities
  | function _ _ _ _ =>
    exact ⟨Nat.lt_of_lt_of_le h.1 hidentities, Nat.lt_of_lt_of_le h.2 hscopes⟩
  | integer _ | boolean _ | null | returned _ | builtin _ => trivial

theorem Value.IsPlain.refers {w : Extent} {v : Value} (h : v.IsPlain) : v.Refers w := by
  cases v with
  | integer _ | boolean _ | null | builtin _ => trivial
  | _ => cases h

theorem Extent.exists_newScope {w : Extent} {n : Nat} {i : Identity} (h : w = ⟨n, i⟩) :
    ∃ w' : Extent, w.Le w' ∧ w' = ⟨n + 1, i⟩ ∧ n < w'.scopes ∧
      ∀ s, s < w'.scopes → s < w.scopes ∨ s = n := by
  subst h
  exact ⟨⟨n + 1, i⟩, ⟨Nat.le_succ n, Nat.le_refl i⟩, rfl, Nat.lt_succ_self n,
    fun s hs => Nat.lt_succ_iff_lt_or_eq.mp hs⟩

theorem Extent.exists_newObject {w : Extent} {n : Nat} {i : Identity} {o : Object}
    {code : Expr → Prop} (h : w = ⟨n, i⟩) (ho : o.Refers (· < w.scopes) code) :
    ∃ w' : Extent, w.Le w' ∧ w' = ⟨n, i + 1⟩ ∧ (o.toValue i).Refers w' ∧
      ∀ s, s < w'.scopes → s < w.scopes := by
  subst h
  refine ⟨⟨n, i + 1⟩, ⟨Nat.le_refl n, Nat.le_succ i⟩, rfl, ?_, fun s hs => hs⟩
  cases o with
  | function _ _ _ => exact ⟨Nat.lt_succ_self i, ho.1⟩
  | string _ | array _ | hash _ | quote _ => exact Nat.lt_succ_self i

/-- Every reference is to something that there is. -/
def Regime.references : Regime where
  Stage := Extent
  later := Extent.Le
  node w v := v.Refers w
  scope w s := s < w.scopes
  extent w n i := w = ⟨n, i⟩
  confines := False
  later_refl := Extent.Le.refl
  later_trans := Extent.Le.trans
  node_later h hv := Value.Refers.mono h hv
  scope_later h hs := Nat.lt_of_lt_of_le hs h.scopes
  plain h := h.refers
  returned _ _ _ := trivial
  function h := ⟨h.2, False.elim⟩
  quote _ h := h.elim
  newScope := Extent.exists_newScope
  newObject := Extent.exists_newObject

/-- Whatever is bound on the machine refers only to what there is. -/
def Machine.Closed (m : Machine) : Prop := Regime.references.At m.extent m.depth m

namespace Regime

theorem At.closed {w : Extent} {d : Nat} {m : Machine} (h : references.At w d m) : m.Closed := by
  have hextent : w = m.extent := h.extent
  have hdepth := h.depth
  subst hextent hdepth
  exact h

theorem Follows.closed_after {limit : Nat} {m : Machine} {α : Type} {Q : Extent → α → Prop}
    {x : Watch → Eval α} (h : references.Follows limit m.extent m.depth Q x) (hm : m.Closed) :
    ((x .idle).after m).Closed := by
  obtain ⟨w, -, hafter⟩ := h.after hm
  exact hafter.closed

end Regime

/-! ## What a host can arrive at -/

/-- The machines that a host can arrive at. It makes scopes and objects, binds values that it has,
calls them, and evaluates in scopes that it has, also while calls are going on. -/
inductive Machine.Reachable : Machine → Prop
  | empty : Reachable .empty
  | addScope {m : Machine} : Reachable m → Reachable m.addScope.2
  | enclose {m : Machine} {outer : ScopeId} : Reachable m → outer < m.scopes.size →
    Reachable (m.enclose outer).2
  | newIdentity {m : Machine} : Reachable m → Reachable { m with fresh := m.fresh + 1 }
  | atDepth {m : Machine} {d : Nat} : Reachable m → Reachable { m with depth := d }
  | define {m : Machine} {scope : ScopeId} {name : String} {v : Value} : Reachable m →
    v.Within m → Reachable (m.define scope name v)
  | expr {m : Machine} {limits : Limits} {e : Expr} {env : ScopeId} : Reachable m →
    env < m.scopes.size → Reachable ((e.eval limits env).after m)
  | stmt {m : Machine} {limits : Limits} {s : Stmt} {env : ScopeId} : Reachable m →
    env < m.scopes.size → Reachable ((s.eval limits env).after m)
  | block {m : Machine} {limits : Limits} {b : Block} {env : ScopeId} : Reachable m →
    env < m.scopes.size → Reachable ((Block.eval limits b env).after m)
  | program {m : Machine} {limits : Limits} {p : Program} {env : ScopeId} : Reachable m →
    env < m.scopes.size → Reachable ((p.eval limits env).after m)
  | call {m : Machine} {limits : Limits} {f : Value} {args : List Value} : Reachable m →
    f.Within m → (∀ a ∈ args, a.Within m) → Reachable ((f.apply limits args).after m)

theorem Machine.Closed.addScope {m : Machine} (h : m.Closed) : m.addScope.2.Closed := by
  have hgrows : m.extent.Le m.addScope.2.extent := by
    refine ⟨?_, Nat.le_refl m.fresh⟩
    simp [Machine.extent, Machine.addScope]
  have hscope : ∀ {i : ScopeId} {sc : Scope}, m.addScope.2.scopes[i]? = some sc →
      sc = ⟨[], []⟩ ∨ m.scopes[i]? = some sc := by
    intro i sc hsc
    rw [Machine.addScope, Array.getElem?_push] at hsc
    split at hsc
    · exact .inl (Option.some.inj hsc).symm
    · exact .inr hsc
  have hold : ∀ {i : ScopeId} {sc : Scope}, m.scopes[i]? = some sc → i < m.scopes.size :=
    fun hsc => (Array.getElem?_eq_some_iff.mp hsc).1
  refine ⟨fun _ hsc b hb => ?_, fun _ hsc j hj => ?_, rfl, rfl⟩
  · rcases hscope hsc with rfl | hsc
    · cases hb
    · exact (h.bindings (hold hsc) hsc b hb).later hgrows
  · rcases hscope hsc with rfl | hsc
    · cases hj
    · exact Nat.lt_of_lt_of_le (h.enclosing (hold hsc) hsc j hj) hgrows.scopes

theorem Machine.Reachable.closed {m : Machine} (h : m.Reachable) : m.Closed := by
  induction h with
  | empty =>
    refine ⟨fun hs => ?_, fun hs => ?_, rfl, rfl⟩ <;> cases hs
  | addScope _ ih => exact ih.addScope
  | enclose _ houter ih =>
    obtain ⟨w, -, hm, -⟩ := Regime.At.enclose ih houter
    exact hm.closed
  | newIdentity _ ih =>
    obtain ⟨w, -, hm, -⟩ := Regime.At.make ih (o := .string "") trivial
    exact hm.closed
  | atDepth _ ih => exact (Regime.At.atDepth ih _).closed
  | define _ hv ih => exact (Regime.At.define ih _ _ hv).closed
  | expr _ henv ih =>
    exact Regime.Follows.closed_after (Expr.watched_follows _ False.elim henv) ih
  | stmt _ henv ih =>
    exact Regime.Follows.closed_after (Stmt.watched_follows _ False.elim henv) ih
  | block _ henv ih =>
    exact Regime.Follows.closed_after (Block.watched_follows _ False.elim henv) ih
  | program _ henv ih =>
    exact Regime.Follows.closed_after (Program.watched_follows _ False.elim henv) ih
  | call _ hf hargs ih =>
    exact Regime.Follows.closed_after (Value.applyWatched_follows hf hargs) ih

end Monkey
