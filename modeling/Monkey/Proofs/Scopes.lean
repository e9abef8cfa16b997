import Monkey.Proofs.Frame
import Monkey.Proofs.Identity

/-!
# Scopes around scopes

What is around a scope was made before it, and evaluation keeps it so. A look-up that goes outward
from scope to scope comes to an end, and ends with what the whole chain gives. A definition is seen
from just those scopes from which no nearer one binds the name.
-/

namespace Monkey

namespace Machine

/-! ## From scope to scope -/

/-- The scope right around this one, if there is one. -/
def outer? (m : Machine) (scope : ScopeId) : Option ScopeId :=
  m.scopes[scope]?.bind fun s => s.enclosing.head?

/-- A look-up that goes outward from scope to scope ends with this answer. -/
inductive Finds (m : Machine) (name : String) : ScopeId → Option Value → Prop
  | here {scope : ScopeId} {v : Value} :
    m.local? scope name = some v → Finds m name scope (some v)
  | outward {scope outer : ScopeId} {answer : Option Value} :
    m.local? scope name = none → m.outer? scope = some outer → Finds m name outer answer →
      Finds m name scope answer
  | nowhere {scope : ScopeId} :
    m.local? scope name = none → m.outer? scope = none → Finds m name scope none

/-- Around a scope there is nothing, or an older scope with all that is around that one. -/
def Linked (m : Machine) : Prop :=
  ∀ (i : ScopeId) (s : Scope), m.scopes[i]? = some s →
    s.enclosing = [] ∨ ∃ outer, outer < i ∧ s.enclosing = m.chain outer

section

variable {m : Machine}

theorem chain_of_scope {i : ScopeId} {s : Scope} (hs : m.scopes[i]? = some s) :
    m.chain i = i :: s.enclosing := by
  simp [Machine.chain, hs]

theorem chain_of_size_le {i : ScopeId} (hi : m.scopes.size ≤ i) : m.chain i = [] := by
  simp [Machine.chain, Array.getElem?_eq_none hi]

theorem chain_of_lt {i : ScopeId} (hi : i < m.scopes.size) :
    m.chain i = i :: (m.scopes[i]).enclosing :=
  chain_of_scope (Array.getElem?_eq_getElem hi)

theorem Linked.chain_cases (h : m.Linked) {i : ScopeId} (hi : i < m.scopes.size) :
    (m.outer? i = none ∧ m.chain i = [i]) ∨
      ∃ outer, m.outer? i = some outer ∧ outer < i ∧ m.chain i = i :: m.chain outer := by
  have hs := Array.getElem?_eq_getElem hi
  rw [chain_of_scope hs, Machine.outer?, hs, Option.bind_some]
  rcases h i _ hs with hnone | ⟨outer, houter, hsome⟩
  · rw [hnone]
    exact .inl ⟨rfl, rfl⟩
  · have hchain := chain_of_lt (Nat.lt_trans houter hi)
    refine .inr ⟨outer, ?_, houter, by rw [hsome]⟩
    rw [hsome, hchain]
    rfl

theorem Linked.outer?_lt (h : m.Linked) {i outer : ScopeId} (hi : m.outer? i = some outer) :
    outer < i := by
  obtain ⟨s, hs, -⟩ := Option.bind_eq_some_iff.mp hi
  rcases h.chain_cases (Array.getElem?_eq_some_iff.mp hs).1 with ⟨hnone, -⟩ | ⟨o, hsome, ho, -⟩
  · rw [hnone] at hi
    cases hi
  · cases hsome.symm.trans hi
    exact ho

theorem Linked.outer?_wellFounded (h : m.Linked) :
    WellFounded fun outer i => m.outer? i = some outer :=
  Subrelation.wf (fun hi => h.outer?_lt hi) Nat.lt_wfRel.wf

theorem Linked.chain_descends (h : m.Linked) (i : ScopeId) :
    (m.chain i).Pairwise (· > ·) ∧ ∀ j ∈ m.chain i, j ≤ i := by
  induction i using Nat.strongRecOn with
  | ind i ih =>
    by_cases hi : i < m.scopes.size
    · rcases h.chain_cases hi with ⟨-, hchain⟩ | ⟨outer, -, houter, hchain⟩
      · simp [hchain]
      · obtain ⟨hpairwise, hle⟩ := ih outer houter
        have hlt : ∀ j ∈ m.chain outer, j < i := fun j hj => Nat.lt_of_le_of_lt (hle j hj) houter
        rw [hchain]
        constructor
        · exact List.pairwise_cons.mpr ⟨hlt, hpairwise⟩
        · exact List.forall_mem_cons.mpr ⟨Nat.le_refl i, fun j hj => Nat.le_of_lt (hlt j hj)⟩
    · simp [chain_of_size_le (Nat.le_of_not_lt hi)]

theorem Linked.chain_nodup (h : m.Linked) (i : ScopeId) : (m.chain i).Nodup :=
  (h.chain_descends i).1.imp Nat.ne_of_gt

theorem Linked.lookup_eq (h : m.Linked) {i : ScopeId} (hi : i < m.scopes.size) (name : String) :
    m.lookup i name = (m.local? i name).or ((m.outer? i).bind fun o => m.lookup o name) := by
  rcases h.chain_cases hi with ⟨houter, hchain⟩ | ⟨outer, houter, -, hchain⟩
  · rw [Machine.lookup, hchain, houter, List.findSome?_cons]
    cases m.local? i name <;> rfl
  · rw [Machine.lookup, hchain, houter, List.findSome?_cons]
    cases m.local? i name <;> rfl

/-- Going outward from scope to scope ends, and with what the chain gives. -/
theorem Linked.finds_lookup (h : m.Linked) (name : String) (i : ScopeId) :
    m.Finds name i (m.lookup i name) := by
  induction i using Nat.strongRecOn with
  | ind i ih =>
    by_cases hi : i < m.scopes.size
    · rw [h.lookup_eq hi]
      cases hlocal : m.local? i name with
      | some v => exact .here hlocal
      | none =>
        cases houter : m.outer? i with
        | none => exact .nowhere hlocal houter
        | some o => exact .outward hlocal houter (ih o (h.outer?_lt houter))
    · have hnone := Array.getElem?_eq_none (Nat.le_of_not_lt hi)
      have hlookup : m.lookup i name = none := by
        simp [Machine.lookup, chain_of_size_le (Nat.le_of_not_lt hi)]
      rw [hlookup]
      exact .nowhere (by simp [Machine.local?, hnone]) (by simp [Machine.outer?, hnone])

theorem Finds.unique {name : String} {i : ScopeId} {a b : Option Value} (ha : m.Finds name i a)
    (hb : m.Finds name i b) : a = b := by
  induction ha with
  | here hv =>
    cases hb with
    | here hw => exact hv.symm.trans hw
    | outward hnone | nowhere hnone =>
      rw [hv] at hnone
      cases hnone
  | outward hnone houter _ ih =>
    cases hb with
    | here hw =>
      rw [hw] at hnone
      cases hnone
    | outward _ houter' hrest =>
      cases houter.symm.trans houter'
      exact ih hrest
    | nowhere _ hend => cases houter.symm.trans hend
  | nowhere hnone hend =>
    cases hb with
    | here hw => exact hnone.symm.trans hw
    | outward _ houter => cases houter.symm.trans hend
    | nowhere => rfl

theorem Linked.finds_iff (h : m.Linked) (name : String) (i : ScopeId) (answer : Option Value) :
    m.Finds name i answer ↔ answer = m.lookup i name := by
  constructor
  · intro hfinds
    exact hfinds.unique (h.finds_lookup name i)
  · rintro rfl
    exact h.finds_lookup name i

end

/-! ## Growing machines -/

section

variable {m m₁ m₂ : Machine} {writable : ScopeId → Prop}

theorem Frame.trans (h : Frame writable m m₁) (h' : Frame writable m₁ m₂) :
    Frame writable m m₂ := by
  intro i s hs
  obtain ⟨s₁, hs₁, houter₁, hnames₁, hsame₁⟩ := h i s hs
  obtain ⟨s₂, hs₂, houter₂, hnames₂, hsame₂⟩ := h' i s₁ hs₁
  refine ⟨s₂, hs₂, houter₂.trans houter₁, fun n hn => hnames₂ n (hnames₁ n hn), fun hnot => ?_⟩
  rw [hsame₂ hnot, hsame₁ hnot]

theorem Frame.chain_eq (h : Frame writable m m₁) {i : ScopeId} (hi : i < m.scopes.size) :
    m₁.chain i = m.chain i := by
  obtain ⟨s, hs, houter, -⟩ := h i _ (Array.getElem?_eq_getElem hi)
  rw [chain_of_scope hs, houter, chain_of_lt hi]

theorem addScope_eq (m : Machine) : m.addScope = m.enclose m.scopes.size := by
  simp [Machine.addScope, Machine.enclose, chain_of_size_le]

theorem chain_new (m : Machine) (outer : ScopeId) :
    (m.enclose outer).2.chain m.scopes.size = m.scopes.size :: m.chain outer :=
  chain_of_scope (s := ⟨[], m.chain outer⟩) Array.getElem?_push_size

theorem linked_empty : Machine.empty.Linked := by
  intro i s hs
  simp [Machine.empty] at hs

theorem Linked.enclose (h : m.Linked) (outer : ScopeId) : (m.enclose outer).2.Linked := by
  have hold : ∀ {i : ScopeId}, i < m.scopes.size → (m.enclose outer).2.chain i = m.chain i :=
    ((frame_refl (fun _ => True) m).enclose outer).chain_eq
  intro i s hs
  rw [Machine.enclose, Array.getElem?_push] at hs
  split at hs
  · rename_i hi
    cases hs
    by_cases houter : outer < m.scopes.size
    · exact .inr ⟨outer, hi ▸ houter, (hold houter).symm⟩
    · exact .inl (chain_of_size_le (Nat.le_of_not_lt houter))
  · have hi := (Array.getElem?_eq_some_iff.mp hs).1
    rcases h i s hs with hnone | ⟨o, ho, hchain⟩
    · exact .inl hnone
    · refine .inr ⟨o, ho, ?_⟩
      rw [hchain, hold (Nat.lt_trans ho hi)]

theorem Linked.define (h : m.Linked) (scope : ScopeId) (name : String) (v : Value) :
    (m.define scope name v).Linked := by
  intro i s hs
  simp only [chain_define]
  rw [Machine.define, Array.getElem?_modify] at hs
  split at hs
  · obtain ⟨s₀, hs₀, rfl⟩ := Option.map_eq_some_iff.mp hs
    exact h i s₀ hs₀
  · exact h i s hs

end

/-! ## One definition -/

section

variable (m : Machine) {e : ScopeId} (he : e < m.scopes.size) (name : String) (v : Value)

/-- The nearest scope that binds the name, from this one outward. -/
def binder? (scope : ScopeId) : Option ScopeId :=
  (m.chain scope).find? fun i => (m.local? i name).isSome

include he

theorem lookup_after_define (scope : ScopeId) (n : String) :
    (m.define e name v).lookup scope n =
      if n = name ∧ (m.define e name v).binder? name scope = some e then some v
      else m.lookup scope n := by
  unfold Machine.lookup Machine.binder?
  simp only [chain_define, local?_define m e name v _ _ he]
  by_cases hn : n = name
  · subst hn
    -- Up to the scope of the definition nothing has changed.
    induction m.chain scope with
    | nil => simp
    | cons i is ih =>
      by_cases hi : i = e
      · simp [hi]
      · cases hlocal : m.local? i n <;> simp_all
  · simp [hn]

end

end Machine

theorem Bindings.map_set (name : String) (v : Value) (bs : List (String × Value)) :
    (Bindings.set name v bs).map (·.1) =
      if name ∈ bs.map (·.1) then bs.map (·.1) else bs.map (·.1) ++ [name] := by
  induction bs with
  | nil => rfl
  | cons b bs ih =>
    obtain ⟨n, w⟩ := b
    unfold Bindings.set
    by_cases hn : n = name
    · simp [hn]
    · simp only [if_neg hn, List.map_cons, ih, List.mem_cons, Ne.symm hn, false_or]
      split <;> rfl

theorem Machine.names_after_define (m : Machine) {e : ScopeId} (he : e < m.scopes.size)
    (name : String) (v : Value) (scope : ScopeId) :
    if scope = e ∧ name ∉ m.names scope then
      ((m.define e name v).names scope).Perm (name :: m.names scope)
    else (m.define e name v).names scope = m.names scope := by
  unfold Machine.names Machine.define
  rw [Array.getElem?_modify]
  by_cases hscope : scope = e
  · subst hscope
    simp only [Array.getElem?_eq_getElem he, Option.map_some, if_true, Bindings.map_set,
      List.mem_mergeSort, true_and]
    by_cases hname : name ∈ (m.scopes[scope]).bindings.map (·.1)
    · simp only [hname, not_true_eq_false, if_false, if_true]
    · simp only [hname, not_false_eq_true, if_true, if_false]
      refine (List.mergeSort_perm _ _).trans (List.perm_append_comm.trans ?_)
      exact (List.mergeSort_perm _ _).symm.cons name
  · simp [hscope, Ne.symm hscope]

/-! ## Evaluation -/

/-- The scopes are linked, and those of `m₀` have the same scopes around them. -/
def linkedDiscipline (m₀ : Machine) : Discipline where
  value := .any
  store m := m.Linked ∧ Machine.Frame (fun _ => True) m₀ m
  scope _ := True
  stop _ := True
  store_define h _ := ⟨h.1.define _ _ _, h.2.define (.inl trivial) _ _⟩
  store_enclose h := ⟨h.1.enclose _, h.2.enclose _⟩
  scope_new _ := trivial
  store_fresh h := h
  store_depth h := h
  stop_error _ := trivial

theorem Machine.Linked.eval {m : Machine} (h : m.Linked) (limits : Limits) (p : Program)
    (env : ScopeId) : ((p.eval limits env).after m).Linked ∧
      Machine.Frame (fun _ => True) m ((p.eval limits env).after m) := by
  have hadmits := Discipline.admits_any (D := linkedDiscipline m) trivial (fun _ _ _ => trivial)
    (fun _ => trivial) limits.calls (limits.splices + 1)
  have hlevels := levels_respect hadmits m.depth
  have hm : (linkedDiscipline m).Inv m.depth m :=
    ⟨⟨h, Machine.frame_refl _ m⟩, fun _ _ _ b _ => b.2.holds_any, rfl⟩
  refine (Discipline.Ensures.after (P := fun _ => True) ?_ hm).store
  refine Eval.ensures_bind (Block.evalWith_ensures hlevels p.statements .null env
    (Stmt.listEverywhere_any _) trivial trivial) fun v _ => ?_
  exact Eval.ensures_pure trivial

end Monkey
