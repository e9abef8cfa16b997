import Mathlib.Data.Nat.Nth
import Mathlib.Data.Set.List
import Monkey.Proofs.Reachability
import Monkey.Proofs.Renaming

/-!
# What cannot be reached does not matter

Hold on to some places of a machine and drop all scopes that cannot be reached from them. What is
left, numbered anew, is a machine of which the first one is a renamed copy with more scopes. So
whatever is known of evaluations on machines where every scope counts carries over to machines where
only those count that can be reached.
-/

namespace Monkey

/-! ## Renaming scopes -/

/-- Gives other places to scopes only. -/
def Renaming.ofScope (f : ScopeId → ScopeId) (hf : Function.Injective f) : Renaming :=
  ⟨id, f, id, Function.injective_id, hf, Function.injective_id, identical.keeps⟩

def Place.rename (ρ : Renaming) : Place → Place
  | .scope i => .scope (ρ.scope i)
  | .value v => .value (v.rename ρ)

theorem Machine.Renamed.leads {ρ : Renaming} {d : Nat} {m m' : Machine} (h : Renamed ρ d m m')
    {a b' : Place} (hleads : m'.Leads (a.rename ρ) b') : ∃ b, m.Leads a b ∧ b.rename ρ = b' := by
  -- Renaming keeps the form of a place, so before it the step was of the same kind.
  cases a with
  | scope i =>
    cases hleads with
    | binding hs hb =>
      rw [h.scopes i] at hs
      obtain ⟨s, hscope, rfl⟩ := Option.map_eq_some_iff.mp hs
      obtain ⟨⟨name, v⟩, hbinding, heq⟩ := List.mem_map.mp hb
      cases heq
      exact ⟨.value v, .binding hscope hbinding, rfl⟩
    | enclosing hj =>
      rw [h.chain i] at hj
      obtain ⟨j, hchain, rfl⟩ := List.mem_map.mp hj
      exact ⟨.scope j, .enclosing hchain, rfl⟩
  | value v =>
    cases v with
    | function id ps b i =>
      cases hleads
      exact ⟨.scope i, .captured, rfl⟩
    | array id vs =>
      cases hleads with
      | element hv =>
        rw [Value.renameList_eq_map] at hv
        obtain ⟨v, helement, rfl⟩ := List.mem_map.mp hv
        exact ⟨.value v, .element helement, rfl⟩
    | hash id entries =>
      cases hleads with
      | entry hv =>
        rw [Value.renameEntries_eq_map] at hv
        obtain ⟨⟨k, v⟩, hentry, heq⟩ := List.mem_map.mp hv
        cases heq
        exact ⟨.value v, .entry hentry, rfl⟩
    | returned v =>
      cases hleads
      exact ⟨.value v, .returned, rfl⟩
    | _ => cases hleads

theorem Machine.Renamed.reaches {ρ : Renaming} {d : Nat} {m m' : Machine} (h : Renamed ρ d m m')
    {a b' : Place} (hreaches : m'.Reaches (a.rename ρ) b') :
    ∃ b, m.Reaches a b ∧ b.rename ρ = b' := by
  induction hreaches with
  | start => exact ⟨a, .start, rfl⟩
  | step _ hleads ih =>
    obtain ⟨b, hb, rfl⟩ := ih
    obtain ⟨c, hc, rfl⟩ := h.leads hleads
    exact ⟨c, .step hb hc, rfl⟩

/-! ## What is kept -/

/-- The place can be reached from one that is held. -/
def Machine.Keeps (m : Machine) (held : Place → Prop) (b : Place) : Prop :=
  ∃ a, held a ∧ m.Reaches a b

theorem Machine.Keeps.step {m : Machine} {held : Place → Prop} {a b : Place} (h : m.Keeps held a)
    (hleads : m.Leads a b) : m.Keeps held b := by
  obtain ⟨start, hstart, hreaches⟩ := h
  exact ⟨start, hstart, .step hreaches hleads⟩

/-! ## Dropping the rest -/

/-- The scopes that are kept, and all that are not made yet. -/
def Machine.Live (m : Machine) (held : Place → Prop) (s : ScopeId) : Prop :=
  m.Keeps held (.scope s) ∨ m.scopes.size ≤ s

section

variable (m : Machine) (held : Place → Prop)

theorem Machine.live_infinite : (Set.ofPred (m.Live held)).Infinite :=
  Set.infinite_of_forall_exists_gt fun s =>
    ⟨max m.scopes.size (s + 1), .inr (Nat.le_max_left _ _), by simp⟩

/-- The scopes that are live, one after the other. -/
noncomputable def Machine.liveScope : ScopeId → ScopeId := Nat.nth (m.Live held)

theorem Machine.liveScope_injective : Function.Injective (m.liveScope held) :=
  Nat.nth_injective (m.live_infinite held)

theorem Machine.live_liveScope (i : ScopeId) : m.Live held (m.liveScope held i) :=
  Nat.nth_mem_of_infinite (m.live_infinite held) i

theorem Machine.exists_liveScope {s : ScopeId} (h : m.Live held s) :
    ∃ i, m.liveScope held i = s := by
  classical
  exact ⟨Nat.count (m.Live held) s, Nat.nth_count h⟩

/-- The renaming from what is left, numbered anew, to what was there. -/
noncomputable def Machine.collecting : Renaming :=
  .ofScope (m.liveScope held) (m.liveScope_injective held)

open Classical in
/-- How many scopes are left. -/
noncomputable def Machine.liveCount : Nat := Nat.count (m.Live held) m.scopes.size

theorem Machine.liveScope_add (k : Nat) :
    m.liveScope held (m.liveCount held + k) = m.scopes.size + k := by
  classical
  have hlive : ∀ j, m.Live held (m.scopes.size + j) := fun j => .inr (Nat.le_add_right _ j)
  have hcount : m.liveCount held + k = Nat.count (m.Live held) (m.scopes.size + k) := by
    rw [Nat.count_add, Nat.count_of_forall fun j _ => hlive j, Machine.liveCount]
  rw [hcount]
  exact Nat.nth_count (hlive k)

theorem Machine.liveScope_lt {i : ScopeId} (h : i < m.liveCount held) :
    m.liveScope held i < m.scopes.size := by
  classical
  rw [Machine.liveCount] at h
  exact Nat.nth_lt_of_lt_count (by convert h)

variable {m held}

theorem Machine.keeps_liveScope {i : ScopeId} (h : m.liveScope held i < m.scopes.size) :
    m.Keeps held (.scope (m.liveScope held i)) :=
  (m.live_liveScope held i).resolve_right (Nat.not_le.mpr h)

mutual

theorem Machine.Keeps.exists_value :
    ∀ {v : Value}, m.Keeps held (.value v) → ∃ u : Value, u.rename (m.collecting held) = v
  | .integer n, _ => ⟨.integer n, rfl⟩
  | .boolean b, _ => ⟨.boolean b, rfl⟩
  | .string id text, _ => ⟨.string id text, rfl⟩
  | .null, _ => ⟨.null, rfl⟩
  | .builtin b, _ => ⟨.builtin b, rfl⟩
  | .quote id node, _ => ⟨.quote id node, congrArg (Value.quote id) node.rename_id⟩
  -- The scope of a function that is kept is live, so it has a number among the live ones.
  | .function id ps b s, h => by
    obtain ⟨i, rfl⟩ := m.exists_liveScope held (.inl (h.step .captured))
    refine ⟨.function id ps b i, ?_⟩
    simp [Value.rename, Machine.collecting, Renaming.ofScope, Block.rename_id]
  | .array id vs, h => by
    obtain ⟨us, rfl⟩ := Machine.Keeps.exists_values vs fun _ hv => h.step (.element hv)
    exact ⟨.array id us, rfl⟩
  | .hash id entries, h => by
    obtain ⟨us, rfl⟩ := Machine.Keeps.exists_entries entries fun _ _ hv =>
      h.step (.entry hv)
    exact ⟨.hash id us, rfl⟩
  | .returned v, h => by
    obtain ⟨u, rfl⟩ := Machine.Keeps.exists_value (h.step .returned)
    exact ⟨.returned u, rfl⟩

theorem Machine.Keeps.exists_values :
    ∀ vs : List Value, (∀ v ∈ vs, m.Keeps held (.value v)) →
      ∃ us, Value.renameList (m.collecting held) us = vs
  | [], _ => ⟨[], rfl⟩
  | v :: vs, h => by
    obtain ⟨u, rfl⟩ := Machine.Keeps.exists_value (h v List.mem_cons_self)
    obtain ⟨us, rfl⟩ := Machine.Keeps.exists_values vs fun w hw =>
      h w (List.mem_cons_of_mem _ hw)
    exact ⟨u :: us, rfl⟩

theorem Machine.Keeps.exists_entries :
    ∀ entries : List (Key × Value), (∀ k v, (k, v) ∈ entries → m.Keeps held (.value v)) →
      ∃ us, Value.renameEntries (m.collecting held) us = entries
  | [], _ => ⟨[], rfl⟩
  | (k, v) :: entries, h => by
    obtain ⟨u, rfl⟩ := Machine.Keeps.exists_value (h k v List.mem_cons_self)
    obtain ⟨us, rfl⟩ := Machine.Keeps.exists_entries entries fun k' w hw =>
      h k' w (List.mem_cons_of_mem _ hw)
    exact ⟨(k, u) :: us, rfl⟩

end

theorem Machine.Keeps.exists_place {a : Place} (h : m.Keeps held a) :
    ∃ b : Place, b.rename (m.collecting held) = a := by
  cases a with
  | scope s =>
    obtain ⟨i, rfl⟩ := m.exists_liveScope held (.inl h)
    exact ⟨.scope i, rfl⟩
  | value v =>
    obtain ⟨u, rfl⟩ := Machine.Keeps.exists_value h
    exact ⟨.value u, rfl⟩

theorem Machine.Keeps.exists_scope {s : ScopeId} {sc : Scope} (h : m.Keeps held (.scope s))
    (hs : m.scopes[s]? = some sc) : ∃ sc₀, Scope.rename (m.collecting held) sc₀ = sc := by
  have hbindings : sc.bindings ∈
      Set.range (List.map (Prod.map id (Value.rename (m.collecting held)))) := by
    rw [Set.range_list_map]
    intro b hb
    obtain ⟨u, hu⟩ := Machine.Keeps.exists_value (h.step (.binding hs hb))
    exact ⟨(b.1, u), congrArg (b.1, ·) hu⟩
  have henclosing : sc.enclosing ∈ Set.range (List.map (m.liveScope held)) := by
    rw [Set.range_list_map]
    intro j hj
    have hchain : j ∈ m.chain s := by
      unfold Machine.chain
      rw [hs]
      exact List.mem_cons_of_mem _ hj
    exact m.exists_liveScope held (.inl (h.step (.enclosing hchain)))
  obtain ⟨bs, hbs⟩ := hbindings
  obtain ⟨js, hjs⟩ := henclosing
  exact ⟨⟨bs, js⟩, congrArg₂ Scope.mk hbs hjs⟩

variable (m held)

/-- Every machine is a renamed copy of one that has only the scopes that are kept. -/
theorem Machine.exists_collected : ∃ m₀, Machine.Renamed (m.collecting held) m.depth m₀ m := by
  have hscopes : ∀ i, i < m.liveCount held →
      ∃ sc, m.scopes[m.liveScope held i]? = some (Scope.rename (m.collecting held) sc) := by
    intro i hi
    have hlt := m.liveScope_lt held hi
    have hs := Array.getElem?_eq_getElem hlt
    obtain ⟨sc, hsc⟩ := (m.keeps_liveScope hlt).exists_scope hs
    exact ⟨sc, by rw [hs, hsc]⟩
  choose collected hcollected using hscopes
  refine ⟨⟨Array.ofFn fun i : Fin (m.liveCount held) => collected i i.2, m.fresh, m.depth⟩, ?_, ?_,
    fun _ => rfl, rfl, rfl⟩
  · intro i
    change m.scopes[m.liveScope held i]? = _
    rw [Array.getElem?_ofFn]
    split
    · rename_i hi
      exact hcollected i hi
    · rename_i hi
      obtain ⟨k, rfl⟩ := Nat.exists_eq_add_of_le (Nat.not_lt.mp hi)
      rw [m.liveScope_add held k]
      exact Array.getElem?_eq_none (Nat.le_add_right _ k)
  · intro k
    rw [Array.size_ofFn]
    exact m.liveScope_add held k

end

end Monkey
