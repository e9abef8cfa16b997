import Monkey.Proofs.Discipline

/-!
# What can be reached

A scope leads to its bindings and to the scopes around it, a value to its parts, and a function to
the scope it was made in. What holds of every binding holds of whatever can be reached from a scope.
-/

namespace Monkey

/-- Where a search through the store can stand. -/
inductive Place where
  | scope (i : ScopeId)
  | value (v : Value)

/-- One step of a search. -/
inductive Machine.Leads (m : Machine) : Place → Place → Prop
  | binding {i : ScopeId} {s : Scope} {name : String} {v : Value} :
    m.scopes[i]? = some s → (name, v) ∈ s.bindings → Leads m (.scope i) (.value v)
  | enclosing {i j : ScopeId} : j ∈ m.chain i → Leads m (.scope i) (.scope j)
  | captured {id : Identity} {ps : List String} {b : Block} {i : ScopeId} :
    Leads m (.value (.function id ps b i)) (.scope i)
  | element {id : Identity} {vs : List Value} {v : Value} :
    v ∈ vs → Leads m (.value (.array id vs)) (.value v)
  | entry {id : Identity} {entries : List (Key × Value)} {k : Key} {v : Value} :
    (k, v) ∈ entries → Leads m (.value (.hash id entries)) (.value v)
  | returned {v : Value} : Leads m (.value (.returned v)) (.value v)

/-- Any number of steps. -/
inductive Machine.Reaches (m : Machine) (start : Place) : Place → Prop
  | start : Reaches m start start
  | step {a b : Place} : Reaches m start a → m.Leads a b → Reaches m start b

theorem Machine.reaches_of_lookup {m : Machine} {scope : ScopeId} {name : String} {v : Value}
    (h : m.lookup scope name = some v) : m.Reaches (.scope scope) (.value v) := by
  obtain ⟨i, hi, hlocal⟩ := List.exists_of_findSome?_eq_some h
  have hscope : m.Reaches (.scope scope) (.scope i) := .step .start (.enclosing hi)
  unfold Machine.local? at hlocal
  split at hlocal
  · rename_i s hs
    obtain ⟨before, after, hb, -⟩ := List.lookup_eq_some_iff.mp hlocal
    have hmem : (name, v) ∈ s.bindings := by simp [hb]
    exact .step hscope (.binding hs hmem)
  · cases hlocal

section

variable {p : ValueProperty} {m : Machine}

/-- The property holds of the value at the place, if there is one. -/
def Place.Holds (p : ValueProperty) : Place → Prop
  | .scope _ => True
  | .value v => v.Holds p

theorem Machine.Leads.holds (hm : m.Holds p) {a b : Place} (h : m.Leads a b) (ha : a.Holds p) :
    b.Holds p := by
  cases h with
  | binding hs hb => exact hm _ _ hs _ hb
  | enclosing _ => trivial
  | captured => trivial
  | element hv => exact Value.listHolds_iff.mp ha _ hv
  | entry hv => exact Value.entriesHold_iff.mp ha _ hv
  | returned => exact ha

/-- What holds of all bindings and of the start holds of everything that can be reached. -/
theorem Machine.Reaches.holds (hm : m.Holds p) {a b : Place} (h : m.Reaches a b)
    (ha : a.Holds p) : b.Holds p := by
  induction h with
  | start => exact ha
  | step _ hleads ih => exact hleads.holds hm ih

end

end Monkey
