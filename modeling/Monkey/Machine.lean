import Monkey.Syntax.Debug
import Monkey.Value.Basic

/-!
# The state of a running program

A machine holds every scope made so far. Scopes are named by their place, so everyone who holds the
name sees later changes. A scope knows the scopes around it, from the inside out; a name is looked
up along that chain and always bound in the innermost scope.
-/

namespace Monkey

structure Scope where
  /-- In the order in which the names were first bound. -/
  bindings : List (String × Value)
  /-- The scopes around this one, from the inside out. -/
  enclosing : List ScopeId

namespace Bindings

/-- Binds a name, in place of an older binding of it. -/
def set (name : String) (v : Value) : List (String × Value) → List (String × Value)
  | [] => [(name, v)]
  | (n, w) :: rest => if n = name then (name, v) :: rest else (n, w) :: set name v rest

theorem lookup_set (name n : String) (v : Value) (bs : List (String × Value)) :
    (set name v bs).lookup n = if n = name then some v else bs.lookup n := by
  induction bs with
  | nil =>
    by_cases h : n = name
    · simp [set, h]
    · simp [set, h, List.lookup_cons, beq_false_of_ne h]
  | cons b bs ih =>
    obtain ⟨k, w⟩ := b
    unfold set
    split
    · rename_i hk
      subst hk
      by_cases h : n = k
      · simp [h]
      · simp [h, List.lookup_cons, beq_false_of_ne h]
    · rename_i hk
      by_cases h : n = k
      · subst h
        simp [hk]
      · simp [List.lookup_cons, beq_false_of_ne h, ih]

end Bindings

structure Machine where
  scopes : Array Scope
  /-- The next identity that no object has. -/
  fresh : Identity
  /-- How many function calls are going on. -/
  depth : Nat

namespace Machine

def empty : Machine := ⟨#[], 0, 0⟩

/-- Makes a scope with nothing around it. -/
def addScope (m : Machine) : ScopeId × Machine :=
  (m.scopes.size, { m with scopes := m.scopes.push ⟨[], []⟩ })

/-- The scope itself and the scopes around it, from the inside out. -/
def chain (m : Machine) (scope : ScopeId) : List ScopeId :=
  match m.scopes[scope]? with
  | some s => scope :: s.enclosing
  | none => []

/-- Makes a scope inside another one. -/
def enclose (m : Machine) (outer : ScopeId) : ScopeId × Machine :=
  (m.scopes.size, { m with scopes := m.scopes.push ⟨[], m.chain outer⟩ })

def define (m : Machine) (scope : ScopeId) (name : String) (v : Value) : Machine :=
  { m with scopes := m.scopes.modify scope fun s =>
      { s with bindings := Bindings.set name v s.bindings } }

/-- The value of a name in just this scope. -/
def local? (m : Machine) (scope : ScopeId) (name : String) : Option Value :=
  match m.scopes[scope]? with
  | some s => s.bindings.lookup name
  | none => none

/-- The value of a name, from the scope outward. -/
def lookup (m : Machine) (scope : ScopeId) (name : String) : Option Value :=
  (m.chain scope).findSome? fun s => m.local? s name

/-- The names bound in just this scope, in order. -/
def names (m : Machine) (scope : ScopeId) : List String :=
  match m.scopes[scope]? with
  | some s => (s.bindings.map (·.1)).mergeSort (· ≤ ·)
  | none => []

/-- The names of a scope, spelled out. -/
def debug (m : Machine) (scope : ScopeId) : String :=
  Debug.record "Environment"
    [("names", Debug.list ((m.names scope).map Debug.quoted)),
      ("has_outer", Debug.boolean (1 < (m.chain scope).length))]

end Machine

end Monkey
