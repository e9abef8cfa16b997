import Monkey.Eval.Error
import Monkey.Machine

/-!
# Evaluation steps

An evaluation changes the machine and ends in a value or stops. What it did to the machine stays
done either way.
-/

namespace Monkey

abbrev Eval := EStateM Stop Machine

namespace Eval

def fail {α : Type} (e : EvalError) : Eval α := throw (.error e)

def ofExcept {α : Type} : Except EvalError α → Eval α
  | .ok a => pure a
  | .error e => fail e

/-- An identity that no object has yet. -/
def newIdentity : Eval Identity := do
  let m ← get
  set { m with fresh := m.fresh + 1 }
  return m.fresh

def newString (text : String) : Eval Value := return .string (← newIdentity) text

def newArray (elements : List Value) : Eval Value := return .array (← newIdentity) elements

def newHash (entries : List (Key × Value)) : Eval Value := return .hash (← newIdentity) entries

def newQuote (node : Expr) : Eval Value := return .quote (← newIdentity) node

def newFunction (parameters : List String) (body : Block) (scope : ScopeId) : Eval Value :=
  return .function (← newIdentity) parameters body scope

def define (scope : ScopeId) (name : String) (v : Value) : Eval Unit :=
  modify fun m => m.define scope name v

/-- Binds the names to the values, one after the other. -/
def defineAll (scope : ScopeId) : List (String × Value) → Eval Unit
  | [] => pure ()
  | (name, v) :: rest => do
    define scope name v
    defineAll scope rest

/-- A new scope inside another one. -/
def enclose (outer : ScopeId) : Eval ScopeId :=
  modifyGet fun m => m.enclose outer

/-- The value of a name in scope, or else the builtin of that name. -/
def resolve (scope : ScopeId) (name : String) : Eval Value := do
  match (← get).lookup scope name with
  | some v => return v
  | none =>
    match Builtin.ofName? name with
    | some b => return .builtin b
    | none => fail (.undefinedName name)

/-- Runs one call deeper, and comes back however that ends. -/
def deeper {α : Type} (x : Eval α) : Eval α := fun m =>
  match x { m with depth := m.depth + 1 } with
  | .ok a m => .ok a { m with depth := m.depth - 1 }
  | .error e m => .error e { m with depth := m.depth - 1 }

end Eval

end Monkey
