import Monkey.Syntax.Basic
import Monkey.Value.Key

/-!
# Run-time values

Strings, arrays, hashes, functions and quotes are objects: each has an identity, given to it when it
is made, and `==` compares them by it. The other values have none and compare by what they are.
-/

namespace Monkey

/-- The functions that need no definition. -/
inductive Builtin where
  | len
  | first
  | last
  | rest
  | push
deriving DecidableEq

namespace Builtin

def all : List Builtin := [len, first, last, rest, push]

def name : Builtin → String
  | len => "len"
  | first => "first"
  | last => "last"
  | rest => "rest"
  | push => "push"

def ofName? (name : String) : Option Builtin := all.find? (·.name = name)

end Builtin

/-- Tells two objects apart. -/
abbrev Identity := Nat

/-- The place of a scope in the store. -/
abbrev ScopeId := Nat

inductive Value where
  | integer (n : Int64)
  | boolean (b : Bool)
  | string (id : Identity) (text : String)
  | array (id : Identity) (elements : List Value)
  | hash (id : Identity) (entries : List (Key × Value))
  | null
  /-- The value of a `return` on its way out to the enclosing call. -/
  | returned (value : Value)
  /-- A function with the scope it was made in. -/
  | function (id : Identity) (parameters : List String) (body : Block) (scope : ScopeId)
  | builtin (b : Builtin)
  /-- An expression that is not evaluated. -/
  | quote (id : Identity) (node : Expr)

/-- The types of values. -/
inductive Kind where
  | integer
  | boolean
  | string
  | array
  | hash
  | null
  | returned
  | function
  | builtin
  | quote
deriving DecidableEq

def Kind.name : Kind → String
  | integer => "INTEGER"
  | boolean => "BOOLEAN"
  | string => "STRING"
  | array => "ARRAY"
  | hash => "HASH"
  | null => "NULL"
  | returned => "RETURN_VALUE"
  | function => "FUNCTION"
  | builtin => "BUILTIN"
  | quote => "QUOTE"

namespace Value

def kind : Value → Kind
  | integer _ => .integer
  | boolean _ => .boolean
  | string _ _ => .string
  | array _ _ => .array
  | hash _ _ => .hash
  | null => .null
  | returned _ => .returned
  | function _ _ _ _ => .function
  | builtin _ => .builtin
  | quote _ _ => .quote

/-- Only `false` and `null` do not count as true. -/
def truthy : Value → Bool
  | boolean false | null => false
  | _ => true

def isReturned : Value → Bool
  | returned _ => true
  | _ => false

/-- Takes the mark of a `return` off, if there is one. -/
def unwrapReturn : Value → Value
  | returned v => v
  | v => v

/-- What `==` compares. -/
def identical : Value → Value → Bool
  | integer a, integer b => a == b
  | boolean a, boolean b => a == b
  | null, null => true
  | string a _, string b _ => a == b
  | array a _, array b _ => a == b
  | hash a _, hash b _ => a == b
  | function a _ _ _, function b _ _ _ => a == b
  | quote a _, quote b _ => a == b
  | builtin a, builtin b => a == b
  | returned a, returned b => identical a b
  | _, _ => false

/-- The value as a hash key, if it can be one. -/
def key? : Value → Option Key
  | integer n => some (.integer n)
  | boolean b => some (.boolean b)
  | string _ text => some (.string text)
  | _ => none

end Value

end Monkey
