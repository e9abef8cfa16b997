import Monkey.Integer

/-!
# Hash keys

Integers, booleans and strings can be keys, and keys compare by value. Entries stand in the order of
their keys: all integers, then `false` and `true`, then strings by their characters.
-/

namespace Monkey

inductive Key where
  | integer (n : Int64)
  | boolean (b : Bool)
  | string (text : String)
deriving DecidableEq

namespace Key

/-- The order of keys. -/
def before : Key → Key → Bool
  | integer a, integer b => a.toInt < b.toInt
  | integer _, _ => true
  | boolean _, integer _ => false
  | boolean a, boolean b => !a && b
  | boolean _, string _ => true
  | string a, string b => a < b
  | string _, _ => false

def render : Key → String
  | integer n => Integer.render n
  | boolean b => if b then "true" else "false"
  | string text => text

end Key

/-! ## Entries in key order -/

namespace Entries

variable {α : Type}

/-- Adds an entry in its place. It takes the place of an entry with the same key. -/
def insert (k : Key) (v : α) : List (Key × α) → List (Key × α)
  | [] => [(k, v)]
  | (k', v') :: rest =>
    if k = k' then (k, v) :: rest
    else if k.before k' then (k, v) :: (k', v') :: rest
    else (k', v') :: insert k v rest

def find? (k : Key) : List (Key × α) → Option α
  | [] => none
  | (k', v) :: rest => if k = k' then some v else find? k rest

theorem find?_insert (k l : Key) (v : α) (entries : List (Key × α)) :
    find? l (insert k v entries) = if l = k then some v else find? l entries := by
  induction entries with
  | nil => rfl
  | cons e rest ih =>
    obtain ⟨k', v'⟩ := e
    unfold insert
    split
    · rename_i hk
      subst hk
      by_cases h : l = k <;> simp [find?, h]
    · split
      · rfl
      · rename_i hk _
        by_cases h : l = k'
        · subst h
          simp [find?, Ne.symm hk]
        · simp [find?, h, ih]

end Entries

end Monkey
