/-!
# JSON values

A JSON value keeps the order of its fields. A number is an integer, or a decimal that was written
with a fraction or an exponent. The readers below hand out the parts of a value together with a
proof that they are smaller, so that a decoder can recurse on them.
-/

namespace Monkey

inductive Json where
  | null
  | boolean (b : Bool)
  | integer (n : Int)
  | decimal (text : String)
  | string (text : String)
  | array (items : List Json)
  | object (fields : List (String × Json))
deriving Inhabited

namespace Json

/-- A value inside `j`. -/
def Part (j : Json) : Type := { x : Json // sizeOf x < sizeOf j }

def isNull : Json → Bool
  | null => true
  | _ => false

def boolean? : Json → Option Bool
  | boolean b => some b
  | _ => none

def integer? : Json → Option Int
  | integer n => some n
  | _ => none

def string? : Json → Option String
  | string text => some text
  | _ => none

/-- A name from a fixed choice: a string, or an object with that one field, which holds nothing. -/
def choice? : Json → Option String
  | string text => some text
  | object [(text, null)] => some text
  | _ => none

theorem sizeOf_item_lt {items : List Json} {x : Json} (h : x ∈ items) :
    sizeOf x < sizeOf (array items) := by
  have := List.sizeOf_lt_of_mem h
  simp only [array.sizeOf_spec]
  omega

theorem sizeOf_field_lt {fields : List (String × Json)} {f : String × Json} (h : f ∈ fields) :
    sizeOf f.2 < sizeOf (object fields) := by
  have := List.sizeOf_lt_of_mem h
  have : sizeOf f = 1 + sizeOf f.1 + sizeOf f.2 := rfl
  simp only [object.sizeOf_spec]
  omega

/-- The items of an array. -/
def items? : (j : Json) → Option (List j.Part)
  | array items => some (items.attach.map fun x => ⟨x.1, sizeOf_item_lt x.2⟩)
  | _ => none

/-- The first field of that name. -/
def field? (name : String) : (j : Json) → Option j.Part
  | object fields =>
    match h : fields.find? (·.1 = name) with
    | some f => some ⟨f.2, sizeOf_field_lt (List.mem_of_find?_eq_some h)⟩
    | none => none
  | _ => none

/-- The fields of these names. The object may have others, but it has all of these. -/
def fields? (names : List String) (j : Json) : Option (List j.Part) :=
  names.mapM fun name => j.field? name

/-- The parts of a record with these field names: an object that has them, or an array of just
their values in this order. -/
def record? (names : List String) (j : Json) : Option (List j.Part) :=
  match j.items? with
  | some items => if items.length = names.length then some items else none
  | none => j.fields? names

end Json

end Monkey
