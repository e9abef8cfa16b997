import Monkey.Eval.Basic

/-! # Operators, indexing and builtins -/

namespace Monkey

/-! ## Operators -/

def UnaryOp.apply : UnaryOp → Value → Except EvalError Value
  | .bang, v => .ok (.boolean !v.truthy)
  | .minus, .integer n =>
    match Integer.neg? n with
    | some r => .ok (.integer r)
    | none => .error (.integerOverflow 0 .minus n)
  | .minus, v => .error (.unknownOperator .minus v.kind)

/-- An integer that fits, or an overflow. -/
def exactly (a : Int64) (op : BinaryOp) (b : Int64) : Option Int64 → Except EvalError Value
  | some r => .ok (.integer r)
  | none => .error (.integerOverflow a op b)

def BinaryOp.onIntegers (op : BinaryOp) (a b : Int64) : Except EvalError Value :=
  match op with
  | .plus => exactly a op b (Integer.add? a b)
  | .minus => exactly a op b (Integer.sub? a b)
  | .asterisk => exactly a op b (Integer.mul? a b)
  | .slash => if b = 0 then .error (.divisionByZero a) else exactly a op b (Integer.div? a b)
  | .less => .ok (.boolean (a.toInt < b.toInt))
  | .greater => .ok (.boolean (b.toInt < a.toInt))
  | .equal => .ok (.boolean (a = b))
  | .notEqual => .ok (.boolean (a ≠ b))

/-- Any two values can be compared, by identity. -/
def BinaryOp.onValues (op : BinaryOp) (a b : Value) : Except EvalError Value :=
  match op with
  | .equal => .ok (.boolean (a.identical b))
  | .notEqual => .ok (.boolean !a.identical b)
  | op => .error (.invalidOperation a.kind op b.kind)

def BinaryOp.apply (op : BinaryOp) (a b : Value) : Eval Value :=
  match a, b with
  | .integer a, .integer b => Eval.ofExcept (op.onIntegers a b)
  | .string i s, .string j t =>
    if op = .plus then Eval.newString (s ++ t)
    else Eval.ofExcept (op.onValues (.string i s) (.string j t))
  | a, b => Eval.ofExcept (op.onValues a b)

/-! ## Indexing -/

/-- The element at an index, or null outside the array. -/
def elementAt (elements : List Value) (i : Int64) : Value :=
  if i.toInt < 0 then .null else elements[i.toInt.toNat]?.getD .null

def indexInto : Value → Value → Except EvalError Value
  | .array _ elements, .integer i => .ok (elementAt elements i)
  | .hash _ entries, k =>
    match k.key? with
    | some k => .ok ((Entries.find? k entries).getD .null)
    | none => .error (.unusableHashKey k.kind)
  | v, i => .error (.indexNotSupported v.kind i.kind)

/-! ## Builtins -/

namespace Builtin

/-- The single argument, which is an array. -/
def arrayArgument (b : Builtin) : List Value → Except EvalError (List Value)
  | [.array _ elements] => .ok elements
  | [v] => .error (.builtinArgument b v.kind)
  | args => .error (.builtinArity b args.length)

def length : List Value → Except EvalError Value
  | [.string _ text] => .ok (.integer (Int64.ofNat text.length))
  | [.array _ elements] => .ok (.integer (Int64.ofNat elements.length))
  | [v] => .error (.builtinArgument .len v.kind)
  | args => .error (.builtinArity .len args.length)

def apply : Builtin → List Value → Eval Value
  | len, args => Eval.ofExcept (length args)
  | first, args => do
    let elements ← Eval.ofExcept (arrayArgument .first args)
    return elements.head?.getD .null
  | last, args => do
    let elements ← Eval.ofExcept (arrayArgument .last args)
    return elements.getLast?.getD .null
  | rest, args => do
    match ← Eval.ofExcept (arrayArgument .rest args) with
    | [] => return .null
    | _ :: tail => Eval.newArray tail
  | push, [.array _ elements, v] => Eval.newArray (elements ++ [v])
  | push, [v, _] => Eval.fail (.builtinFirstArgument .push v.kind)
  | push, args => Eval.fail (.builtinArity .push args.length)

end Builtin

end Monkey
