import Monkey.Eval.Basic

/-!
# Watches

A watch is told what an evaluation does while it does it: that it begins with an expression or goes
on in a block, and each value that it uses. The watch sees the machine of that moment and may act:
change the machine, or stop the evaluation.
-/

namespace Monkey

/-- What a value is used for. -/
inductive Use where
  /-- It gets a name. -/
  | binding
  | argument
  | callee
  /-- It is stored in an array. -/
  | element
  | key
  /-- It is stored in a hash. -/
  | entry
  | operand
  | condition
  /-- It is looked into at an index. -/
  | indexed
  | index
  /-- A `return` takes it out of its call. -/
  | result
  /-- It is turned into syntax. -/
  | unquoted
deriving DecidableEq

/-- What a watch is told. -/
inductive Event where
  | begins
  | uses (use : Use) (v : Value)

abbrev Watch := Event → Eval Unit

namespace Watch

/-- The watch that never acts. -/
def idle : Watch := fun _ => pure ()

def usesAll (watch : Watch) (use : Use) : List Value → Eval Unit
  | [] => pure ()
  | v :: vs => do
    watch (.uses use v)
    watch.usesAll use vs

end Watch

end Monkey
