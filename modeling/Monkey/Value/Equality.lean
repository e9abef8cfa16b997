import Monkey.Syntax.Equality
import Monkey.Value.Basic

/-!
# Equal contents

Two values are equal if they have the same contents, whatever their identities. Functions are the
exception: a function equals only itself.
-/

namespace Monkey

mutual

def Value.equal : Value → Value → Bool
  | .integer a, .integer b => a == b
  | .boolean a, .boolean b => a == b
  | .null, .null => true
  | .string _ a, .string _ b => a == b
  | .array _ a, .array _ b => Value.equalList a b
  | .hash _ a, .hash _ b => Value.equalEntries a b
  | .function a _ _ _, .function b _ _ _ => a == b
  | .quote _ a, .quote _ b => a = b
  | .builtin a, .builtin b => a == b
  | .returned a, .returned b => a.equal b
  | _, _ => false

def Value.equalList : List Value → List Value → Bool
  | [], [] => true
  | a :: as, b :: bs => a.equal b && Value.equalList as bs
  | _, _ => false

def Value.equalEntries : List (Key × Value) → List (Key × Value) → Bool
  | [], [] => true
  | (k, a) :: as, (l, b) :: bs => k == l && a.equal b && Value.equalEntries as bs
  | _, _ => false

end

end Monkey
