import Monkey.Position

/-!
# Diagnostics

A syntax error is a message and the span it is about. A source has a list of them, in the order
they were met.
-/

namespace Monkey

structure Diagnostic where
  message : String
  span : Span
deriving DecidableEq

namespace Diagnostic

def render (d : Diagnostic) : String :=
  d.span.render ++ ": " ++ d.message

/-- One message a line, each after a tab. -/
def report (ds : List Diagnostic) : String :=
  "\n".intercalate (ds.map fun d => "\t" ++ d.message)

end Diagnostic

end Monkey
