import Monkey.Eval
import Monkey.Syntax.Parser

/-!
# Sessions

A session evaluates one input after another in the same scope. An input with syntax errors is not
evaluated at all. What a failing input bound before it failed stays bound.
-/

namespace Monkey

/-- Why an input has no value. -/
inductive SessionError where
  | parse (errors : List Diagnostic)
  | eval (stop : Stop)

def Stop.message : Stop → String
  | .error e => e.message
  | .exhausted => "evaluation does not end"

def SessionError.message : SessionError → String
  | .parse errors => "parser errors:\n" ++ Diagnostic.report errors
  | .eval stop => stop.message

structure Session where
  machine : Machine
  /-- The scope of all inputs. -/
  scope : ScopeId
  limits : Limits

namespace Session

/-- A session with nothing bound. -/
def new (limits : Limits) : Session :=
  let (scope, machine) := Machine.empty.addScope
  ⟨machine, scope, limits⟩

/-- Evaluates a program in the scope of the session. -/
def evalProgram (s : Session) (p : Program) : Except Stop Value × Session :=
  match (p.eval s.limits s.scope).run s.machine with
  | .ok v m => (.ok v, { s with machine := m })
  | .error e m => (.error e, { s with machine := m })

def eval (s : Session) (source : String) : Except SessionError Value × Session :=
  let parsed := parse source
  if parsed.errors.isEmpty then
    match s.evalProgram parsed.program with
    | (.ok v, s) => (.ok v, s)
    | (.error e, s) => (.error (.eval e), s)
  else (.error (.parse parsed.errors), s)

def names (s : Session) : List String := s.machine.names s.scope

end Session

/-- The depth of calls that is allowed if nothing else is said. -/
def defaultLimit : Nat := 10000

/-- Evaluates a source text on its own. What it quotes contains no `unquote`, so there are no
splices. -/
def run (source : String) : Except SessionError Value :=
  ((Session.new ⟨defaultLimit, 0⟩).eval source).1

end Monkey
