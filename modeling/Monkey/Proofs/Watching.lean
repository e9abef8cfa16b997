import Monkey.Eval

/-!
# Watching an evaluation

Something holds at all times of an evaluation if no watch that acts only where it fails makes a
difference. Under the watch that never acts nothing is left of the events, so each form of syntax is
evaluated by an equation that does not speak of them.
-/

namespace Monkey

/-- At every event of the watched evaluation `x`, started on `m`, the property holds of the event
and of the machine at that moment. -/
def AtAllTimes {α : Type} (P : Event → Machine → Prop) (x : Watch → Eval α) (m : Machine) : Prop :=
  ∀ watch : Watch, (∀ event m', P event m' → watch event m' = .ok () m') → x watch m = x .idle m

theorem AtAllTimes.mono {α : Type} {P P' : Event → Machine → Prop} {x : Watch → Eval α}
    {m : Machine} (h : AtAllTimes P x m) (hP : ∀ event m', P event m' → P' event m') :
    AtAllTimes P' x m :=
  fun watch hwatch => h watch fun event m' hevent => hwatch event m' (hP event m' hevent)

/-- The watch that stops the evaluation where the test says so. -/
def Watch.stopAt (test : Event → Machine → Bool) : Watch := fun event m =>
  if test event m then .error .exhausted m else .ok () m

def Eval.isStopped {α : Type} (x : Eval α) (m : Machine) : Bool :=
  match x m with
  | .error .exhausted _ => true
  | .error (.error _) _ | .ok _ _ => false

/-- If a test stops the evaluation, then what excludes the test does not hold at all times. -/
theorem not_atAllTimes {α : Type} {P : Event → Machine → Prop} {x : Watch → Eval α} {m : Machine}
    (test : Event → Machine → Bool) (htest : ∀ event m', P event m' → test event m' = false)
    (hstops : (x (.stopAt test)).isStopped m = true) (hends : (x .idle).isStopped m = false) :
    ¬ AtAllTimes P x m := by
  intro h
  have hsame : x (.stopAt test) m = x .idle m := h _ fun event m' hP => by
    rw [Watch.stopAt, htest event m' hP]
    rfl
  unfold Eval.isStopped at hstops hends
  rw [hsame, hends] at hstops
  cases hstops

/-! ## Equations without a watch -/

namespace Watch

@[simp] theorem idle_apply (event : Event) : idle event = pure () := rfl

@[simp] theorem usesAll_idle (use : Use) (vs : List Value) : idle.usesAll use vs = pure () := by
  induction vs with
  | nil => rfl
  | cons v vs ih => exact ih

end Watch

section

variable (limit : Nat) (levels : Levels) (env : ScopeId)

attribute [local simp] Expr.evalWith Stmt.evalWith Block.evalWith

namespace Expr

theorem evalWith_identifier (name : String) :
    (identifier name).evalWith .idle limit levels env = Eval.resolve env name := by
  simp

theorem evalWith_integer (n : Int64) :
    (integer n).evalWith .idle limit levels env = pure (.integer n) := by
  simp

theorem evalWith_boolean (b : Bool) :
    (boolean b).evalWith .idle limit levels env = pure (.boolean b) := by
  simp

theorem evalWith_string (text : String) :
    (string text).evalWith .idle limit levels env = Eval.newString text := by
  simp

theorem evalWith_array (es : List Expr) : (array es).evalWith .idle limit levels env = (do
    let vs ← evalListWith .idle limit levels es env
    Eval.newArray vs) := by
  simp

theorem evalWith_hash (pairs : List (Expr × Expr)) :
    (hash pairs).evalWith .idle limit levels env = (do
      let entries ← evalPairsWith .idle limit levels pairs [] env
      Eval.newHash entries) := by
  simp

theorem evalWith_unary (op : UnaryOp) (right : Expr) :
    (unary op right).evalWith .idle limit levels env = (do
      let v ← right.evalWith .idle limit levels env
      Eval.ofExcept (op.apply v)) := by
  simp

theorem evalWith_binary (left : Expr) (op : BinaryOp) (right : Expr) :
    (binary left op right).evalWith .idle limit levels env = (do
      let a ← left.evalWith .idle limit levels env
      let b ← right.evalWith .idle limit levels env
      op.apply a b) := by
  simp

theorem evalWith_conditional (condition : Expr) (consequence : Block) (alternative : Option Block) :
    (conditional condition consequence alternative).evalWith .idle limit levels env = (do
      let c ← condition.evalWith .idle limit levels env
      if c.truthy then Block.evalWith .idle limit levels consequence .null env
      else Block.evalElseWith .idle limit levels alternative env) := by
  simp

theorem evalWith_function (ps : List String) (b : Block) :
    (function ps b).evalWith .idle limit levels env = Eval.newFunction ps b env := by
  simp

theorem eq_of_isName {name : String} {e : Expr} (h : e.isName name) : e = .identifier name := by
  cases e with
  | identifier n => rw [of_decide_eq_true h]
  | _ => cases h

theorem evalWith_quote (node : Expr) :
    (call (.identifier "quote") [node]).evalWith .idle limit levels env = (do
      let node ← levels.quoted node env
      Eval.newQuote node) := by
  simp [isName]

theorem evalWith_quote_of_length {args : List Expr} (h : args.length ≠ 1) :
    (call (.identifier "quote") args).evalWith .idle limit levels env =
      Eval.fail (.quoteArity args.length) := by
  match args with
  | [] => simp [isName]
  | [_] => exact absurd rfl h
  | _ :: _ :: _ => simp [isName]

theorem evalWith_call {callee : Expr} (h : callee.isName "quote" = false) (args : List Expr) :
    (call callee args).evalWith .idle limit levels env = (do
      let f ← callee.evalWith .idle limit levels env
      let vs ← evalListWith .idle limit levels args env
      f.call limit levels vs) := by
  simp [h]

theorem quote_cases (callee : Expr) (args : List Expr) :
    callee.isName "quote" = false ∨ (∃ node, callee = .identifier "quote" ∧ args = [node]) ∨
      callee = .identifier "quote" ∧ args.length ≠ 1 := by
  cases hname : callee.isName "quote" with
  | false => exact .inl rfl
  | true =>
    have hcallee : callee = .identifier "quote" := eq_of_isName hname
    by_cases hargs : args.length = 1
    · obtain ⟨node, rfl⟩ := List.length_eq_one_iff.mp hargs
      exact .inr (.inl ⟨node, hcallee, rfl⟩)
    · exact .inr (.inr ⟨hcallee, hargs⟩)

theorem evalWith_index (left index : Expr) :
    (Expr.index left index).evalWith .idle limit levels env = (do
      let v ← left.evalWith .idle limit levels env
      let i ← index.evalWith .idle limit levels env
      Eval.ofExcept (indexInto v i)) := by
  simp

theorem evalPairsWith_cons (key value : Expr) (pairs : List (Expr × Expr))
    (entries : List (Key × Value)) :
    evalPairsWith .idle limit levels ((key, value) :: pairs) entries env = (do
      let k ← key.evalWith .idle limit levels env
      k.key?.elim (Eval.fail (.unusableHashKey k.kind)) fun k' => do
        let v ← value.evalWith .idle limit levels env
        evalPairsWith .idle limit levels pairs (Entries.insert k' v entries) env) := by
  rw [evalPairsWith]
  refine bind_congr fun k => ?_
  cases k.key? <;> rfl

end Expr

theorem Stmt.evalWith_bind (name : String) (value : Expr) :
    (Stmt.bind name value).evalWith .idle limit levels env = (do
      let v ← value.evalWith .idle limit levels env
      Eval.define env name v
      return v) := by
  simp

theorem Stmt.evalWith_ret (value : Expr) : (Stmt.ret value).evalWith .idle limit levels env = (do
    let v ← value.evalWith .idle limit levels env
    return .returned v) := by
  simp

theorem Block.evalWith_nil (result : Value) :
    Block.evalWith .idle limit levels [] result env = pure result := by
  simp

theorem Block.evalWith_cons (s : Stmt) (ss : List Stmt) (result : Value) :
    Block.evalWith .idle limit levels (s :: ss) result env = (do
      let v ← s.evalWith .idle limit levels env
      if v.isReturned then return v else Block.evalWith .idle limit levels ss v env) := by
  simp

end

/-! ## Levels and calls -/

theorem quotedAt_succ (limit : Nat) (body : Block → ScopeId → Eval Value) (n : Nat) (node : Expr)
    (env : ScopeId) : quotedAt .idle limit body (n + 1) node env =
      (unquoter fun e =>
        e.evalWith .idle limit ⟨body, quotedAt .idle limit body n⟩ env).expr node := by
  simp [quotedAt]

theorem levelsAt_quoted (limits : Limits) (calls n : Nat) (node : Expr) (env : ScopeId) :
    (levelsAt .idle limits calls (n + 1)).quoted node env =
      (unquoter fun e =>
        e.evalWith .idle limits.calls (levelsAt .idle limits calls n) env).expr node :=
  quotedAt_succ limits.calls _ n node env

theorem Value.apply_eq_call (limits : Limits) (callee : Value) (args : List Value) :
    callee.apply limits args = callee.call limits.calls (levels .idle limits) args := by
  simp [Value.apply, Value.applyWatched]

end Monkey
