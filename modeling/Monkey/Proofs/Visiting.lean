import Monkey.Proofs.Nodes
import Monkey.Proofs.Rewriting

/-!
# The order of visits

A hook is run on every node once, children before their parent and from left to right. Hooks may
keep state, rewrite and fail. A rewriter that fails at some hook has seen what it would have seen
without the failure, up to that hook, and no hook runs after it.
-/

namespace Monkey.Rewriter

variable {ε σ τ : Type} {α β : Type}

/-- The same result with another state. -/
def withState (f : σ → τ) : EStateM.Result ε σ α → EStateM.Result ε τ α
  | .ok a s => .ok a (f s)
  | .error x s => .error x (f s)

/-- The state at the end, whether of a success or of a failure. -/
def finalState : EStateM.Result ε σ α → σ
  | .ok _ s => s
  | .error _ s => s

/-- Runs on the first part of the state, and leaves the second as it is. -/
def onFirst (x : EStateM ε σ α) : EStateM ε (σ × τ) α := fun s =>
  withState (·, s.2) (x s.1)

/-- Before each hook, does something with the node that the hook is given. The hooks see their own
part of the state only. -/
def preceded (before : Node → EStateM ε (σ × τ) Unit) (w : Rewriter (EStateM ε σ)) :
    Rewriter (EStateM ε (σ × τ)) where
  expression e := do
    before (.expression e)
    onFirst (w.expression e)
  statement s := do
    before (.statement s)
    onFirst (w.statement s)
  block b := do
    before (.block b)
    onFirst (w.block b)
  identifier name := do
    before (.identifier name)
    onFirst (w.identifier name)

def note (node : Node) : EStateM ε (σ × List Node) Unit := fun s => .ok () (s.1, s.2 ++ [node])

/-- Notes every node that a hook is given. -/
def recording (w : Rewriter (EStateM ε σ)) : Rewriter (EStateM ε (σ × List Node)) :=
  w.preceded note

/-- Adds one to the count, and fails if that makes it `k`. -/
def countTo (k : Nat) (e : ε) : EStateM ε (σ × Nat) Unit := fun s =>
  if s.2 + 1 = k then .error e (s.1, s.2 + 1) else .ok () (s.1, s.2 + 1)

/-- Counts the hooks that are run, and fails at the one with number `k`. -/
def failingAt (k : Nat) (e : ε) (w : Rewriter (EStateM ε σ)) : Rewriter (EStateM ε (σ × Nat)) :=
  w.preceded fun _ => countTo k e

/-- The nodes that hooks are given on a walk over the program, first to last. -/
def visits (w : Rewriter (EStateM ε σ)) (p : Program) (s : σ) : List Node :=
  (finalState (w.recording.program p (s, []))).2

/-! ## Post-order -/

/-- Notes the nodes, then goes on. -/
def noting (nodes : List Node) (x : EStateM ε (σ × List Node) α) : EStateM ε (σ × List Node) α :=
  fun s => x (s.1, s.2 ++ nodes)

@[simp]
theorem noting_nil (x : EStateM ε (σ × List Node) α) : noting [] x = x := by
  funext s
  rw [noting, List.append_nil]

@[simp]
theorem noting_noting (ns ns' : List Node) (x : EStateM ε (σ × List Node) α) :
    noting ns (noting ns' x) = noting (ns ++ ns') x := by
  funext s
  simp only [noting, List.append_assoc]

@[simp]
theorem noting_pure_bind (ns : List Node) (a : α) (f : α → EStateM ε (σ × List Node) β) :
    noting ns (pure a) >>= f = noting ns (f a) := rfl

@[simp]
theorem map_noting_pure (ns : List Node) (f : α → β) (a : α) :
    (f <$> noting ns (pure a) : EStateM ε (σ × List Node) β) = noting ns (pure (f a)) := rfl

section

variable (ε σ)

/-- Changes nothing and notes what it visits. -/
abbrev observer : Rewriter (EStateM ε (σ × List Node)) := keep.recording

@[simp]
theorem observer_expression (e : Expr) :
    (observer ε σ).expression e = noting [.expression e] (pure e) := rfl

@[simp]
theorem observer_statement (s : Stmt) :
    (observer ε σ).statement s = noting [.statement s] (pure s) := rfl

@[simp]
theorem observer_block (b : Block) : (observer ε σ).block b = noting [.block b] (pure b) := rfl

@[simp]
theorem observer_identifier (name : String) :
    (observer ε σ).identifier name = noting [.identifier name] (pure name) := rfl

theorem postOrder_identifier (name : String) :
    (Node.identifier name).postOrder = [.identifier name] := Node.postOrder_eq _

theorem observer_names (ns : List String) :
    (observer ε σ).names ns =
      noting ((ns.map Node.identifier).flatMap Node.postOrder) (pure ns) := by
  induction ns with
  | nil => simp [names]
  | cons n ns ih => simp [names, ih, postOrder_identifier]

-- In each case, what the walk notes on the children and then at the node itself is
-- `Node.postOrder_eq` at that node.
mutual

theorem observer_expr : ∀ e : Expr,
    (observer ε σ).expr e = noting (Node.expression e).postOrder (pure e)
  | .identifier name => by
    rw [Node.postOrder_eq]
    simp [expr, Node.children, postOrder_identifier]
  | .integer _ | .boolean _ | .string _ => by
    rw [Node.postOrder_eq]
    simp [expr, Node.children]
  | .array es => by
    rw [Node.postOrder_eq]
    simp [expr, Node.children, observer_exprs es]
  | .hash ps => by
    rw [Node.postOrder_eq]
    simp [expr, Node.children, observer_exprPairs ps]
  | .unary _ right => by
    rw [Node.postOrder_eq]
    simp [expr, Node.children, observer_expr right]
  | .binary left _ right => by
    rw [Node.postOrder_eq]
    simp [expr, Node.children, observer_expr left, observer_expr right]
  | .conditional c b o => by
    rw [Node.postOrder_eq]
    simp [expr, Node.children, observer_expr c, observer_stmts b, observer_alternativeBlock o,
      Node.postOrder_eq (.block b)]
  | .function ps b => by
    rw [Node.postOrder_eq]
    simp [expr, Node.children, observer_names, observer_stmts b, Node.postOrder_eq (.block b)]
  | .call callee args => by
    rw [Node.postOrder_eq]
    simp [expr, Node.children, observer_expr callee, observer_exprs args]
  | .index left index => by
    rw [Node.postOrder_eq]
    simp [expr, Node.children, observer_expr left, observer_expr index]

theorem observer_exprs : ∀ es : List Expr,
    (observer ε σ).exprs es =
      noting ((es.map Node.expression).flatMap Node.postOrder) (pure es)
  | [] => by simp [exprs]
  | e :: es => by simp [exprs, observer_expr e, observer_exprs es]

theorem observer_exprPairs : ∀ ps : List (Expr × Expr),
    (observer ε σ).exprPairs ps =
      noting ((ps.flatMap fun p => [.expression p.1, .expression p.2]).flatMap Node.postOrder)
        (pure ps)
  | [] => by simp [exprPairs]
  | (key, value) :: ps => by
    simp [exprPairs, observer_expr key, observer_expr value, observer_exprPairs ps]

theorem observer_stmt : ∀ s : Stmt,
    (observer ε σ).stmt s = noting (Node.statement s).postOrder (pure s)
  | .bind name value => by
    rw [Node.postOrder_eq]
    simp [stmt, Node.children, observer_expr value, postOrder_identifier]
  | .ret value | .expr value => by
    rw [Node.postOrder_eq]
    simp [stmt, Node.children, observer_expr value]

theorem observer_stmts : ∀ ss : List Stmt,
    (observer ε σ).stmts ss =
      noting ((ss.map Node.statement).flatMap Node.postOrder) (pure ss)
  | [] => by simp [stmts]
  | s :: ss => by simp [stmts, observer_stmt s, observer_stmts ss]

theorem observer_alternativeBlock : ∀ o : Option (List Stmt),
    (observer ε σ).alternativeBlock o =
      noting ((o.toList.map Node.block).flatMap Node.postOrder) (pure o)
  | none => by simp [alternativeBlock]
  | some b => by
    simp [alternativeBlock, observer_stmts b, Node.postOrder_eq (.block b), Node.children]

end

theorem observer_program (p : Program) :
    (observer ε σ).program p = noting p.postOrder (pure p) := by
  simp [program, observer_stmts, Program.postOrder, List.flatMap_map]

end

/-! ## Hooks do not see the notes -/

/-- What `y` does to the first part of the state is what `x` does, and so is its outcome. -/
def Shadows (x : EStateM ε σ α) (y : EStateM ε (σ × τ) α) : Prop :=
  ∀ s, withState Prod.fst (y s) = x s.1

theorem Shadows.bind {x : EStateM ε σ α} {y : EStateM ε (σ × τ) α} {f : α → EStateM ε σ β}
    {g : α → EStateM ε (σ × τ) β} (hx : Shadows x y) (hf : ∀ a, Shadows (f a) (g a)) :
    Shadows (x >>= f) (y >>= g) := by
  intro s
  change withState _ (EStateM.bind y g s) = EStateM.bind x f s.1
  unfold EStateM.bind
  rw [← hx s]
  cases y s with
  | ok a s' => exact hf a s'
  | error e s' => rfl

def shadowing (ε σ τ : Type) : Coupling (EStateM ε σ) (EStateM ε (σ × τ)) where
  Holds := Shadows
  pure _ _ := rfl
  bind := Shadows.bind

theorem onFirst_shadows (x : EStateM ε σ α) : Shadows x (onFirst x : EStateM ε (σ × τ) α) := by
  intro s
  unfold onFirst
  cases x s.1 <;> rfl

theorem recording_shadows (w : Rewriter (EStateM ε σ)) (p : Program) :
    Shadows (w.program p) (w.recording.program p) := by
  have hhooks : Related (shadowing ε σ (List Node)) w w.recording :=
    ⟨fun _ _ => onFirst_shadows _ _, fun _ _ => onFirst_shadows _ _,
      fun _ _ => onFirst_shadows _ _, fun _ _ => onFirst_shadows _ _⟩
  exact hhooks.program p

/-! ## Failure -/

/-- `y` does what `x` does as long as fewer than `k` hooks have run, and fails at the next one. -/
def CutAt (k : Nat) (e : ε) (x : EStateM ε (σ × List Node) α)
    (y : EStateM ε ((σ × Nat) × List Node) α) : Prop :=
  ∀ s log, ∃ new, (finalState (x (s, log))).2 = log ++ new ∧ ∀ i, i < k →
    (i + new.length < k →
      y ((s, i), log) = withState (fun t => ((t.1, i + new.length), t.2)) (x (s, log))) ∧
    (k ≤ i + new.length → ∃ t, y ((s, i), log) = .error e (t, log ++ new.take (k - i)))

section

variable {k : Nat} {e : ε}

theorem CutAt.pure (a : α) :
    CutAt k e (pure a : EStateM ε (σ × List Node) α) (pure a) := by
  intro s log
  refine ⟨[], (List.append_nil log).symm, fun i hi => ⟨fun _ => rfl, fun h => ?_⟩⟩
  exact absurd hi (Nat.not_lt.mpr h)

theorem CutAt.bind {x : EStateM ε (σ × List Node) α} {y : EStateM ε ((σ × Nat) × List Node) α}
    {f : α → EStateM ε (σ × List Node) β} {g : α → EStateM ε ((σ × Nat) × List Node) β}
    (hx : CutAt k e x y) (hf : ∀ a, CutAt k e (f a) (g a)) : CutAt k e (x >>= f) (y >>= g) := by
  intro s log
  obtain ⟨new, hlog, hcut⟩ := hx s log
  simp only [Bind.bind, EStateM.bind]
  cases hr : x (s, log) with
  | error e' t =>
    rw [hr] at hlog hcut
    refine ⟨new, hlog, fun i hi => ⟨fun h => ?_, fun h => ?_⟩⟩
    · rw [(hcut i hi).1 h]
      rfl
    · obtain ⟨t', ht'⟩ := (hcut i hi).2 h
      exact ⟨t', by rw [ht']⟩
  | ok a t =>
    rw [hr] at hlog hcut
    obtain ⟨t, log'⟩ := t
    obtain rfl : log' = log ++ new := hlog
    obtain ⟨later, hlog', hcut'⟩ := hf a t (log ++ new)
    refine ⟨new ++ later, by rw [hlog', List.append_assoc], fun i hi => ⟨fun h => ?_, fun h => ?_⟩⟩
    · rw [List.length_append, ← Nat.add_assoc] at h
      have hnew : i + new.length < k := Nat.lt_of_le_of_lt (Nat.le_add_right _ _) h
      rw [(hcut i hi).1 hnew, List.length_append, ← Nat.add_assoc]
      exact (hcut' _ hnew).1 h
    · rw [List.length_append, ← Nat.add_assoc] at h
      by_cases hnew : i + new.length < k
      · -- The first computation ends before the failure, which is in the second one.
        obtain ⟨t', ht'⟩ := (hcut' _ hnew).2 h
        refine ⟨t', ?_⟩
        rw [(hcut i hi).1 hnew, List.take_append, List.take_of_length_le (by omega),
          Nat.sub_sub, ← List.append_assoc]
        exact ht'
      · obtain ⟨t', ht'⟩ := (hcut i hi).2 (Nat.not_lt.mp hnew)
        refine ⟨t', ?_⟩
        rw [ht', List.take_append_of_le_length (by omega)]

def cutting (σ : Type) (k : Nat) (e : ε) :
    Coupling (EStateM ε (σ × List Node)) (EStateM ε ((σ × Nat) × List Node)) where
  Holds := CutAt k e
  pure := CutAt.pure
  bind := CutAt.bind

theorem hook_cutAt (node : Node) (x : EStateM ε σ α) :
    CutAt k e (do note node; onFirst x) (do note node; onFirst (do countTo k e; onFirst x)) := by
  intro s log
  simp only [Bind.bind, EStateM.bind, note, onFirst, countTo]
  refine ⟨[node], ?_, fun i hi => ⟨fun h => ?_, fun h => ?_⟩⟩
  · cases x s <;> rfl
  · rw [List.length_singleton] at h
    rw [if_neg (Nat.ne_of_lt h)]
    dsimp only
    cases x s <;> rfl
  · have hlast : i + 1 = k := Nat.le_antisymm hi h
    refine ⟨(s, k), ?_⟩
    rw [if_pos hlast, hlast, ← hlast, Nat.add_sub_cancel_left]
    rfl

theorem failingAt_cutAt (w : Rewriter (EStateM ε σ)) (p : Program) :
    CutAt k e (w.recording.program p) ((w.failingAt k e).recording.program p) := by
  have hhooks : Related (cutting σ k e) w.recording (w.failingAt k e).recording :=
    ⟨fun _ => hook_cutAt _ _, fun _ => hook_cutAt _ _, fun _ => hook_cutAt _ _,
      fun _ => hook_cutAt _ _⟩
  exact hhooks.program p

theorem visits_failingAt {w : Rewriter (EStateM ε σ)} {p : Program} {s : σ} (hpos : 0 < k)
    (hk : k ≤ (w.visits p s).length) :
    ∃ t, (w.failingAt k e).recording.program p ((s, 0), []) =
      .error e (t, (w.visits p s).take k) := by
  obtain ⟨new, hlog, hcut⟩ := failingAt_cutAt (k := k) (e := e) w p s []
  obtain rfl : w.visits p s = new := hlog
  exact (hcut 0 hpos).2 (Nat.zero_add _ ▸ hk)

end

/-- A rewriter runs its hooks in post-order, and stops at the first one that fails. -/
theorem visits_inPostOrder_failFast {ε σ : Type} (p : Program) (s : σ) :
    (∀ log, (keep : Rewriter (EStateM ε σ)).recording.program p (s, log) =
      .ok p (s, log ++ p.postOrder)) ∧
    ∀ w : Rewriter (EStateM ε σ),
      (∀ log, withState Prod.fst (w.recording.program p (s, log)) = w.program p s) ∧
      ∀ (k : Nat) (e : ε), 0 < k → k ≤ (w.visits p s).length →
        (w.failingAt k e).visits p (s, 0) = (w.visits p s).take k ∧
        ((w.failingAt k e).visits p (s, 0)).length = k ∧
        ∃ t, (w.failingAt k e).program p (s, 0) = .error e t := by
  refine ⟨fun log => ?_, fun w => ⟨fun log => recording_shadows w p (s, log), ?_⟩⟩
  · rw [observer_program]
    rfl
  · intro k e hpos hk
    obtain ⟨t, ht⟩ := visits_failingAt (e := e) hpos hk
    have hvisits : (w.failingAt k e).visits p (s, 0) = (w.visits p s).take k := by
      rw [visits, ht]
      rfl
    refine ⟨hvisits, ?_, t, ?_⟩
    · rw [hvisits, List.length_take_of_le hk]
    · rw [← recording_shadows (w.failingAt k e) p ((s, 0), []), ht]
      rfl

/-- Gives each name the next one of a list, and fails when none is left. -/
def naming : Rewriter (EStateM String (List String)) :=
  { keep with
    identifier := fun _ fresh =>
      match fresh with
      | [] => .error "no name is left" []
      | name :: rest => .ok name rest }

/-- `let f = fn(x) { x }; f(f)` -/
def fiveNames : Program :=
  ⟨[.bind "f" (.function ["x"] [.expr (.identifier "x")]),
    .expr (.call (.identifier "f") [.identifier "f"])]⟩

theorem visits_inPostOrder_failFast_naming :
    naming.visits fiveNames ["a", "b", "c", "d"] =
      [.identifier "f", .identifier "x", .identifier "x", .expression (.identifier "c"),
        .statement (.expr (.identifier "c")), .block [.expr (.identifier "c")],
        .expression (.function ["b"] [.expr (.identifier "c")]),
        .statement (.bind "a" (.function ["b"] [.expr (.identifier "c")])),
        .identifier "f", .expression (.identifier "d"), .identifier "f"] ∧
      (naming.failingAt 4 "stop").visits fiveNames (["a", "b", "c", "d"], 0) =
        [.identifier "f", .identifier "x", .identifier "x", .expression (.identifier "c")] ∧
      ∃ t, (naming.failingAt 4 "stop").program fiveNames (["a", "b", "c", "d"], 0) =
        .error "stop" t := by
  have hlength : 4 ≤ (naming.visits fiveNames ["a", "b", "c", "d"]).length := by decide
  obtain ⟨hvisits, -, herror⟩ :=
    ((visits_inPostOrder_failFast fiveNames ["a", "b", "c", "d"]).2 naming).2 4 "stop" (by decide)
      hlength
  exact ⟨rfl, hvisits, herror⟩

end Monkey.Rewriter
