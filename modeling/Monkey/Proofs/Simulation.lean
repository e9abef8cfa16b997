import Monkey.Proofs.Levels
import Monkey.Proofs.Renaming

/-!
# Two evaluations side by side

A second evaluation simulates a first one if, on a renamed machine, it does the same up to the
renaming, unless the first one is cut off. Evaluations are made of smaller ones in a way that
respects this, so it is enough to look at single steps, at calls and at quotes.
-/

namespace Monkey

/-- Whether the error is about values alone. The others speak of a name or of the limit. -/
def EvalError.isPlain : EvalError → Bool
  | undefinedName _ | callDepthExceeded _ => false
  | _ => true

/-- How a second evaluation has to follow a first one. -/
structure Simulation where
  ρ : Renaming
  /-- Where the first one stops and the second one may do anything. -/
  cutOff : Stop → Prop
  /-- How the two stop together. -/
  stop : Stop → Stop → Prop
  stop_plain : ∀ e : EvalError, e.isPlain → stop (.error e) (.error e)
  stop_undefined : ∀ n, stop (.error (.undefinedName n)) (.error (.undefinedName (ρ.name n)))

namespace Simulation

variable (S : Simulation)

/-- The results of two evaluations at call depth `d`, the second of which is to give `f` of what the
first one gives. -/
inductive Matches {α β : Type} (d : Nat) (f : α → β) :
    EStateM.Result Stop Machine α → EStateM.Result Stop Machine β → Prop
  | ok {a : α} {m m' : Machine} : Machine.Renamed S.ρ d m m' → Matches d f (.ok a m) (.ok (f a) m')
  | stop {e e' : Stop} {m m' : Machine} : S.stop e e' → Machine.Renamed S.ρ d m m' →
    Matches d f (.error e m) (.error e' m')
  | cutOff {e : Stop} {m : Machine} {r : EStateM.Result Stop Machine β} : S.cutOff e →
    Matches d f (.error e m) r

/-- Run at call depth `d`, the second evaluation follows the first one. -/
def Simulates {α β : Type} (d : Nat) (f : α → β) (x : Eval α) (y : Eval β) : Prop :=
  ∀ m m', Machine.Renamed S.ρ d m m' → S.Matches d f (x m) (y m')

end Simulation

section

variable {S : Simulation} {d : Nat} {α β γ δ : Type} {f : α → β} {g : γ → δ}

namespace Eval

theorem simulates_pure (a : α) : S.Simulates d f (pure a) (pure (f a)) :=
  fun _ _ hm => .ok hm

theorem simulates_throw {e e' : Stop} (h : S.stop e e') :
    S.Simulates d f (throw e : Eval α) (throw e' : Eval β) :=
  fun _ _ hm => .stop h hm

theorem simulates_cutOff {e : Stop} (h : S.cutOff e) (y : Eval β) :
    S.Simulates d f (throw e : Eval α) y :=
  fun _ _ _ => .cutOff h

theorem simulates_fail {e : EvalError} (h : e.isPlain) :
    S.Simulates d f (Eval.fail e : Eval α) (Eval.fail e : Eval β) :=
  simulates_throw (S.stop_plain e h)

theorem simulates_bind {x : Eval α} {y : Eval β} {k : α → Eval γ} {l : β → Eval δ}
    (hxy : S.Simulates d f x y) (hkl : ∀ a, S.Simulates d g (k a) (l (f a))) :
    S.Simulates d g (x >>= k) (y >>= l) := by
  intro m m' hm
  have h := hxy m m' hm
  change S.Matches d g (EStateM.bind x k m) (EStateM.bind y l m')
  unfold EStateM.bind
  generalize x m = r at h ⊢
  generalize y m' = r' at h ⊢
  cases h with
  | ok hm => exact hkl _ _ _ hm
  | stop he hm => exact .stop he hm
  | cutOff he => exact .cutOff he

theorem simulates_get {k : Machine → Eval γ} {l : Machine → Eval δ}
    (h : ∀ m m', Machine.Renamed S.ρ d m m' → S.Simulates d g (k m) (l m')) :
    S.Simulates d g (get >>= k) (get >>= l) :=
  fun m m' hm => h m m' hm m m' hm

/-! ## Objects, names and scopes -/

theorem simulates_new {make : Identity → α} {make' : Identity → β}
    (h : ∀ i, make' (S.ρ.identity i) = f (make i)) :
    S.Simulates d f (return make (← Eval.newIdentity)) (return make' (← Eval.newIdentity)) := by
  refine simulates_bind (f := S.ρ.identity) ?_ fun i => ?_
  · intro m m' hm
    have hnew : S.Matches d S.ρ.identity (.ok m.fresh { m with fresh := m.fresh + 1 })
        (.ok (S.ρ.identity m.fresh) { m' with fresh := m'.fresh + 1 }) := .ok hm.useIdentity
    rw [hm.newIdentity] at hnew
    exact hnew
  · rw [h i]
    exact simulates_pure (make i)

theorem simulates_define (scope : ScopeId) (name : String) (v : Value) :
    S.Simulates d id (Eval.define scope name v)
      (Eval.define (S.ρ.scope scope) (S.ρ.name name) (v.rename S.ρ)) :=
  fun _ _ hm => .ok (hm.define scope name v)

theorem simulates_defineAll (scope : ScopeId) (bs : List (String × Value)) :
    S.Simulates d id (Eval.defineAll scope bs)
      (Eval.defineAll (S.ρ.scope scope) (Bindings.rename S.ρ bs)) := by
  induction bs with
  | nil => exact simulates_pure ()
  | cons b bs ih => exact simulates_bind (simulates_define scope b.1 b.2) fun _ => ih

theorem simulates_enclose (outer : ScopeId) :
    S.Simulates d S.ρ.scope (Eval.enclose outer)
      (Eval.enclose (S.ρ.scope outer)) := by
  intro m m' hm
  have hnew : S.Matches d S.ρ.scope (.ok m.scopes.size (m.enclose outer).2)
      (.ok (S.ρ.scope m.scopes.size) (m'.enclose (S.ρ.scope outer)).2) := .ok (hm.enclose outer)
  rw [hm.newScope] at hnew
  exact hnew

theorem simulates_resolve (scope : ScopeId) (name : String) :
    S.Simulates d (Value.rename S.ρ) (Eval.resolve scope name)
      (Eval.resolve (S.ρ.scope scope) (S.ρ.name name)) := by
  unfold Eval.resolve
  refine simulates_get fun m m' hm => ?_
  rw [hm.lookup scope name, Builtin.ofName?_rename]
  cases m.lookup scope name with
  | some v => exact simulates_pure v
  | none =>
    cases Builtin.ofName? name with
    | some b => exact simulates_pure (Value.builtin b)
    | none => exact simulates_throw (S.stop_undefined name)

theorem simulates_deeper {x : Eval α} {y : Eval β} (h : S.Simulates (d + 1) f x y) :
    S.Simulates d f (Eval.deeper x) (Eval.deeper y) := by
  intro m m' hm
  have hdeep := hm.atDepth (d + 1)
  unfold Eval.deeper
  rw [hm.depth.1, hm.depth.2]
  have hxy := h _ _ hdeep
  generalize x { m with depth := d + 1 } = r at hxy ⊢
  generalize y { m' with depth := d + 1 } = r' at hxy ⊢
  cases hxy with
  | ok hm₁ =>
    simp only [hm₁.depth.1, hm₁.depth.2]
    exact .ok (hm₁.atDepth d)
  | stop he hm₁ =>
    simp only [hm₁.depth.1, hm₁.depth.2]
    exact .stop he (hm₁.atDepth d)
  | cutOff he => exact .cutOff he

end Eval

/-! ## Operators and builtins -/

/-- The second result is `f` of the first, or both are the same error about values. -/
inductive Agree (f : α → β) : Except EvalError α → Except EvalError β → Prop
  | ok (a : α) : Agree f (.ok a) (.ok (f a))
  | error {e : EvalError} : e.isPlain → Agree f (.error e) (.error e)

theorem Eval.simulates_ofExcept {r : Except EvalError α} {r' : Except EvalError β}
    (h : Agree f r r') : S.Simulates d f (Eval.ofExcept r) (Eval.ofExcept r') := by
  cases h with
  | ok a => exact simulates_pure a
  | error he => exact simulates_fail he

end

section

variable (ρ : Renaming)

theorem UnaryOp.apply_agree (op : UnaryOp) (v : Value) :
    Agree (Value.rename ρ) (op.apply v) (op.apply (v.rename ρ)) := by
  cases op with
  | bang =>
    have happly : UnaryOp.bang.apply (v.rename ρ) = .ok ((Value.boolean !v.truthy).rename ρ) := by
      simp [UnaryOp.apply, Value.rename]
    rw [happly]
    exact .ok _
  | minus =>
    cases v with
    | integer n =>
      simp only [UnaryOp.apply, Value.rename]
      cases Integer.neg? n with
      | some r => exact .ok (Value.integer r)
      | none => exact .error rfl
    | _ => exact .error rfl

theorem agree_exactly (a : Int64) (op : BinaryOp) (b : Int64) (r : Option Int64) :
    Agree (Value.rename ρ) (exactly a op b r) (exactly a op b r) := by
  cases r with
  | some r => exact .ok (Value.integer r)
  | none => exact .error rfl

theorem BinaryOp.onIntegers_agree (op : BinaryOp) (a b : Int64) :
    Agree (Value.rename ρ) (op.onIntegers a b) (op.onIntegers a b) := by
  cases op with
  | plus | minus | asterisk => exact agree_exactly ρ a _ b _
  | slash =>
    unfold BinaryOp.onIntegers
    simp only
    split
    · exact .error rfl
    · exact agree_exactly ρ a _ b _
  | less | greater | equal | notEqual => exact .ok (Value.boolean _)

theorem BinaryOp.onValues_agree (op : BinaryOp) (a b : Value) :
    Agree (Value.rename ρ) (op.onValues a b) (op.onValues (a.rename ρ) (b.rename ρ)) := by
  cases op with
  | equal | notEqual =>
    simp only [BinaryOp.onValues, Value.identical_rename]
    exact .ok (Value.boolean _)
  | _ =>
    simp only [BinaryOp.onValues, Value.kind_rename]
    exact .error rfl

theorem elementAt_rename (vs : List Value) (i : Int64) :
    elementAt (vs.map (Value.rename ρ)) i = (elementAt vs i).rename ρ := by
  unfold elementAt
  split
  · rfl
  · rw [List.getElem?_map]
    cases vs[i.toInt.toNat]? <;> rfl

theorem indexInto_agree (v i : Value) :
    Agree (Value.rename ρ) (indexInto v i) (indexInto (v.rename ρ) (i.rename ρ)) := by
  cases v with
  | array id vs =>
    cases i with
    | integer n =>
      simp only [indexInto, Value.rename, Value.renameList_eq_map, elementAt_rename]
      exact .ok _
    | _ => exact .error rfl
  | hash id entries =>
    simp only [indexInto, Value.rename, Value.renameEntries_eq_map, Value.key?_rename,
      Value.kind_rename]
    cases i.key? with
    | none => exact .error rfl
    | some k =>
      simp only [Entries.find?_map]
      cases Entries.find? k entries with
      | none => exact .ok Value.null
      | some w => exact .ok w
  | _ =>
    simp only [indexInto, Value.rename, Value.kind_rename]
    exact .error rfl

theorem Builtin.length_many (v w : Value) (vs : List Value) :
    Builtin.length (v :: w :: vs) = .error (.builtinArity .len (vs.length + 2)) := by
  rw [Builtin.length] <;> simp

theorem Builtin.arrayArgument_many (b : Builtin) (v w : Value) (vs : List Value) :
    b.arrayArgument (v :: w :: vs) = .error (.builtinArity b (vs.length + 2)) := by
  rw [Builtin.arrayArgument] <;> simp

theorem Builtin.push_many (u v w : Value) (vs : List Value) :
    Builtin.push.apply (u :: v :: w :: vs) =
      Eval.fail (.builtinArity .push (vs.length + 3)) := by
  rw [Builtin.apply] <;> simp

theorem Builtin.length_agree (args : List Value) :
    Agree (Value.rename ρ) (Builtin.length args) (Builtin.length (args.map (Value.rename ρ))) := by
  match args with
  | [] => exact .error rfl
  | [v] =>
    cases v with
    | string id text => exact .ok (Value.integer _)
    | array id vs =>
      simp only [List.map_cons, List.map_nil, Value.rename, Builtin.length,
        Value.renameList_eq_map, List.length_map]
      exact .ok (Value.integer _)
    | _ => exact .error rfl
  | _ :: _ :: _ =>
    simp only [List.map_cons, Builtin.length_many, List.length_map]
    exact .error rfl

theorem Builtin.arrayArgument_agree (b : Builtin) (args : List Value) :
    Agree (List.map (Value.rename ρ)) (b.arrayArgument args)
      (b.arrayArgument (args.map (Value.rename ρ))) := by
  match args with
  | [] => exact .error rfl
  | [v] =>
    cases v with
    | array id vs =>
      simp only [List.map_cons, List.map_nil, Value.rename, Builtin.arrayArgument,
        Value.renameList_eq_map]
      exact .ok vs
    | _ => exact .error rfl
  | _ :: _ :: _ =>
    simp only [List.map_cons, Builtin.arrayArgument_many, List.length_map]
    exact .error rfl

end

section

variable {S : Simulation} {d : Nat}

theorem Eval.simulates_newArray (vs : List Value) :
    S.Simulates d (Value.rename S.ρ) (Eval.newArray vs)
      (Eval.newArray (vs.map (Value.rename S.ρ))) :=
  simulates_new fun i => by rw [Value.rename, Value.renameList_eq_map]

theorem BinaryOp.apply_simulates (op : BinaryOp) (a b : Value) :
    S.Simulates d (Value.rename S.ρ) (op.apply a b)
      (op.apply (a.rename S.ρ) (b.rename S.ρ)) := by
  have hvalues := Eval.simulates_ofExcept (S := S) (d := d) (op.onValues_agree S.ρ a b)
  cases a with
  | integer m =>
    cases b with
    | integer n => exact Eval.simulates_ofExcept (op.onIntegers_agree S.ρ m n)
    | _ => exact hvalues
  | string i s =>
    cases b with
    | string j t =>
      simp only [BinaryOp.apply, Value.rename]
      split
      · exact Eval.simulates_new fun _ => rfl
      · exact hvalues
    | _ => exact hvalues
  | _ => exact hvalues

theorem Builtin.apply_simulates (b : Builtin) (args : List Value) :
    S.Simulates d (Value.rename S.ρ) (b.apply args)
      (b.apply (args.map (Value.rename S.ρ))) := by
  have harray : ∀ b : Builtin, S.Simulates d (List.map (Value.rename S.ρ))
      (Eval.ofExcept (b.arrayArgument args))
      (Eval.ofExcept (b.arrayArgument (args.map (Value.rename S.ρ)))) :=
    fun b => Eval.simulates_ofExcept (b.arrayArgument_agree S.ρ args)
  cases b with
  | len => exact Eval.simulates_ofExcept (Builtin.length_agree S.ρ args)
  | first =>
    refine Eval.simulates_bind (harray .first) fun vs => ?_
    rw [List.head?_map]
    cases vs.head? with
    | none => exact Eval.simulates_pure Value.null
    | some v => exact Eval.simulates_pure v
  | last =>
    refine Eval.simulates_bind (harray .last) fun vs => ?_
    rw [List.getLast?_map]
    cases vs.getLast? with
    | none => exact Eval.simulates_pure Value.null
    | some v => exact Eval.simulates_pure v
  | rest =>
    refine Eval.simulates_bind (harray .rest) fun vs => ?_
    cases vs with
    | nil => exact Eval.simulates_pure Value.null
    | cons v vs => exact Eval.simulates_newArray vs
  | push =>
    match args with
    | [] => exact Eval.simulates_fail rfl
    | [v] => cases v <;> exact Eval.simulates_fail rfl
    | [v, w] =>
      cases v with
      | array id vs =>
        have hpush := Eval.simulates_newArray (S := S) (d := d) (vs ++ [w])
        rw [List.map_append] at hpush
        simp only [List.map_cons, List.map_nil, Value.rename, Value.renameList_eq_map]
        exact hpush
      | _ => exact Eval.simulates_fail rfl
    | u :: v :: w :: vs =>
      simp only [List.map_cons, Builtin.push_many, List.length_map]
      exact Eval.simulates_fail rfl

/-! ## Evaluation -/

/-- Calls and quotes at the second levels follow those at the first. -/
structure Simulation.Respects (S : Simulation) (d limit limit' : Nat) (levels levels' : Levels) :
    Prop where
  call : ∀ (f : Value) args, S.Simulates d (Value.rename S.ρ) (f.call limit levels args)
    ((f.rename S.ρ).call limit' levels' (args.map (Value.rename S.ρ)))
  quoted : ∀ e env, S.Simulates d (Expr.rename S.ρ.name) (levels.quoted e env)
    (levels'.quoted (e.rename S.ρ.name) (S.ρ.scope env))

variable {limit limit' : Nat} {levels levels' : Levels}

mutual

theorem Expr.evalWith_simulates (h : S.Respects d limit limit' levels levels') :
    ∀ (e : Expr) (env : ScopeId), S.Simulates d (Value.rename S.ρ)
      (e.evalWith .idle limit levels env)
      ((e.rename S.ρ.name).evalWith .idle limit' levels' (S.ρ.scope env))
  | .identifier name, env => by
    rw [Expr.rename_identifier, Expr.evalWith_identifier, Expr.evalWith_identifier]
    exact Eval.simulates_resolve env name
  | .integer n, _ => by
    rw [Expr.rename_integer, Expr.evalWith_integer, Expr.evalWith_integer]
    exact Eval.simulates_pure (Value.integer n)
  | .boolean b, _ => by
    rw [Expr.rename_boolean, Expr.evalWith_boolean, Expr.evalWith_boolean]
    exact Eval.simulates_pure (Value.boolean b)
  | .string text, _ => by
    rw [Expr.rename_string, Expr.evalWith_string, Expr.evalWith_string]
    exact Eval.simulates_new fun _ => rfl
  | .array es, env => by
    rw [Expr.rename_array, Expr.evalWith_array, Expr.evalWith_array]
    exact Eval.simulates_bind (Expr.evalListWith_simulates h es env) Eval.simulates_newArray
  | .hash ps, env => by
    rw [Expr.rename_hash, Expr.evalWith_hash, Expr.evalWith_hash]
    refine Eval.simulates_bind (Expr.evalPairsWith_simulates h ps [] env) fun entries => ?_
    exact Eval.simulates_new fun i => by rw [Value.rename, Value.renameEntries_eq_map]
  | .unary op right, env => by
    rw [Expr.rename_unary, Expr.evalWith_unary, Expr.evalWith_unary]
    refine Eval.simulates_bind (right.evalWith_simulates h env) fun v => ?_
    exact Eval.simulates_ofExcept (op.apply_agree S.ρ v)
  | .binary left op right, env => by
    rw [Expr.rename_binary, Expr.evalWith_binary, Expr.evalWith_binary]
    refine Eval.simulates_bind (left.evalWith_simulates h env) fun a => ?_
    exact Eval.simulates_bind (right.evalWith_simulates h env) fun b => op.apply_simulates a b
  | .conditional c ss o, env => by
    rw [Expr.rename_conditional, Expr.evalWith_conditional, Expr.evalWith_conditional]
    refine Eval.simulates_bind (c.evalWith_simulates h env) fun v => ?_
    rw [Value.truthy_rename]
    split
    · exact Block.evalWith_simulates h ss .null env
    · exact Block.evalElseWith_simulates h o env
  | .function ps b, env => by
    rw [Expr.rename_function, Expr.evalWith_function, Expr.evalWith_function]
    exact Eval.simulates_new fun _ => rfl
  | .call callee args, env => by
    have hname : (callee.rename S.ρ.name).isName "quote" = callee.isName "quote" :=
      callee.isName_rename S.ρ (by decide)
    rw [Expr.rename_call]
    rcases Expr.quote_cases callee args with hcallee | ⟨node, rfl, rfl⟩ | ⟨rfl, hargs⟩
    · rw [Expr.evalWith_call _ _ _ hcallee, Expr.evalWith_call _ _ _ (hname.trans hcallee)]
      refine Eval.simulates_bind (callee.evalWith_simulates h env) fun f => ?_
      exact Eval.simulates_bind (Expr.evalListWith_simulates h args env) fun vs => h.call f vs
    · rw [Expr.eq_of_isName hname, List.map_singleton, Expr.evalWith_quote, Expr.evalWith_quote]
      refine Eval.simulates_bind (h.quoted node env) fun e => ?_
      exact Eval.simulates_new fun _ => rfl
    · rw [Expr.eq_of_isName hname, Expr.evalWith_quote_of_length _ _ _ hargs,
        Expr.evalWith_quote_of_length _ _ _ (by rwa [List.length_map]), List.length_map]
      exact Eval.simulates_fail rfl
  | .index left index, env => by
    rw [Expr.rename_index, Expr.evalWith_index, Expr.evalWith_index]
    refine Eval.simulates_bind (left.evalWith_simulates h env) fun v => ?_
    refine Eval.simulates_bind (index.evalWith_simulates h env) fun i => ?_
    exact Eval.simulates_ofExcept (indexInto_agree S.ρ v i)

theorem Expr.evalListWith_simulates (h : S.Respects d limit limit' levels levels') :
    ∀ (es : List Expr) (env : ScopeId), S.Simulates d (List.map (Value.rename S.ρ))
      (Expr.evalListWith .idle limit levels es env)
      (Expr.evalListWith .idle limit' levels' (es.map (Expr.rename S.ρ.name)) (S.ρ.scope env))
  | [], _ => by
    rw [List.map_nil, Expr.evalListWith, Expr.evalListWith]
    exact Eval.simulates_pure []
  | e :: es, env => by
    rw [List.map_cons, Expr.evalListWith, Expr.evalListWith]
    refine Eval.simulates_bind (e.evalWith_simulates h env) fun v => ?_
    refine Eval.simulates_bind (Expr.evalListWith_simulates h es env) fun vs => ?_
    exact Eval.simulates_pure (v :: vs)

theorem Expr.evalPairsWith_simulates (h : S.Respects d limit limit' levels levels') :
    ∀ (ps : List (Expr × Expr)) (entries : List (Key × Value)) (env : ScopeId),
      S.Simulates d (List.map (Prod.map id (Value.rename S.ρ)))
        (Expr.evalPairsWith .idle limit levels ps entries env)
        (Expr.evalPairsWith .idle limit' levels'
          (ps.map (Prod.map (Expr.rename S.ρ.name) (Expr.rename S.ρ.name)))
          (entries.map (Prod.map id (Value.rename S.ρ))) (S.ρ.scope env))
  | [], entries, _ => by
    rw [List.map_nil, Expr.evalPairsWith, Expr.evalPairsWith]
    exact Eval.simulates_pure entries
  | (key, value) :: ps, entries, env => by
    rw [List.map_cons, Prod.map, Expr.evalPairsWith_cons, Expr.evalPairsWith_cons]
    refine Eval.simulates_bind (key.evalWith_simulates h env) fun k => ?_
    rw [Value.key?_rename, Value.kind_rename]
    cases k.key? with
    | none => exact Eval.simulates_fail rfl
    | some k =>
      refine Eval.simulates_bind (value.evalWith_simulates h env) fun v => ?_
      rw [Entries.insert_map]
      exact Expr.evalPairsWith_simulates h ps _ env

theorem Stmt.evalWith_simulates (h : S.Respects d limit limit' levels levels') :
    ∀ (s : Stmt) (env : ScopeId), S.Simulates d (Value.rename S.ρ)
      (s.evalWith .idle limit levels env)
      ((s.rename S.ρ.name).evalWith .idle limit' levels' (S.ρ.scope env))
  | .bind name value, env => by
    rw [Stmt.rename_bind, Stmt.evalWith_bind, Stmt.evalWith_bind]
    refine Eval.simulates_bind (value.evalWith_simulates h env) fun v => ?_
    exact Eval.simulates_bind (Eval.simulates_define env name v) fun _ => Eval.simulates_pure v
  | .ret value, env => by
    rw [Stmt.rename_ret, Stmt.evalWith_ret, Stmt.evalWith_ret]
    refine Eval.simulates_bind (value.evalWith_simulates h env) fun v => ?_
    exact Eval.simulates_pure (Value.returned v)
  | .expr value, env => by
    rw [Stmt.rename_expr, Stmt.evalWith, Stmt.evalWith]
    exact value.evalWith_simulates h env

theorem Block.evalWith_simulates (h : S.Respects d limit limit' levels levels') :
    ∀ (ss : List Stmt) (result : Value) (env : ScopeId), S.Simulates d (Value.rename S.ρ)
      (Block.evalWith .idle limit levels ss result env)
      (Block.evalWith .idle limit' levels' (Block.rename S.ρ.name ss) (result.rename S.ρ)
        (S.ρ.scope env))
  | [], result, _ => by
    rw [Block.rename_nil, Block.evalWith_nil, Block.evalWith_nil]
    exact Eval.simulates_pure result
  | s :: ss, _, env => by
    rw [Block.rename_cons, Block.evalWith_cons, Block.evalWith_cons]
    refine Eval.simulates_bind (s.evalWith_simulates h env) fun v => ?_
    rw [Value.isReturned_rename]
    split
    · exact Eval.simulates_pure v
    · exact Block.evalWith_simulates h ss v env

theorem Block.evalElseWith_simulates (h : S.Respects d limit limit' levels levels') :
    ∀ (o : Option (List Stmt)) (env : ScopeId), S.Simulates d (Value.rename S.ρ)
      (Block.evalElseWith .idle limit levels o env)
      (Block.evalElseWith .idle limit' levels' (o.map (Block.rename S.ρ.name)) (S.ρ.scope env))
  | none, _ => by
    rw [Option.map_none, Block.evalElseWith, Block.evalElseWith]
    exact Eval.simulates_pure Value.null
  | some b, env => by
    rw [Option.map_some, Block.evalElseWith, Block.evalElseWith]
    exact Block.evalWith_simulates h b .null env

end

end

end Monkey
