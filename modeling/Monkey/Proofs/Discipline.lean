import Monkey.Proofs.Watching
import Monkey.Proofs.Everywhere

/-!
# What every evaluation respects

A discipline says what values may hold, which scopes may be written and what stays true of the
machine. If the calls and the quotes of an evaluation respect a discipline, so does the evaluation
as a whole, however it ends: that is proved once, for every discipline. An evaluation also comes
back to the call depth that it started at.
-/

namespace Monkey

/-! ## Values -/

/-- What functions and quotes may be made of. -/
structure ValueProperty where
  function : List String → Block → ScopeId → Prop
  quote : Expr → Prop

section

variable (p : ValueProperty)

mutual

/-- The property holds of every function and every quote in the value. -/
def Value.Holds : Value → Prop
  | .array _ elements => Value.ListHolds elements
  | .hash _ entries => Value.EntriesHold entries
  | .returned v => v.Holds
  | .function _ parameters body scope => p.function parameters body scope
  | .quote _ node => p.quote node
  | .integer _ | .boolean _ | .string _ _ | .null | .builtin _ => True

def Value.ListHolds : List Value → Prop
  | [] => True
  | v :: vs => v.Holds ∧ Value.ListHolds vs

def Value.EntriesHold : List (Key × Value) → Prop
  | [] => True
  | (_, v) :: entries => v.Holds ∧ Value.EntriesHold entries

end

/-- The property holds of every value that is bound somewhere. -/
def Machine.Holds (m : Machine) : Prop :=
  ∀ (i : ScopeId) (s : Scope), m.scopes[i]? = some s → ∀ b ∈ s.bindings, b.2.Holds p

end

section

variable {p : ValueProperty}

theorem Value.listHolds_iff {vs : List Value} : Value.ListHolds p vs ↔ ∀ v ∈ vs, v.Holds p := by
  induction vs with
  | nil => simp [Value.ListHolds]
  | cons v vs ih => simp [Value.ListHolds, ih]

theorem Value.entriesHold_iff {entries : List (Key × Value)} :
    Value.EntriesHold p entries ↔ ∀ e ∈ entries, e.2.Holds p := by
  induction entries with
  | nil => simp [Value.EntriesHold]
  | cons e entries ih => simp [Value.EntriesHold, ih]

/-- Values with nothing in them that could be told apart. -/
def Value.IsPlain : Value → Prop
  | .integer _ | .boolean _ | .null | .builtin _ => True
  | .string _ _ | .array _ _ | .hash _ _ | .returned _ | .function _ _ _ _ | .quote _ _ => False

theorem Value.IsPlain.holds {v : Value} (h : v.IsPlain) : v.Holds p := by
  cases v with
  | integer _ | boolean _ | null | builtin _ => trivial
  | _ => cases h

/-- The property of all functions and quotes. -/
def ValueProperty.any : ValueProperty := ⟨fun _ _ _ => True, fun _ => True⟩

mutual

theorem Value.holds_any : ∀ v : Value, v.Holds .any
  | .array _ vs => Value.listHolds_any vs
  | .hash _ entries => Value.entriesHold_any entries
  | .returned v => v.holds_any
  | .function _ _ _ _ | .quote _ _ | .integer _ | .boolean _ | .string _ _ | .null
  | .builtin _ => trivial

theorem Value.listHolds_any : ∀ vs : List Value, Value.ListHolds .any vs
  | [] => trivial
  | v :: vs => ⟨v.holds_any, Value.listHolds_any vs⟩

theorem Value.entriesHold_any : ∀ entries : List (Key × Value), Value.EntriesHold .any entries
  | [] => trivial
  | (_, v) :: entries => ⟨v.holds_any, Value.entriesHold_any entries⟩

end

theorem Value.Holds.unwrapReturn {v : Value} (h : v.Holds p) : v.unwrapReturn.Holds p := by
  unfold Value.unwrapReturn
  split
  · exact h
  · exact h

theorem Entries.holds_insert {k : Key} {v : Value} {entries : List (Key × Value)}
    (hv : v.Holds p) (h : Value.EntriesHold p entries) :
    Value.EntriesHold p (Entries.insert k v entries) := by
  induction entries with
  | nil => exact ⟨hv, trivial⟩
  | cons e entries ih =>
    unfold Entries.insert
    split
    · exact ⟨hv, h.2⟩
    · split
      · exact ⟨hv, h⟩
      · exact ⟨h.1, ih h.2⟩

theorem Entries.mem_of_find? {α : Type} {k : Key} {v : α} {entries : List (Key × α)}
    (h : Entries.find? k entries = some v) : (k, v) ∈ entries := by
  induction entries with
  | nil => cases h
  | cons e entries ih =>
    unfold Entries.find? at h
    split at h
    · rename_i hk
      cases h
      rw [hk]
      exact List.mem_cons_self
    · exact List.mem_cons_of_mem _ (ih h)

theorem Bindings.mem_set {name : String} {v : Value} {bs : List (String × Value)}
    {b : String × Value} (h : b ∈ Bindings.set name v bs) : b = (name, v) ∨ b ∈ bs := by
  induction bs with
  | nil => exact .inl (List.mem_singleton.mp h)
  | cons c bs ih =>
    unfold Bindings.set at h
    split at h
    · rcases List.mem_cons.mp h with rfl | h
      · exact .inl rfl
      · exact .inr (List.mem_cons_of_mem _ h)
    · rcases List.mem_cons.mp h with rfl | h
      · exact .inr List.mem_cons_self
      · exact (ih h).imp_right (List.mem_cons_of_mem _)

theorem Machine.Holds.define {m : Machine} (h : m.Holds p) {v : Value} (hv : v.Holds p)
    (scope : ScopeId) (name : String) : (m.define scope name v).Holds p := by
  intro i s hs b hb
  rw [Machine.define, Array.getElem?_modify] at hs
  split at hs
  · obtain ⟨t, ht, rfl⟩ := Option.map_eq_some_iff.mp hs
    rcases Bindings.mem_set hb with rfl | hb
    · exact hv
    · exact h i t ht b hb
  · exact h i s hs b hb

theorem Machine.Holds.enclose {m : Machine} (h : m.Holds p) (outer : ScopeId) :
    (m.enclose outer).2.Holds p := by
  intro i s hs b hb
  rw [Machine.enclose, Array.getElem?_push] at hs
  split at hs
  · cases hs
    cases hb
  · exact h i s hs b hb

theorem Machine.Holds.lookup {m : Machine} (h : m.Holds p) {scope : ScopeId} {name : String}
    {v : Value} (hv : m.lookup scope name = some v) : v.Holds p := by
  obtain ⟨i, -, hi⟩ := List.exists_of_findSome?_eq_some hv
  unfold Machine.local? at hi
  split at hi
  · rename_i s hs
    obtain ⟨before, after, hb, -⟩ := List.lookup_eq_some_iff.mp hi
    exact h i s hs (name, v) (by rw [hb]; simp)
  · cases hi

end

/-! ## Disciplines -/

structure Discipline where
  /-- What values may hold. -/
  value : ValueProperty
  /-- What stays true of the machine. -/
  store : Machine → Prop
  /-- The scopes that names may be bound in. -/
  scope : ScopeId → Prop
  /-- Why an evaluation may stop. -/
  stop : Stop → Prop
  store_define : ∀ {m s n v}, store m → scope s → store (m.define s n v)
  store_enclose : ∀ {m s}, store m → store (m.enclose s).2
  scope_new : ∀ {m}, store m → scope m.scopes.size
  store_fresh : ∀ {m i}, store m → store { m with fresh := i }
  store_depth : ∀ {m d}, store m → store { m with depth := d }
  stop_error : ∀ e, stop (.error e)

namespace Discipline

variable (D : Discipline)

/-- What holds of the machine at call depth `d`. -/
structure Inv (d : Nat) (m : Machine) : Prop where
  store : D.store m
  values : m.Holds D.value
  depth : m.depth = d

/-- The result of an evaluation at call depth `d`, with `Q` of its value. -/
def Ends {α : Type} (d : Nat) (Q : α → Prop) : EStateM.Result Stop Machine α → Prop
  | .ok a m => D.Inv d m ∧ Q a
  | .error e m => D.Inv d m ∧ D.stop e

/-- Run at call depth `d`, the evaluation respects the discipline and gives values with `Q`. -/
def Ensures {α : Type} (d : Nat) (Q : α → Prop) (x : Eval α) : Prop :=
  ∀ m, D.Inv d m → D.Ends d Q (x m)

end Discipline

section

variable {D : Discipline} {d : Nat} {α β : Type} {P : α → Prop} {Q : β → Prop}

theorem Discipline.Inv.fresh {m : Machine} (h : D.Inv d m) (i : Identity) :
    D.Inv d { m with fresh := i } :=
  ⟨D.store_fresh h.store, h.values, h.depth⟩

theorem Discipline.Inv.atDepth {m : Machine} (h : D.Inv d m) (k : Nat) :
    D.Inv k { m with depth := k } :=
  ⟨D.store_depth h.store, h.values, rfl⟩

/-- The machine after an evaluation, however it ends. -/
def Eval.after {α : Type} (x : Eval α) (m : Machine) : Machine :=
  match x m with
  | .ok _ m' => m'
  | .error _ m' => m'

theorem Discipline.Ensures.after {x : Eval α} (hx : D.Ensures d P x) {m : Machine}
    (hm : D.Inv d m) : D.Inv d (x.after m) := by
  have hxm := hx m hm
  unfold Eval.after
  cases heq : x m with
  | ok a m' =>
    rw [heq] at hxm
    exact hxm.1
  | error e m' =>
    rw [heq] at hxm
    exact hxm.1

namespace Eval

theorem ensures_pure {a : α} (ha : P a) : D.Ensures d P (pure a) :=
  fun _ hm => ⟨hm, ha⟩

theorem ensures_throw {e : Stop} (he : D.stop e) : D.Ensures d P (throw e : Eval α) :=
  fun _ hm => ⟨hm, he⟩

theorem ensures_fail (e : EvalError) : D.Ensures d P (Eval.fail e : Eval α) :=
  ensures_throw (D.stop_error e)

theorem ensures_bind {x : Eval α} {f : α → Eval β} (hx : D.Ensures d P x)
    (hf : ∀ a, P a → D.Ensures d Q (f a)) : D.Ensures d Q (x >>= f) := by
  intro m hm
  have hxm := hx m hm
  change D.Ends d Q (EStateM.bind x f m)
  unfold EStateM.bind
  split
  · rename_i a m' heq
    rw [heq] at hxm
    exact hf a hxm.2 m' hxm.1
  · rename_i e m' heq
    rw [heq] at hxm
    exact hxm

theorem ensures_mono {x : Eval α} {P' : α → Prop} (hx : D.Ensures d P x) (h : ∀ a, P a → P' a) :
    D.Ensures d P' x := by
  intro m hm
  have hxm := hx m hm
  cases heq : x m with
  | ok a m' =>
    rw [heq] at hxm
    exact ⟨hxm.1, h a hxm.2⟩
  | error e m' =>
    rw [heq] at hxm
    exact hxm

theorem ensures_ofExcept {r : Except EvalError α} (h : ∀ a, r = .ok a → P a) :
    D.Ensures d P (Eval.ofExcept r) := by
  cases r with
  | ok a => exact ensures_pure (h a rfl)
  | error e => exact ensures_fail e

theorem ensures_newIdentity : D.Ensures d (fun _ => True) Eval.newIdentity :=
  fun m hm => ⟨hm.fresh (m.fresh + 1), trivial⟩

theorem ensures_new {make : Identity → α} (h : ∀ i, P (make i)) :
    D.Ensures d P (return make (← Eval.newIdentity)) :=
  ensures_bind ensures_newIdentity fun i _ => ensures_pure (h i)

theorem ensures_define {scope : ScopeId} {name : String} {v : Value} (hs : D.scope scope)
    (hv : v.Holds D.value) : D.Ensures d (fun _ => True) (Eval.define scope name v) :=
  fun _ hm => ⟨⟨D.store_define hm.store hs, hm.values.define hv scope name, hm.depth⟩, trivial⟩

theorem ensures_defineAll {scope : ScopeId} {bs : List (String × Value)} (hs : D.scope scope)
    (hbs : ∀ b ∈ bs, b.2.Holds D.value) :
    D.Ensures d (fun _ => True) (Eval.defineAll scope bs) := by
  induction bs with
  | nil => exact ensures_pure trivial
  | cons b bs ih =>
    refine ensures_bind (ensures_define hs (hbs b List.mem_cons_self)) fun _ _ => ?_
    exact ih fun c hc => hbs c (List.mem_cons_of_mem _ hc)

theorem ensures_enclose (outer : ScopeId) : D.Ensures d D.scope (Eval.enclose outer) :=
  fun _ hm => ⟨⟨D.store_enclose hm.store, hm.values.enclose outer, hm.depth⟩,
    D.scope_new hm.store⟩

theorem ensures_get {f : Machine → Eval β} (hf : ∀ m, D.Inv d m → D.Ensures d Q (f m)) :
    D.Ensures d Q (get >>= f) :=
  fun m hm => hf m hm m hm

theorem ensures_resolve (scope : ScopeId) (name : String) :
    D.Ensures d (Value.Holds D.value) (Eval.resolve scope name) := by
  unfold Eval.resolve
  refine ensures_get fun m hm => ?_
  cases hv : m.lookup scope name with
  | some v => exact ensures_pure (hm.values.lookup hv)
  | none =>
    cases Builtin.ofName? name with
    | some b => exact ensures_pure trivial
    | none => exact ensures_fail _

theorem ensures_deeper {x : Eval α} (hx : D.Ensures (d + 1) P x) :
    D.Ensures d P (Eval.deeper x) := by
  intro m hm
  have hdepth := hm.depth
  have hxm := hx { m with depth := m.depth + 1 } (by rw [hdepth]; exact hm.atDepth (d + 1))
  unfold Eval.deeper
  -- The depth is taken back on both ways out.
  have hback : ∀ m', D.Inv (d + 1) m' → D.Inv d { m' with depth := m'.depth - 1 } := by
    intro m' hm'
    rw [hm'.depth]
    exact hm'.atDepth d
  cases heq : x { m with depth := m.depth + 1 } with
  | ok a m' =>
    rw [heq] at hxm
    exact ⟨hback m' hxm.1, hxm.2⟩
  | error e m' =>
    rw [heq] at hxm
    exact ⟨hback m' hxm.1, hxm.2⟩

end Eval

/-! ## Operators and builtins -/

theorem UnaryOp.isPlain_apply {op : UnaryOp} {v w : Value} (h : op.apply v = .ok w) :
    w.IsPlain := by
  unfold UnaryOp.apply at h
  split at h
  · cases h
    trivial
  · split at h <;> cases h
    trivial
  · cases h

theorem isPlain_exactly {a b : Int64} {op : BinaryOp} {r : Option Int64} {w : Value}
    (h : exactly a op b r = .ok w) : w.IsPlain := by
  cases r <;> cases h
  trivial

theorem BinaryOp.isPlain_onIntegers {op : BinaryOp} {a b : Int64} {w : Value}
    (h : op.onIntegers a b = .ok w) : w.IsPlain := by
  cases op with
  | plus | minus | asterisk => exact isPlain_exactly h
  | slash =>
    by_cases hb : b = 0
    · simp [BinaryOp.onIntegers, hb] at h
    · simp only [BinaryOp.onIntegers, if_neg hb] at h
      exact isPlain_exactly h
  | less | greater | equal | notEqual =>
    cases h
    trivial

theorem BinaryOp.isPlain_onValues {op : BinaryOp} {a b w : Value} (h : op.onValues a b = .ok w) :
    w.IsPlain := by
  cases op <;> cases h <;> trivial

theorem BinaryOp.apply_ensures (op : BinaryOp) (a b : Value) :
    D.Ensures d (Value.Holds D.value) (op.apply a b) := by
  unfold BinaryOp.apply
  split
  · exact Eval.ensures_ofExcept fun w hw => (isPlain_onIntegers hw).holds
  · split
    · exact Eval.ensures_new fun _ => trivial
    · exact Eval.ensures_ofExcept fun w hw => (isPlain_onValues hw).holds
  · exact Eval.ensures_ofExcept fun w hw => (isPlain_onValues hw).holds

theorem holds_getD {p : ValueProperty} {o : Option Value} (h : ∀ v ∈ o, v.Holds p) :
    (o.getD .null).Holds p := by
  cases o with
  | none => trivial
  | some v => exact h v rfl

theorem indexInto_cases {v i w : Value} (h : indexInto v i = .ok w) :
    w = .null ∨ (∃ id vs, v = .array id vs ∧ w ∈ vs) ∨
      ∃ id entries k, v = .hash id entries ∧ (k, w) ∈ entries := by
  unfold indexInto at h
  split at h
  · rename_i id vs n
    cases h
    unfold elementAt
    split
    · exact .inl rfl
    · cases hv : vs[n.toInt.toNat]? with
      | none => exact .inl rfl
      | some u => exact .inr (.inl ⟨id, vs, rfl, List.mem_of_getElem? hv⟩)
  · rename_i id entries
    split at h
    · rename_i k _
      cases h
      cases hv : Entries.find? k entries with
      | none => exact .inl rfl
      | some u => exact .inr (.inr ⟨id, entries, k, rfl, Entries.mem_of_find? hv⟩)
    · cases h
  · cases h

theorem holds_indexInto {p : ValueProperty} {v i w : Value} (hv : v.Holds p)
    (h : indexInto v i = .ok w) : w.Holds p := by
  rcases indexInto_cases h with rfl | ⟨id, vs, rfl, hw⟩ | ⟨id, entries, k, rfl, hw⟩
  · trivial
  · exact Value.listHolds_iff.mp hv w hw
  · exact Value.entriesHold_iff.mp hv (k, w) hw

theorem Builtin.isPlain_length {args : List Value} {w : Value} (h : Builtin.length args = .ok w) :
    w.IsPlain := by
  unfold Builtin.length at h
  split at h <;> cases h <;> trivial

theorem Builtin.eq_of_arrayArgument {b : Builtin} {args vs : List Value}
    (h : b.arrayArgument args = .ok vs) : ∃ id, args = [.array id vs] := by
  unfold Builtin.arrayArgument at h
  split at h <;> cases h
  exact ⟨_, rfl⟩

theorem Builtin.holds_arrayArgument {p : ValueProperty} {b : Builtin} {args vs : List Value}
    (hargs : ∀ a ∈ args, a.Holds p) (h : b.arrayArgument args = .ok vs) :
    ∀ v ∈ vs, v.Holds p := by
  obtain ⟨id, rfl⟩ := Builtin.eq_of_arrayArgument h
  exact Value.listHolds_iff.mp (hargs _ List.mem_cons_self)

theorem Builtin.apply_ensures (b : Builtin) (args : List Value)
    (hargs : ∀ a ∈ args, a.Holds D.value) :
    D.Ensures d (Value.Holds D.value) (b.apply args) := by
  have harray : ∀ b : Builtin, D.Ensures d (fun vs => ∀ v ∈ vs, Value.Holds D.value v)
      (Eval.ofExcept (b.arrayArgument args)) :=
    fun b => Eval.ensures_ofExcept fun vs hvs => holds_arrayArgument hargs hvs
  unfold Builtin.apply
  split
  · exact Eval.ensures_ofExcept fun w hw => (isPlain_length hw).holds
  · refine Eval.ensures_bind (harray .first) fun vs hvs => Eval.ensures_pure ?_
    exact holds_getD fun v hv => hvs v (List.mem_of_head? hv)
  · refine Eval.ensures_bind (harray .last) fun vs hvs => Eval.ensures_pure ?_
    exact holds_getD fun v hv => hvs v (List.mem_of_getLast? hv)
  · refine Eval.ensures_bind (harray .rest) fun vs hvs => ?_
    split
    · exact Eval.ensures_pure trivial
    · exact Eval.ensures_new fun _ => Value.listHolds_iff.mpr fun v hv =>
        hvs v (List.mem_cons_of_mem _ hv)
  · rename_i i elements v
    refine Eval.ensures_new fun _ => Value.listHolds_iff.mpr fun w hw => ?_
    rcases List.mem_append.mp hw with hw | hw
    · exact Value.listHolds_iff.mp (hargs (.array i elements) (by simp)) w hw
    · exact hargs w (by simp [List.mem_singleton.mp hw])
  · exact Eval.ensures_fail _
  · exact Eval.ensures_fail _

/-! ## Evaluation -/

/-- Run at call depth `d`, the levels respect the discipline for code with the property `p`: its
functions may be made, calls give values, and quoting gives what may be quoted. -/
structure Discipline.Respects (D : Discipline) (p : NodeProperty) (d limit : Nat)
    (levels : Levels) : Prop where
  function : ∀ ps b env, (Expr.function ps b).Everywhere p → D.scope env →
    D.value.function ps b env
  call : ∀ f args, Value.Holds D.value f → (∀ a ∈ args, Value.Holds D.value a) →
    D.Ensures d (Value.Holds D.value) (f.call limit levels args)
  quoted : ∀ e env, e.Everywhere p → D.scope env →
    D.Ensures d D.value.quote (levels.quoted e env)

variable {p : NodeProperty} {limit : Nat} {levels : Levels}

mutual

theorem Expr.evalWith_ensures (h : D.Respects p d limit levels) : ∀ (e : Expr) (env : ScopeId),
    e.Everywhere p → D.scope env →
      D.Ensures d (Value.Holds D.value) (e.evalWith .idle limit levels env)
  | .identifier name, env, _, _ => by
    rw [Expr.evalWith_identifier]
    exact Eval.ensures_resolve env name
  | .integer _, _, _, _ => by
    rw [Expr.evalWith_integer]
    exact Eval.ensures_pure trivial
  | .boolean _, _, _, _ => by
    rw [Expr.evalWith_boolean]
    exact Eval.ensures_pure trivial
  | .string _, _, _, _ => by
    rw [Expr.evalWith_string]
    exact Eval.ensures_new fun _ => trivial
  | .array es, env, he, henv => by
    rw [Expr.evalWith_array]
    refine Eval.ensures_bind (Expr.evalListWith_ensures h es env he.2 henv) fun vs hvs => ?_
    exact Eval.ensures_new fun _ => Value.listHolds_iff.mpr hvs
  | .hash ps, env, he, henv => by
    rw [Expr.evalWith_hash]
    refine Eval.ensures_bind (Expr.evalPairsWith_ensures h ps [] env he.2 trivial henv)
      fun entries hentries => ?_
    exact Eval.ensures_new fun _ => hentries
  | .unary op right, env, he, henv => by
    rw [Expr.evalWith_unary]
    refine Eval.ensures_bind (right.evalWith_ensures h env he.2 henv) fun v _ => ?_
    exact Eval.ensures_ofExcept fun w hw => (UnaryOp.isPlain_apply hw).holds
  | .binary left op right, env, he, henv => by
    rw [Expr.evalWith_binary]
    refine Eval.ensures_bind (left.evalWith_ensures h env he.2.1 henv) fun a _ => ?_
    refine Eval.ensures_bind (right.evalWith_ensures h env he.2.2 henv) fun b _ => ?_
    exact BinaryOp.apply_ensures op a b
  | .conditional c ss o, env, he, henv => by
    rw [Expr.evalWith_conditional]
    refine Eval.ensures_bind (c.evalWith_ensures h env he.2.1 henv) fun v _ => ?_
    split
    · exact Block.evalWith_ensures h ss .null env he.2.2.1 trivial henv
    · exact Block.evalElseWith_ensures h o env he.2.2.2 henv
  | .function ps ss, env, he, henv => by
    rw [Expr.evalWith_function]
    exact Eval.ensures_new fun _ => h.function ps ss env he henv
  | .call callee args, env, he, henv => by
    rcases Expr.quote_cases callee args with hcallee | ⟨node, rfl, rfl⟩ | ⟨rfl, hargs⟩
    · rw [Expr.evalWith_call _ _ _ hcallee]
      refine Eval.ensures_bind (callee.evalWith_ensures h env he.2.1 henv) fun f hf => ?_
      refine Eval.ensures_bind (Expr.evalListWith_ensures h args env he.2.2 henv) fun vs hvs => ?_
      exact h.call f vs hf hvs
    · rw [Expr.evalWith_quote]
      refine Eval.ensures_bind (h.quoted node env he.2.2.1 henv) fun e hq => ?_
      exact Eval.ensures_new fun _ => hq
    · rw [Expr.evalWith_quote_of_length _ _ _ hargs]
      exact Eval.ensures_fail _
  | .index left index, env, he, henv => by
    rw [Expr.evalWith_index]
    refine Eval.ensures_bind (left.evalWith_ensures h env he.2.1 henv) fun v hv => ?_
    refine Eval.ensures_bind (index.evalWith_ensures h env he.2.2 henv) fun i _ => ?_
    exact Eval.ensures_ofExcept fun w hw => holds_indexInto hv hw

theorem Expr.evalListWith_ensures (h : D.Respects p d limit levels) :
    ∀ (es : List Expr) (env : ScopeId), Expr.ListEverywhere p es → D.scope env →
      D.Ensures d (fun vs => ∀ v ∈ vs, Value.Holds D.value v)
        (Expr.evalListWith .idle limit levels es env)
  | [], _, _, _ => by
    rw [Expr.evalListWith]
    exact Eval.ensures_pure (by simp)
  | e :: es, env, he, henv => by
    rw [Expr.evalListWith]
    refine Eval.ensures_bind (e.evalWith_ensures h env he.1 henv) fun v hv => ?_
    refine Eval.ensures_bind (Expr.evalListWith_ensures h es env he.2 henv) fun vs hvs => ?_
    exact Eval.ensures_pure (List.forall_mem_cons.mpr ⟨hv, hvs⟩)

theorem Expr.evalPairsWith_ensures (h : D.Respects p d limit levels) :
    ∀ (ps : List (Expr × Expr)) (entries : List (Key × Value)) (env : ScopeId),
      Expr.PairsEverywhere p ps → Value.EntriesHold D.value entries → D.scope env →
        D.Ensures d (Value.EntriesHold D.value)
          (Expr.evalPairsWith .idle limit levels ps entries env)
  | [], _, _, _, hentries, _ => by
    rw [Expr.evalPairsWith]
    exact Eval.ensures_pure hentries
  | (key, value) :: ps, entries, env, he, hentries, henv => by
    rw [Expr.evalPairsWith_cons]
    refine Eval.ensures_bind (key.evalWith_ensures h env he.1.1 henv) fun k _ => ?_
    cases k.key? with
    | none => exact Eval.ensures_fail _
    | some k =>
      refine Eval.ensures_bind (value.evalWith_ensures h env he.1.2 henv) fun v hv => ?_
      exact Expr.evalPairsWith_ensures h ps _ env he.2 (Entries.holds_insert hv hentries) henv

theorem Stmt.evalWith_ensures (h : D.Respects p d limit levels) : ∀ (s : Stmt) (env : ScopeId),
    s.Everywhere p → D.scope env →
      D.Ensures d (Value.Holds D.value) (s.evalWith .idle limit levels env)
  | .bind name value, env, hs, henv => by
    rw [Stmt.evalWith_bind]
    refine Eval.ensures_bind (value.evalWith_ensures h env hs.2 henv) fun v hv => ?_
    exact Eval.ensures_bind (Eval.ensures_define henv hv) fun _ _ => Eval.ensures_pure hv
  | .ret value, env, hs, henv => by
    rw [Stmt.evalWith_ret]
    exact Eval.ensures_bind (value.evalWith_ensures h env hs.2 henv) fun v hv =>
      Eval.ensures_pure hv
  | .expr value, env, hs, henv => by
    rw [Stmt.evalWith]
    exact value.evalWith_ensures h env hs.2 henv

theorem Block.evalWith_ensures (h : D.Respects p d limit levels) :
    ∀ (ss : List Stmt) (result : Value) (env : ScopeId), Stmt.ListEverywhere p ss →
      result.Holds D.value → D.scope env →
        D.Ensures d (Value.Holds D.value) (Block.evalWith .idle limit levels ss result env)
  | [], _, _, _, hresult, _ => by
    rw [Block.evalWith_nil]
    exact Eval.ensures_pure hresult
  | s :: ss, _, env, hss, _, henv => by
    rw [Block.evalWith_cons]
    refine Eval.ensures_bind (s.evalWith_ensures h env hss.1 henv) fun v hv => ?_
    split
    · exact Eval.ensures_pure hv
    · exact Block.evalWith_ensures h ss v env hss.2 hv henv

theorem Block.evalElseWith_ensures (h : D.Respects p d limit levels) :
    ∀ (o : Option (List Stmt)) (env : ScopeId), Stmt.ElseEverywhere p o → D.scope env →
      D.Ensures d (Value.Holds D.value) (Block.evalElseWith .idle limit levels o env)
  | none, _, _, _ => by
    rw [Block.evalElseWith]
    exact Eval.ensures_pure trivial
  | some b, env, hb, henv => by
    rw [Block.evalElseWith]
    exact Block.evalWith_ensures h b .null env hb trivial henv

end

/-- Run one call deeper than `d`, which is only done below the limit, bodies of functions respect
the discipline. -/
def Discipline.RespectsBodies (D : Discipline) (d limit : Nat)
    (body : Block → ScopeId → Eval Value) : Prop :=
  d < limit → ∀ ps b scope env, D.value.function ps b scope → D.scope env →
    D.Ensures (d + 1) (Value.Holds D.value) (body b env)

theorem Value.call_ensures (hbody : D.RespectsBodies d limit levels.body)
    (f : Value) (args : List Value) (hf : f.Holds D.value) (hargs : ∀ a ∈ args, a.Holds D.value) :
    D.Ensures d (Value.Holds D.value) (f.call limit levels args) := by
  unfold Value.call
  split
  · rename_i i ps b scope
    split
    · exact Eval.ensures_fail _
    · refine Eval.ensures_get fun m hm => ?_
      split
      · exact Eval.ensures_fail _
      · rename_i hlimit
        rw [hm.depth] at hlimit
        refine Eval.ensures_bind (Eval.ensures_enclose scope) fun inner hinner => ?_
        refine Eval.ensures_bind (Eval.ensures_defineAll hinner fun q hq => ?_) fun _ _ => ?_
        · exact hargs q.2 (List.of_mem_zip hq).2
        · have hrun := hbody (by omega) ps b scope inner hf hinner
          exact Eval.ensures_bind (Eval.ensures_deeper hrun) fun v hv =>
            Eval.ensures_pure hv.unwrapReturn
  · exact Builtin.apply_ensures _ args hargs
  · exact Eval.ensures_fail _

end

end Monkey
