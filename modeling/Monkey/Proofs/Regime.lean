import Monkey.Proofs.Confinement
import Monkey.Proofs.Discipline

/-!
# What holds of everything an evaluation comes across

A regime says what values may be made of, at each stage of a store that only grows. If new scopes
and new objects can be taken up at a later stage, then an evaluation stays within the regime: it
meets no other values, whatever it does and however it ends. A watch that lets these values pass
makes no difference to it.
-/

namespace Monkey

/-! ## Parts of a value -/

section

variable (p : Value → Prop)

mutual

/-- The property holds of the value and of each of its parts. -/
def Value.All : Value → Prop
  | .integer n => p (.integer n)
  | .boolean b => p (.boolean b)
  | .string id text => p (.string id text)
  | .array id elements => p (.array id elements) ∧ Value.ListAll elements
  | .hash id entries => p (.hash id entries) ∧ Value.EntriesAll entries
  | .null => p .null
  | .returned v => p (.returned v) ∧ v.All
  | .function id parameters body scope => p (.function id parameters body scope)
  | .builtin b => p (.builtin b)
  | .quote id node => p (.quote id node)

def Value.ListAll : List Value → Prop
  | [] => True
  | v :: vs => v.All ∧ Value.ListAll vs

def Value.EntriesAll : List (Key × Value) → Prop
  | [] => True
  | (_, v) :: entries => v.All ∧ Value.EntriesAll entries

end

end

section

variable {p q : Value → Prop}

theorem Value.listAll_iff {vs : List Value} : Value.ListAll p vs ↔ ∀ v ∈ vs, v.All p := by
  induction vs with
  | nil => simp [Value.ListAll]
  | cons v vs ih => simp [Value.ListAll, ih]

theorem Value.entriesAll_iff {entries : List (Key × Value)} :
    Value.EntriesAll p entries ↔ ∀ e ∈ entries, e.2.All p := by
  induction entries with
  | nil => simp [Value.EntriesAll]
  | cons e entries ih => simp [Value.EntriesAll, ih]

mutual

theorem Value.all_of_forall (h : ∀ v, p v) : ∀ v : Value, v.All p
  | .integer _ | .boolean _ | .string _ _ | .null | .function _ _ _ _ | .builtin _
  | .quote _ _ => h _
  | .array _ vs => ⟨h _, Value.listAll_of_forall h vs⟩
  | .hash _ entries => ⟨h _, Value.entriesAll_of_forall h entries⟩
  | .returned v => ⟨h _, v.all_of_forall h⟩

theorem Value.listAll_of_forall (h : ∀ v, p v) : ∀ vs : List Value, Value.ListAll p vs
  | [] => trivial
  | v :: vs => ⟨v.all_of_forall h, Value.listAll_of_forall h vs⟩

theorem Value.entriesAll_of_forall (h : ∀ v, p v) :
    ∀ entries : List (Key × Value), Value.EntriesAll p entries
  | [] => trivial
  | (_, v) :: entries => ⟨v.all_of_forall h, Value.entriesAll_of_forall h entries⟩

end

theorem Value.All.self {v : Value} (h : v.All p) : p v := by
  cases v with
  | array _ _ | hash _ _ | returned _ => exact h.1
  | _ => exact h

mutual

theorem Value.All.mono (hpq : ∀ v, p v → q v) : ∀ {v : Value}, v.All p → v.All q
  | .integer _, h | .boolean _, h | .string _ _, h | .null, h | .function _ _ _ _, h
  | .builtin _, h | .quote _ _, h => hpq _ h
  | .array _ _, h => ⟨hpq _ h.1, Value.ListAll.mono hpq h.2⟩
  | .hash _ _, h => ⟨hpq _ h.1, Value.EntriesAll.mono hpq h.2⟩
  | .returned _, h => ⟨hpq _ h.1, Value.All.mono hpq h.2⟩

theorem Value.ListAll.mono (hpq : ∀ v, p v → q v) :
    ∀ {vs : List Value}, Value.ListAll p vs → Value.ListAll q vs
  | [], _ => trivial
  | _ :: _, h => ⟨Value.All.mono hpq h.1, Value.ListAll.mono hpq h.2⟩

theorem Value.EntriesAll.mono (hpq : ∀ v, p v → q v) :
    ∀ {entries : List (Key × Value)}, Value.EntriesAll p entries → Value.EntriesAll q entries
  | [], _ => trivial
  | (_, _) :: _, h => ⟨Value.All.mono hpq h.1, Value.EntriesAll.mono hpq h.2⟩

end

end

/-! ## Objects -/

/-- What an object holds besides its identity. -/
inductive Object where
  | string (text : String)
  | array (elements : List Value)
  | hash (entries : List (Key × Value))
  | function (parameters : List String) (body : Block) (scope : ScopeId)
  | quote (node : Expr)

namespace Object

def toValue (id : Identity) : Object → Value
  | string text => .string id text
  | array elements => .array id elements
  | hash entries => .hash id entries
  | function parameters body scope => .function id parameters body scope
  | quote node => .quote id node

def parts : Object → List Value
  | array elements => elements
  | hash entries => entries.map (·.2)
  | string _ | function _ _ _ | quote _ => []

theorem all_toValue {p : Value → Prop} {o : Object} {id : Identity} (h : p (o.toValue id))
    (hparts : ∀ v ∈ o.parts, v.All p) : (o.toValue id).All p := by
  cases o with
  | array vs => exact ⟨h, Value.listAll_iff.mpr hparts⟩
  | hash entries =>
    exact ⟨h, Value.entriesAll_iff.mpr fun e he => hparts e.2 (List.mem_map_of_mem he)⟩
  | string _ | function _ _ _ | quote _ => exact h

/-- The scope and the code in the object have the properties. -/
def Refers (scope : ScopeId → Prop) (code : Expr → Prop) : Object → Prop
  | string _ | array _ | hash _ => True
  | function parameters body s => scope s ∧ code (.function parameters body)
  | quote node => code node

end Object

/-! ## Scopes after a step -/

namespace Machine

variable {m : Machine} {i : ScopeId} {sc : Scope}

theorem scope_of_define {s : ScopeId} {name : String} {v : Value}
    (h : (m.define s name v).scopes[i]? = some sc) :
    ∃ sc', m.scopes[i]? = some sc' ∧ sc.enclosing = sc'.enclosing ∧
      ∀ b ∈ sc.bindings, b = (name, v) ∨ b ∈ sc'.bindings := by
  rw [Machine.define, Array.getElem?_modify] at h
  split at h
  · obtain ⟨sc', hsc', rfl⟩ := Option.map_eq_some_iff.mp h
    exact ⟨sc', hsc', rfl, fun b hb => Bindings.mem_set hb⟩
  · exact ⟨sc, h, rfl, fun b hb => .inr hb⟩

theorem scope_of_enclose {outer : ScopeId} (h : (m.enclose outer).2.scopes[i]? = some sc) :
    sc = ⟨[], m.chain outer⟩ ∨ i ≠ m.scopes.size ∧ m.scopes[i]? = some sc := by
  rw [Machine.enclose, Array.getElem?_push] at h
  split at h
  · exact .inl (Option.some.inj h).symm
  · exact .inr ⟨‹_›, h⟩

end Machine

/-! ## Regimes -/

structure Regime where
  /-- What is known of the store. -/
  Stage : Type
  later : Stage → Stage → Prop
  /-- What may be a value, or a part of one. -/
  node : Stage → Value → Prop
  /-- The scopes that evaluation can get at. -/
  scope : Stage → ScopeId → Prop
  /-- How many scopes and identities have been given out. -/
  extent : Stage → Nat → Identity → Prop
  /-- Whether a `return` may only be in statement position. -/
  confines : Prop
  later_refl : ∀ w, later w w
  later_trans : ∀ {u v w}, later u v → later v w → later u w
  node_later : ∀ {w w' v}, later w w' → node w v → node w' v
  scope_later : ∀ {w w' s}, later w w' → scope w s → scope w' s
  plain : ∀ {w v}, v.IsPlain → node w v
  returned : ¬ confines → ∀ w v, node w (.returned v)
  function : ∀ {w id ps b s}, node w (.function id ps b s) →
    scope w s ∧ (confines → (Expr.function ps b).Confined false)
  quote : ∀ {w id e}, node w (.quote id e) → confines → e.Confined false
  newScope : ∀ {w n i}, extent w n i →
    ∃ w', later w w' ∧ extent w' (n + 1) i ∧ scope w' n ∧ ∀ s, scope w' s → scope w s ∨ s = n
  newObject : ∀ {w n i} {o : Object}, extent w n i →
    o.Refers (scope w) (fun e => confines → e.Confined false) →
      ∃ w', later w w' ∧ extent w' n (i + 1) ∧ node w' (o.toValue i) ∧
        ∀ s, scope w' s → scope w s

namespace Regime

variable (R : Regime)

def value (w : R.Stage) (v : Value) : Prop := v.All (R.node w)

/-- A `return` may be under way, if it may stand here. -/
def result (here : Bool) (w : R.Stage) (v : Value) : Prop :=
  R.value w v ∨ here = true ∧ ∃ u, v = .returned u ∧ R.value w u

/-- The machine at a stage, at call depth `d`. -/
structure At (w : R.Stage) (d : Nat) (m : Machine) : Prop where
  bindings : ∀ {s sc}, R.scope w s → m.scopes[s]? = some sc → ∀ b ∈ sc.bindings, R.value w b.2
  enclosing : ∀ {s sc}, R.scope w s → m.scopes[s]? = some sc → ∀ j ∈ sc.enclosing, R.scope w j
  extent : R.extent w m.scopes.size m.fresh
  depth : m.depth = d

/-- The evaluation ended at stage `w` and call depth `d`, with `Q` of its value. -/
def EndsAt {α : Type} (w : R.Stage) (d : Nat) (Q : R.Stage → α → Prop) :
    EStateM.Result Stop Machine α → Prop
  | .ok a m => R.At w d m ∧ Q w a
  | .error _ m => R.At w d m

/-- At call depth `d`, the watch lets everything pass that is within the regime up to stage
`last`. -/
def Ignores (last : R.Stage) (watch : Watch) (d : Nat) : Prop :=
  ∀ w m, R.later w last → R.At w d m → watch .begins m = .ok () m ∧
    ∀ use v, R.value w v → watch (.uses use v) m = .ok () m

/-- The same at call depth `d`, and at each depth that calls can reach. -/
structure Passes (last : R.Stage) (watch : Watch) (limit d : Nat) : Prop where
  here : R.Ignores last watch d
  below : ∀ k ≤ limit, R.Ignores last watch k

/-- From stage `w`, at call depth `d`, the evaluation stays within the regime up to some last stage,
and gives values with `Q` there. A watch that lets everything pass up to that stage makes no
difference to it. -/
def Follows {α : Type} (limit : Nat) (w : R.Stage) (d : Nat) (Q : R.Stage → α → Prop)
    (x : Watch → Eval α) : Prop :=
  ∀ m, R.At w d m → ∃ last, R.later w last ∧ R.EndsAt last d Q (x .idle m) ∧
    ∀ watch, R.Passes last watch limit d → x watch m = x .idle m

end Regime

section

variable {R : Regime} {w : R.Stage} {d : Nat}

namespace Regime

theorem value.later {w' : R.Stage} {v : Value} (h : R.value w v) (hw : R.later w w') :
    R.value w' v :=
  Value.All.mono (fun _ => R.node_later hw) h

theorem value_of_isPlain {v : Value} (h : v.IsPlain) : R.value w v := by
  cases v with
  | integer _ | boolean _ | null | builtin _ => exact R.plain h
  | _ => cases h

theorem value.unwrapReturn {v : Value} (h : R.value w v) : R.value w v.unwrapReturn := by
  cases v with
  | returned u => exact h.2
  | _ => exact h

theorem result.value {v : Value} (h : R.result false w v) : R.value w v := by
  rcases h with h | ⟨hfalse, -⟩
  · exact h
  · exact absurd hfalse (by decide)

theorem result.unwrapReturn {here : Bool} {v : Value} (h : R.result here w v) :
    R.value w v.unwrapReturn := by
  rcases h with h | ⟨-, u, rfl, hu⟩
  · exact h.unwrapReturn
  · exact hu

/-! ## The machine at a stage -/

namespace At

variable {m : Machine}

theorem chain (h : R.At w d m) {s : ScopeId} (hs : R.scope w s) : ∀ j ∈ m.chain s, R.scope w j := by
  intro j hj
  unfold Machine.chain at hj
  split at hj
  · rename_i sc hsc
    rcases List.mem_cons.mp hj with rfl | hj
    · exact hs
    · exact h.enclosing hs hsc j hj
  · cases hj

theorem lookup (h : R.At w d m) {s : ScopeId} (hs : R.scope w s) {name : String} {v : Value}
    (hv : m.lookup s name = some v) : R.value w v := by
  obtain ⟨i, hi, hlocal⟩ := List.exists_of_findSome?_eq_some hv
  unfold Machine.local? at hlocal
  split at hlocal
  · rename_i sc hsc
    obtain ⟨before, after, hb, -⟩ := List.lookup_eq_some_iff.mp hlocal
    exact h.bindings (h.chain hs i hi) hsc (name, v) (by simp [hb])
  · cases hlocal

theorem define (h : R.At w d m) (s : ScopeId) (name : String) {v : Value} (hv : R.value w v) :
    R.At w d (m.define s name v) := by
  refine ⟨fun hi hsc b hb => ?_, fun hi hsc j hj => ?_, ?_, h.depth⟩
  · obtain ⟨sc', hsc', -, hbindings⟩ := Machine.scope_of_define hsc
    rcases hbindings b hb with rfl | hb
    · exact hv
    · exact h.bindings hi hsc' b hb
  · obtain ⟨sc', hsc', henclosing, -⟩ := Machine.scope_of_define hsc
    exact h.enclosing hi hsc' j (henclosing ▸ hj)
  · simpa [Machine.define] using h.extent

theorem enclose (h : R.At w d m) {outer : ScopeId} (houter : R.scope w outer) :
    ∃ w', R.later w w' ∧ R.At w' d (m.enclose outer).2 ∧ R.scope w' m.scopes.size := by
  obtain ⟨w', hw, hextent, hnew, hscopes⟩ := R.newScope h.extent
  -- A scope that is in play from now on was so before, or it is the new one.
  refine ⟨w', hw, ⟨fun hs hsc b hb => ?_, fun hs hsc j hj => ?_, ?_, h.depth⟩, hnew⟩
  · rcases Machine.scope_of_enclose hsc with rfl | ⟨hne, hsc⟩
    · cases hb
    · exact (h.bindings ((hscopes _ hs).resolve_right hne) hsc b hb).later hw
  · rcases Machine.scope_of_enclose hsc with rfl | ⟨hne, hsc⟩
    · exact R.scope_later hw (h.chain houter j hj)
    · exact R.scope_later hw (h.enclosing ((hscopes _ hs).resolve_right hne) hsc j hj)
  · simpa [Machine.enclose] using hextent

theorem make (h : R.At w d m) {o : Object}
    (ho : o.Refers (R.scope w) (fun e => R.confines → e.Confined false)) :
    ∃ w', R.later w w' ∧ R.At w' d { m with fresh := m.fresh + 1 } ∧
      R.node w' (o.toValue m.fresh) := by
  obtain ⟨w', hw, hextent, hnode, hscopes⟩ := R.newObject h.extent ho
  refine ⟨w', hw, ⟨fun hs hsc b hb => ?_, fun hs hsc j hj => ?_, hextent, h.depth⟩, hnode⟩
  · exact (h.bindings (hscopes _ hs) hsc b hb).later hw
  · exact R.scope_later hw (h.enclosing (hscopes _ hs) hsc j hj)

theorem atDepth (h : R.At w d m) (k : Nat) : R.At w k { m with depth := k } :=
  ⟨h.bindings, h.enclosing, h.extent, rfl⟩

end At

theorem EndsAt.mono {α : Type} {P Q : R.Stage → α → Prop} {r : EStateM.Result Stop Machine α}
    (h : R.EndsAt w d P r) (hPQ : ∀ a, P w a → Q w a) : R.EndsAt w d Q r := by
  cases r with
  | ok a m => exact ⟨h.1, hPQ a h.2⟩
  | error e m => exact h

theorem Ignores.earlier {last : R.Stage} {watch : Watch} (h : R.Ignores last watch d)
    (hw : R.later w last) : R.Ignores w watch d :=
  fun u m hu hm => h u m (R.later_trans hu hw) hm

theorem Passes.earlier {last : R.Stage} {watch : Watch} {limit : Nat}
    (h : R.Passes last watch limit d) (hw : R.later w last) : R.Passes w watch limit d :=
  ⟨h.here.earlier hw, fun k hk => (h.below k hk).earlier hw⟩

end Regime

variable {limit : Nat} {α β : Type} {P : R.Stage → α → Prop} {Q : R.Stage → β → Prop}

/-! ## What follows -/

namespace Regime.Follows

variable {x : Watch → Eval α} {m : Machine}

theorem ok (h : R.Follows limit w d P x) (hm : R.At w d m) {a : α} {m' : Machine}
    (hx : x .idle m = .ok a m') : ∃ w', R.later w w' ∧ R.At w' d m' ∧ P w' a := by
  obtain ⟨last, hlast, hends, -⟩ := h m hm
  rw [hx] at hends
  exact ⟨last, hlast, hends⟩

theorem error (h : R.Follows limit w d P x) (hm : R.At w d m) {e : Stop} {m' : Machine}
    (hx : x .idle m = .error e m') : ∃ w', R.later w w' ∧ R.At w' d m' := by
  obtain ⟨last, hlast, hends, -⟩ := h m hm
  rw [hx] at hends
  exact ⟨last, hlast, hends⟩

theorem after (h : R.Follows limit w d P x) (hm : R.At w d m) :
    ∃ w', R.later w w' ∧ R.At w' d ((x .idle).after m) := by
  unfold Eval.after
  cases hx : x .idle m with
  | ok a m' =>
    obtain ⟨w', hw, hm', -⟩ := h.ok hm hx
    exact ⟨w', hw, hm'⟩
  | error e m' => exact h.error hm hx

theorem atAllTimes (h : R.Follows limit w d P x) (hm : R.At w d m) {p : Event → Machine → Prop}
    (hp : ∀ k, k = d ∨ k ≤ limit → ∀ w m', R.At w k m' →
      p .begins m' ∧ ∀ use v, R.value w v → p (.uses use v) m') : AtAllTimes p x m := by
  intro watch hidle
  obtain ⟨last, -, -, hsame⟩ := h m hm
  -- Such a watch does nothing at any depth where the regime holds.
  have hignores : ∀ k, k = d ∨ k ≤ limit → R.Ignores last watch k := by
    intro k hk w m' _ hm'
    obtain ⟨hbegins, huses⟩ := hp k hk w m' hm'
    exact ⟨hidle _ _ hbegins, fun use v hv => hidle _ _ (huses use v hv)⟩
  exact hsame watch ⟨hignores d (.inl rfl), fun k hk => hignores k (.inr hk)⟩

end Regime.Follows

/-! ## Single steps -/

namespace Eval

theorem follows_pure {a : α} (ha : P w a) : R.Follows limit w d P fun _ => pure a :=
  fun _ hm => ⟨w, R.later_refl w, ⟨hm, ha⟩, fun _ _ => rfl⟩

theorem follows_throw (e : Stop) : R.Follows limit w d P fun _ => throw e :=
  fun _ hm => ⟨w, R.later_refl w, hm, fun _ _ => rfl⟩

theorem follows_fail (e : EvalError) : R.Follows limit w d P fun _ => Eval.fail e :=
  follows_throw (.error e)

/-- The last stage of the second part is the last one of both. -/
theorem follows_bind {x : Watch → Eval α} {f : Watch → α → Eval β} (hx : R.Follows limit w d P x)
    (hf : ∀ w' a, R.later w w' → P w' a → R.Follows limit w' d Q fun watch => f watch a) :
    R.Follows limit w d Q fun watch => x watch >>= f watch := by
  intro m hm
  obtain ⟨w₁, hw₁, hends, hsame⟩ := hx m hm
  change ∃ last, R.later w last ∧ R.EndsAt last d Q (EStateM.bind (x .idle) (f .idle) m) ∧
    ∀ watch, R.Passes last watch limit d →
      EStateM.bind (x watch) (f watch) m = EStateM.bind (x .idle) (f .idle) m
  unfold EStateM.bind
  cases hidle : x .idle m with
  | ok a m₁ =>
    rw [hidle] at hends hsame
    obtain ⟨hm₁, ha⟩ := hends
    obtain ⟨w₂, hw₂, hends₂, hsame₂⟩ := hf w₁ a hw₁ ha m₁ hm₁
    refine ⟨w₂, R.later_trans hw₁ hw₂, hends₂, fun watch hwatch => ?_⟩
    rw [hsame watch (hwatch.earlier hw₂)]
    exact hsame₂ watch hwatch
  | error e m₁ =>
    rw [hidle] at hends hsame
    refine ⟨w₁, hw₁, hends, fun watch hwatch => ?_⟩
    rw [hsame watch hwatch]

theorem follows_mono {P' : R.Stage → α → Prop} {x : Watch → Eval α} (hx : R.Follows limit w d P x)
    (h : ∀ w' a, P w' a → P' w' a) : R.Follows limit w d P' x := by
  intro m hm
  obtain ⟨last, hlast, hends, hsame⟩ := hx m hm
  exact ⟨last, hlast, hends.mono (h last), hsame⟩

theorem follows_ofExcept {r : Except EvalError α} (h : ∀ a, r = .ok a → P w a) :
    R.Follows limit w d P fun _ => Eval.ofExcept r := by
  cases r with
  | ok a => exact follows_pure (h a rfl)
  | error e => exact follows_fail e

theorem follows_get {f : Watch → Machine → Eval β}
    (h : ∀ m, R.At w d m → R.Follows limit w d Q fun watch => f watch m) :
    R.Follows limit w d Q fun watch => get >>= f watch :=
  fun m hm => h m hm m hm

theorem follows_new {o : Object}
    (ho : o.Refers (R.scope w) (fun e => R.confines → e.Confined false))
    (hparts : ∀ v ∈ o.parts, R.value w v) :
    R.Follows limit w d R.value fun _ => return o.toValue (← Eval.newIdentity) := by
  intro m hm
  obtain ⟨w', hw, hm', hnode⟩ := hm.make ho
  have hvalue : R.value w' (o.toValue m.fresh) :=
    Object.all_toValue hnode fun v hv => (hparts v hv).later hw
  exact ⟨w', hw, ⟨hm', hvalue⟩, fun _ _ => rfl⟩

theorem follows_define (scope : ScopeId) (name : String) {v : Value} (hv : R.value w v) :
    R.Follows limit w d (fun _ _ => True) fun _ => Eval.define scope name v :=
  fun _ hm => ⟨w, R.later_refl w, ⟨hm.define scope name hv, trivial⟩, fun _ _ => rfl⟩

theorem follows_defineAll (scope : ScopeId) {bs : List (String × Value)}
    (hbs : ∀ b ∈ bs, R.value w b.2) :
    R.Follows limit w d (fun _ _ => True) fun _ => Eval.defineAll scope bs := by
  induction bs generalizing w with
  | nil => exact follows_pure trivial
  | cons b bs ih =>
    obtain ⟨hb, hbs⟩ := List.forall_mem_cons.mp hbs
    refine follows_bind (follows_define scope b.1 hb) fun w' _ hw _ => ?_
    exact ih fun c hc => (hbs c hc).later hw

theorem follows_enclose {outer : ScopeId} (houter : R.scope w outer) :
    R.Follows limit w d R.scope fun _ => Eval.enclose outer := by
  intro m hm
  obtain ⟨w', hw, hm', hnew⟩ := hm.enclose houter
  exact ⟨w', hw, ⟨hm', hnew⟩, fun _ _ => rfl⟩

theorem follows_resolve {scope : ScopeId} (hs : R.scope w scope) (name : String) :
    R.Follows limit w d R.value fun _ => Eval.resolve scope name := by
  unfold Eval.resolve
  refine follows_get fun m hm => ?_
  cases hv : m.lookup scope name with
  | some v => exact follows_pure (hm.lookup hs hv)
  | none =>
    cases Builtin.ofName? name with
    | some b => exact follows_pure (R.plain trivial)
    | none => exact follows_fail _

/-- Below the limit, what passes here passes one call deeper. -/
theorem follows_deeper (hd : d < limit) {x : Watch → Eval α}
    (hx : R.Follows limit w (d + 1) P x) :
    R.Follows limit w d P fun watch => Eval.deeper (x watch) := by
  intro m hm
  have hdeep : R.At w (d + 1) { m with depth := m.depth + 1 } := by
    rw [hm.depth]
    exact hm.atDepth (d + 1)
  have hback : ∀ w' m', R.At w' (d + 1) m' → R.At w' d { m' with depth := m'.depth - 1 } := by
    intro w' m' hm'
    rw [hm'.depth]
    exact hm'.atDepth d
  obtain ⟨last, hlast, hends, hsame⟩ := hx _ hdeep
  refine ⟨last, hlast, ?_, fun watch hwatch => ?_⟩
  · change R.EndsAt last d P (Eval.deeper (x .idle) m)
    unfold Eval.deeper
    cases hidle : x .idle { m with depth := m.depth + 1 } with
    | ok a m₁ =>
      rw [hidle] at hends
      exact ⟨hback last m₁ hends.1, hends.2⟩
    | error e m₁ =>
      rw [hidle] at hends
      exact hback last m₁ hends
  · change Eval.deeper (x watch) m = Eval.deeper (x .idle) m
    unfold Eval.deeper
    rw [hsame watch ⟨hwatch.below (d + 1) hd, hwatch.below⟩]

/-! ## Events -/

variable {x : Watch → Eval α}

theorem follows_event {e : Event} (he : ∀ watch m, R.Ignores w watch d → R.At w d m →
    watch e m = .ok () m) (hx : R.Follows limit w d P x) :
    R.Follows limit w d P fun watch => watch e >>= fun _ => x watch := by
  intro m hm
  obtain ⟨last, hlast, hends, hsame⟩ := hx m hm
  refine ⟨last, hlast, hends, fun watch hwatch => ?_⟩
  change EStateM.bind (watch e) (fun _ => x watch) m = x .idle m
  unfold EStateM.bind
  rw [he watch m (hwatch.here.earlier hlast) hm]
  exact hsame watch hwatch

theorem follows_begins (hx : R.Follows limit w d P x) :
    R.Follows limit w d P fun watch => watch .begins >>= fun _ => x watch :=
  follows_event (fun _ m hwatch hm => (hwatch w m (R.later_refl w) hm).1) hx

theorem follows_uses {use : Use} {v : Value} (hv : R.value w v) (hx : R.Follows limit w d P x) :
    R.Follows limit w d P fun watch => watch (.uses use v) >>= fun _ => x watch :=
  follows_event (fun _ m hwatch hm => (hwatch w m (R.later_refl w) hm).2 use v hv) hx

theorem follows_usesAll {use : Use} {vs : List Value} (hvs : ∀ v ∈ vs, R.value w v)
    (hx : R.Follows limit w d P x) :
    R.Follows limit w d P fun watch => watch.usesAll use vs >>= fun _ => x watch := by
  induction vs with
  | nil => exact hx
  | cons v vs ih =>
    obtain ⟨hv, hvs⟩ := List.forall_mem_cons.mp hvs
    simp only [Watch.usesAll, bind_assoc]
    exact follows_uses hv (ih hvs)

end Eval

end

end Monkey
