import Monkey.Proofs.Conformity
import Monkey.Proofs.ReadBack

/-!
# A `return` stays inside its call

A `return` travels as a mark on a value. If every `return` is in statement position, in the program
and in all code that can be reached from its scope, then a mark is only ever the result of a
statement, a block or a body: no value that an evaluation uses carries one, at any depth.
-/

namespace Monkey

/-! ## What can be reached within a regime -/

section

variable {p : Value → Prop} {m : Machine} {start : Place}

mutual

theorem Machine.Reaches.all (h : ∀ v, m.Reaches start (.value v) → p v) :
    ∀ {v : Value}, m.Reaches start (.value v) → v.All p
  | .integer _, hv | .boolean _, hv | .string _ _, hv | .null, hv | .function _ _ _ _, hv
  | .builtin _, hv | .quote _ _, hv => h _ hv
  | .array _ vs, hv => ⟨h _ hv, Machine.Reaches.listAll h vs fun _ hu => .step hv (.element hu)⟩
  | .hash _ entries, hv =>
    ⟨h _ hv, Machine.Reaches.entriesAll h entries fun _ _ hu => .step hv (.entry hu)⟩
  | .returned _, hv => ⟨h _ hv, Machine.Reaches.all h (.step hv .returned)⟩

theorem Machine.Reaches.listAll (h : ∀ v, m.Reaches start (.value v) → p v) :
    ∀ vs : List Value, (∀ v ∈ vs, m.Reaches start (.value v)) → Value.ListAll p vs
  | [], _ => trivial
  | v :: vs, hvs =>
    ⟨Machine.Reaches.all h (hvs v List.mem_cons_self),
      Machine.Reaches.listAll h vs fun u hu => hvs u (List.mem_cons_of_mem v hu)⟩

theorem Machine.Reaches.entriesAll (h : ∀ v, m.Reaches start (.value v) → p v) :
    ∀ entries : List (Key × Value), (∀ k v, (k, v) ∈ entries → m.Reaches start (.value v)) →
      Value.EntriesAll p entries
  | [], _ => trivial
  | (k, v) :: entries, hentries =>
    ⟨Machine.Reaches.all h (hentries k v List.mem_cons_self),
      Machine.Reaches.entriesAll h entries fun k' u hu =>
        hentries k' u (List.mem_cons_of_mem (k, v) hu)⟩

end

end

namespace Regime

variable {R : Regime} {w : R.Stage} {d : Nat} {m : Machine}

variable (R) in
def place (w : R.Stage) : Place → Prop
  | .scope s => R.scope w s
  | .value v => R.value w v

theorem At.leads (hm : R.At w d m) {a b : Place} (h : m.Leads a b) (ha : R.place w a) :
    R.place w b := by
  cases h with
  | binding hs hb => exact hm.bindings ha hs _ hb
  | enclosing hj => exact hm.chain ha _ hj
  | captured => exact (R.function ha.self).1
  | element hv => exact Value.listAll_iff.mp ha.2 _ hv
  | entry hv => exact Value.entriesAll_iff.mp ha.2 _ hv
  | returned => exact ha.2

theorem At.reaches (hm : R.At w d m) {a b : Place} (h : m.Reaches a b) (ha : R.place w a) :
    R.place w b := by
  induction h with
  | start => exact ha
  | step _ hleads ih => exact hm.leads hleads ih

end Regime

/-! ## Values without marks -/

/-- The value carries no mark, and a `return` in its code is in statement position. -/
def Value.Tidy (v : Value) : Prop :=
  v.isReturned = false ∧ ∀ e, v.syntax? = some e → e.Confined false

/-- Every value that can be reached from the place is tidy. -/
def Machine.Tidy (m : Machine) (place : Place) : Prop :=
  ∀ v, m.Reaches place (.value v) → v.Tidy

/-- Tidy values, whose functions were made in the scopes given. -/
def Value.TidyWithin (scope : ScopeId → Prop) (v : Value) : Prop :=
  v.Tidy ∧ ∀ id ps b s, v = .function id ps b s → scope s

theorem Value.IsPlain.tidyWithin {scope : ScopeId → Prop} {v : Value} (h : v.IsPlain) :
    v.TidyWithin scope := by
  cases v with
  | integer _ | boolean _ | null | builtin _ => exact ⟨⟨rfl, nofun⟩, nofun⟩
  | _ => cases h

theorem Object.tidyWithin_toValue {scope : ScopeId → Prop} {o : Object} {id : Identity}
    (h : o.Refers scope fun e => True → e.Confined false) : (o.toValue id).TidyWithin scope := by
  cases o with
  | string _ | array _ | hash _ => exact ⟨⟨rfl, nofun⟩, nofun⟩
  | function ps b s =>
    refine ⟨⟨rfl, ?_⟩, ?_⟩
    · rintro e ⟨⟩
      exact h.2 trivial
    · rintro _ _ _ _ ⟨⟩
      exact h.1
  | quote e =>
    refine ⟨⟨rfl, ?_⟩, nofun⟩
    rintro e ⟨⟩
    exact h trivial

/-- The scopes that can be reached from `env` on the machine `m`, and all later ones. -/
def Machine.InPlay (m : Machine) (env s : ScopeId) : Prop :=
  m.Reaches (.scope env) (.scope s) ∨ m.scopes.size ≤ s

/-- All values are tidy, in the scopes in play. -/
def Regime.tidy (m : Machine) (env : ScopeId) : Regime where
  Stage := Unit
  later _ _ := True
  node _ v := v.TidyWithin (m.InPlay env)
  scope _ s := m.InPlay env s
  extent _ n _ := m.scopes.size ≤ n
  confines := True
  later_refl _ := trivial
  later_trans _ _ := trivial
  node_later _ h := h
  scope_later _ h := h
  plain h := h.tidyWithin
  returned h := absurd trivial h
  function h := ⟨h.2 _ _ _ _ rfl, fun _ => h.1.2 _ rfl⟩
  quote h _ := h.1.2 _ rfl
  newScope h := ⟨(), trivial, Nat.le_succ_of_le h, .inr h, fun _ hs => .inl hs⟩
  newObject h ho := ⟨(), trivial, h, Object.tidyWithin_toValue ho, fun _ hs => hs⟩

namespace Regime

variable {m : Machine} {env : ScopeId}

theorem at_tidy (h : m.Tidy (.scope env)) : (tidy m env).At () m.depth m := by
  -- A scope in play that the machine has is one that can be reached.
  have hreaches : ∀ {s : ScopeId} {sc : Scope}, m.InPlay env s → m.scopes[s]? = some sc →
      m.Reaches (.scope env) (.scope s) := by
    intro s sc hs hsc
    have hlt := (Array.getElem?_eq_some_iff.mp hsc).1
    exact hs.resolve_right (by omega)
  have hnode : ∀ v, m.Reaches (.scope env) (.value v) → v.TidyWithin (m.InPlay env) := by
    intro v hv
    refine ⟨h v hv, ?_⟩
    rintro id ps b s rfl
    exact .inl (.step hv .captured)
  refine ⟨fun hs hsc b hb => ?_, fun hs hsc j hj => ?_, Nat.le_refl _, rfl⟩
  · exact Machine.Reaches.all hnode (.step (hreaches hs hsc) (.binding hsc hb))
  · refine .inl (.step (hreaches hs hsc) (.enclosing ?_))
    unfold Machine.chain
    rw [hsc]
    exact List.mem_cons_of_mem _ hj

theorem At.tidy {w : (tidy m env).Stage} {d : Nat} {m' : Machine}
    (hm : (Regime.tidy m env).At w d m') {a : Place} (h : (Regime.tidy m env).place w a) :
    m'.Tidy a := by
  intro v hv
  exact (hm.reaches hv h).self.1

end Regime

/-! ## Programs -/

/-- If the event is that a value is used, it is tidy. -/
def Event.Tidy (m : Machine) : Event → Prop
  | .begins => True
  | .uses _ v => m.Tidy (.value v)

/-- Where all `return`s are statements, no value in use is marked, nor is the answer or what is
bound. -/
theorem Program.eval_tidy {p : Program} (hp : p.Confined) {m : Machine} {env : ScopeId}
    (henv : m.Tidy (.scope env)) (limits : Limits) :
    AtAllTimes (fun event m' => event.Tidy m') (fun watch => p.watched watch limits env) m ∧
      (∀ v m', p.eval limits env m = .ok v m' → m'.Tidy (.value v)) ∧
      ((p.eval limits env).after m).Tidy (.scope env) := by
  have hat := Regime.at_tidy henv
  have hplay : (Regime.tidy m env).scope () env := .inl .start
  have hfollows : (Regime.tidy m env).Follows limits.calls () m.depth (Regime.tidy m env).value
      fun watch => p.watched watch limits env := p.watched_follows (fun _ => hp) hplay
  refine ⟨?_, fun v m' hresult => ?_, ?_⟩
  · refine hfollows.atAllTimes hat fun _ _ w m' hm' => ⟨trivial, fun use v hv => ?_⟩
    exact hm'.tidy (a := .value v) hv
  · obtain ⟨w, -, hm', hv⟩ := hfollows.ok hat hresult
    exact hm'.tidy (a := .value v) hv
  · obtain ⟨w, -, hm'⟩ := hfollows.after hat
    exact hm'.tidy (a := .scope env) hplay

/-! ## Marks that get out -/

/-- `if (true) { return 1 }` -/
def early : Expr := .conditional (.boolean true) [.ret (.integer 1)] none

/-- A program for each use, in which the mark of a `return` is put to that use. -/
def misplaced : Use → Program
  | .binding => ⟨[.bind "x" early]⟩
  | .argument => ⟨[.expr (.call (.function ["x"] []) [early])]⟩
  | .callee => ⟨[.expr (.call early [])]⟩
  | .element => ⟨[.expr (.array [early])]⟩
  | .key => ⟨[.expr (.hash [(early, .integer 1)])]⟩
  | .entry => ⟨[.expr (.hash [(.integer 1, early)])]⟩
  | .operand => ⟨[.expr (.unary .bang early)]⟩
  | .condition => ⟨[.expr (.conditional early [] none)]⟩
  | .indexed => ⟨[.expr (.index early (.integer 0))]⟩
  | .index => ⟨[.expr (.index (.array []) early)]⟩
  | .result => ⟨[.ret early]⟩
  | .unquoted => ⟨[.expr (.call (.identifier "quote") [.call (.identifier "unquote") [early]])]⟩

/-- Whether a marked value is put to the use. -/
def Event.isMarked (use : Use) : Event → Bool
  | .begins => false
  | .uses use' v => use' = use && v.isReturned

/-- No use of a value escapes a watch. -/
theorem misplaced_isSeen (use : Use) :
    ¬ AtAllTimes (fun event _ => event.isMarked use = false)
      (fun watch => (misplaced use).watched watch ⟨1, 0⟩ 0) Machine.empty.addScope.2 := by
  refine not_atAllTimes (fun event _ => event.isMarked use) (fun _ _ h => h) ?_ ?_
  · cases use <;> rfl
  · cases use <;> rfl

/-! ## One function -/

/-- A function `f`, bound in the scope it was made in. -/
def oneFunction (parameters : List String) (body : Block) : Machine :=
  ⟨#[⟨[("f", .function 0 parameters body 0)], []⟩], 1, 0⟩

theorem reaches_oneFunction {ps : List String} {b : Block} {place : Place}
    (h : (oneFunction ps b).Reaches (.scope 0) place) :
    place = .scope 0 ∨ place = .value (.function 0 ps b 0) := by
  induction h with
  | start => exact .inl rfl
  | step _ hleads ih =>
    rcases ih with rfl | rfl
    · cases hleads with
      | binding hs hb =>
        cases hs
        rcases List.mem_singleton.mp hb with ⟨rfl, rfl⟩
        exact .inr rfl
      | enclosing hj =>
        rcases List.mem_singleton.mp hj with rfl
        exact .inl rfl
    · cases hleads
      exact .inl rfl

/-- Returns early, out of a conditional. -/
def earlyReturn : Block :=
  [.expr (.conditional (.identifier "x") [.ret (.integer 1)] none), .expr (.integer 2)]

/-- `let y = f(true); [y, f(false)]` -/
def callsTwice : Program :=
  ⟨[.bind "y" (.call (.identifier "f") [.boolean true]),
    .expr (.array [.identifier "y", .call (.identifier "f") [.boolean false]])]⟩

theorem Program.eval_tidy_earlyReturn :
    callsTwice.Confined ∧ (oneFunction ["x"] earlyReturn).Tidy (.scope 0) ∧
      (∃ m, callsTwice.eval ⟨1, 0⟩ 0 (oneFunction ["x"] earlyReturn) =
        .ok (.array 1 [.integer 1, .integer 2]) m ∧
          m.Tidy (.value (.array 1 [.integer 1, .integer 2]))) := by
  have hp : callsTwice.Confined := by
    simp [callsTwice, Program.Confined, Stmt.ListConfined, Stmt.Confined, Expr.Confined,
      Expr.ListConfined]
  have henv : (oneFunction ["x"] earlyReturn).Tidy (.scope 0) := by
    intro v hv
    rcases reaches_oneFunction hv with h | h <;> cases h
    refine ⟨rfl, ?_⟩
    rintro e ⟨⟩
    simp [earlyReturn, Stmt.ListConfined, Stmt.Confined, Stmt.ElseConfined, Expr.Confined]
  obtain ⟨-, hanswer, -⟩ := Program.eval_tidy hp henv ⟨1, 0⟩
  exact ⟨hp, henv, _, rfl, hanswer _ _ rfl⟩

/-- A `return` in an element of an array. -/
def storedReturn : Block := [.expr (.array [early])]

/-- `f()` -/
def callsOnce : Program := ⟨[.expr (.call (.identifier "f") [])]⟩

/-- No mark can be reached and the program has no `return`, but the function puts a mark into an
array. -/
theorem return_stored :
    ((Session.new ⟨1, 0⟩).evalProgram ⟨[.bind "f" (.function [] storedReturn)]⟩).2.machine =
        oneFunction [] storedReturn ∧
      (∀ v, (oneFunction [] storedReturn).Reaches (.scope 0) (.value v) → v.isReturned = false) ∧
      callsOnce.Confined ∧
      ∃ m, callsOnce.eval ⟨1, 0⟩ 0 (oneFunction [] storedReturn) =
        .ok (.array 1 [.returned (.integer 1)]) m := by
  refine ⟨rfl, fun v hv => ?_, ?_, _, rfl⟩
  · rcases reaches_oneFunction hv with h | h <;> cases h
    rfl
  · simp [callsOnce, Program.Confined, Stmt.ListConfined, Stmt.Confined, Expr.Confined,
      Expr.ListConfined]

theorem Event.isMarked_of_tidy {event : Event} {m : Machine} (h : event.Tidy m) (use : Use) :
    event.isMarked use = false := by
  cases event with
  | begins => rfl
  | uses use' v =>
    obtain ⟨hmark, -⟩ := h v .start
    simp [Event.isMarked, hmark]

theorem storedReturn_isSeen :
    ¬ AtAllTimes (fun event m' => event.Tidy m') (fun watch => callsOnce.watched watch ⟨1, 0⟩ 0)
      (oneFunction [] storedReturn) :=
  not_atAllTimes (fun event _ => event.isMarked .element) (fun _ _ h => Event.isMarked_of_tidy h _)
    rfl rfl

end Monkey
