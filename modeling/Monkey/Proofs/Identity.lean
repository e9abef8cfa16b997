import Monkey.Proofs.Heap
import Monkey.Proofs.Splitting
import Monkey.Value.Equality

/-!
# Identity

All the values that a session ever meets are in one heap, and there `==` tells the objects apart: it
is an equivalence, and what it takes to be the same has the same contents. Making an object gives
one that there was not before. Binding, passing and reading a value give that very value.
-/

namespace Monkey

/-! ## Values of one heap -/

section

variable {heap : Heap} {v u : Value}

theorem Value.In.contents_eq (hv : v.In heap) (hu : u.In heap) {id : Identity} {o o' : Object}
    (ho : v.object? = some (id, o)) (ho' : u.object? = some (id, o')) : o = o' := by
  have hat := Value.All.self hv id o ho
  have hat' := Value.All.self hu id o' ho'
  rw [hat] at hat'
  exact Option.some.inj hat'

theorem Value.In.eq_of_identical (hv : v.In heap) (hu : u.In heap)
    (h : v.identical u = true) : v = u := by
  fun_induction Value.identical v u with
  | case1 a b | case2 a b | case9 a b => simpa using h
  | case3 => rfl
  -- The identities are the same, so it is the same object.
  | case4 | case5 | case6 | case7 | case8 =>
    cases eq_of_beq h
    cases hv.contents_eq hu rfl rfl
    rfl
  | case10 a b ih => rw [ih hv.2 hu.2 h]
  | case11 => simp at h

theorem Value.identical_self : ∀ v : Value, v.identical v = true
  | .integer _ | .boolean _ | .string _ _ | .array _ _ | .hash _ _ | .null | .function _ _ _ _
  | .builtin _ | .quote _ _ => by simp [Value.identical]
  | .returned v => by simp [Value.identical, v.identical_self]

theorem Value.In.identical_iff (hv : v.In heap) (hu : u.In heap) :
    v.identical u = true ↔ v = u := by
  refine ⟨hv.eq_of_identical hu, ?_⟩
  rintro rfl
  exact v.identical_self

mutual

theorem Value.equal_self : ∀ v : Value, v.equal v = true
  | .integer _ | .boolean _ | .string _ _ | .null | .function _ _ _ _ | .builtin _
  | .quote _ _ => by simp [Value.equal]
  | .array _ vs => by simp [Value.equal, Value.equalList_self vs]
  | .hash _ entries => by simp [Value.equal, Value.equalEntries_self entries]
  | .returned v => by simp [Value.equal, v.equal_self]

theorem Value.equalList_self : ∀ vs : List Value, Value.equalList vs vs = true
  | [] => by simp [Value.equalList]
  | v :: vs => by simp [Value.equalList, v.equal_self, Value.equalList_self vs]

theorem Value.equalEntries_self :
    ∀ entries : List (Key × Value), Value.equalEntries entries entries = true
  | [] => by simp [Value.equalEntries]
  | (_, v) :: entries => by
    simp [Value.equalEntries, v.equal_self, Value.equalEntries_self entries]

end

/-- Among these values, `==` is an equivalence, and what it takes to be the same is equal. Objects
with the same identity have the same contents. -/
structure Discerned (S : Value → Prop) : Prop where
  refl : ∀ {v}, S v → v.identical v = true
  symm : ∀ {v u}, S v → S u → v.identical u = true → u.identical v = true
  trans : ∀ {v u w}, S v → S u → S w → v.identical u = true → u.identical w = true →
    v.identical w = true
  equal : ∀ {v u}, S v → S u → v.identical u = true → v.equal u = true
  contents : ∀ {v u id o o'}, S v → S u → v.object? = some (id, o) → u.object? = some (id, o') →
    o = o'

theorem Heap.discerned (heap : Heap) : Discerned (Value.In heap) := by
  refine ⟨fun {v} _ => v.identical_self, fun hv hu h => ?_, fun hv hu hw h h' => ?_,
    fun hv hu h => ?_, fun hv hu => hv.contents_eq hu⟩
  · exact (hu.identical_iff hv).mpr (hv.eq_of_identical hu h).symm
  · exact (hv.identical_iff hw).mpr ((hv.eq_of_identical hu h).trans (hu.eq_of_identical hw h'))
  · rw [hv.eq_of_identical hu h]
    exact Value.equal_self _

theorem Value.object?_of_identical (h : v.identical u = true) :
    v.object?.map (·.1) = u.object?.map (·.1) := by
  fun_cases Value.identical v u <;> simp_all [Value.identical, Value.object?]

theorem Value.In.not_new (hu : u.In heap) (o : Object) :
    (o.toValue heap.objects.length).identical u = false := by
  by_contra htrue
  have hsame := Value.object?_of_identical (Bool.not_eq_false _ ▸ htrue)
  rw [Object.object?_toValue] at hsame
  obtain ⟨⟨id, o'⟩, ho', hid⟩ := Option.map_eq_some_iff.mp hsame.symm
  have hat := Value.All.self hu id o' ho'
  -- The identity of a new object is the number of objects that there are.
  have hlt := (List.getElem?_eq_some_iff.mp hat).1
  exact absurd hid (Nat.ne_of_lt hlt)

end

/-! ## Names -/

namespace Machine

variable (m : Machine) (scope : ScopeId) (name : String) (v : Value)

theorem chain_define (i : ScopeId) : (m.define scope name v).chain i = m.chain i := by
  unfold Machine.chain Machine.define
  rw [Array.getElem?_modify]
  by_cases hi : scope = i
  · simp only [hi, if_true]
    cases m.scopes[i]? <;> rfl
  · simp only [hi, if_false]

theorem local?_define (i : ScopeId) (n : String) (hscope : scope < m.scopes.size) :
    (m.define scope name v).local? i n =
      if i = scope ∧ n = name then some v else m.local? i n := by
  unfold Machine.local? Machine.define
  rw [Array.getElem?_modify]
  by_cases hi : i = scope
  · subst hi
    simp [Array.getElem?_eq_getElem hscope, Bindings.lookup_set]
  · simp [hi, Ne.symm hi]

theorem lookup_define (n : String) (hscope : scope < m.scopes.size) :
    (m.define scope name v).lookup scope n = if n = name then some v else m.lookup scope n := by
  unfold Machine.lookup
  simp only [chain_define, local?_define m scope name v _ n hscope]
  by_cases hn : n = name
  · simp [Machine.chain, Array.getElem?_eq_getElem hscope, hn]
  · simp [hn]

end Machine

theorem Eval.defineAll_eq (scope : ScopeId) (bs : List (String × Value)) :
    ∀ m : Machine, scope < m.scopes.size → ∃ m', Eval.defineAll scope bs m = .ok () m' ∧
      ∀ n, m'.lookup scope n = (bs.reverse.lookup n).or (m.lookup scope n) := by
  induction bs with
  | nil => exact fun m _ => ⟨m, rfl, fun n => by simp⟩
  | cons b bs ih =>
    intro m hscope
    obtain ⟨name, v⟩ := b
    have hsize : scope < (m.define scope name v).scopes.size := by simpa [Machine.define]
    obtain ⟨m', hm', hlookup⟩ := ih (m.define scope name v) hsize
    refine ⟨m', hm', fun n => ?_⟩
    -- The bindings that follow are made later, so they are asked first.
    rw [hlookup, m.lookup_define scope name v n hscope, List.reverse_cons, List.lookup_append,
      Option.or_assoc]
    by_cases hn : n = name
    · simp [hn]
    · simp [hn, List.lookup_cons, beq_false_of_ne hn]

/-! ## Later heaps -/

/-- What is given, and what is bound then, is in a heap with all that there was before. -/
def KeepsTo (made : Heap) : EStateM.Result Stop Machine Value → Prop
  | .ok v m => ∃ made' : Heap, made.Le made' ∧ m.Has made' ∧ v.In made'
  | .error _ m => ∃ made' : Heap, made.Le made' ∧ m.Has made'

section

variable {made : Heap} {m : Machine} (hm : m.Has made)

include hm

theorem Machine.Has.keepsTo (limits : Limits) (calls splices : Nat) (e : Expr) (env : ScopeId) :
    KeepsTo made (e.evalWith .idle limits.calls (levelsAt .idle limits calls splices) env m) := by
  have hfollows := e.evalWith_follows
    (levelsAt_follows Regime.objects m.depth limits calls splices) false made env False.elim trivial
  cases hr : e.evalWith .idle limits.calls (levelsAt .idle limits calls splices) env m with
  | ok v m' =>
    obtain ⟨made', hle, hm', hv⟩ := hfollows.ok hm.at hr
    exact ⟨made', hle, hm'.has, hv.value⟩
  | error stop m' =>
    obtain ⟨made', hle, hm'⟩ := hfollows.error hm.at hr
    exact ⟨made', hle, hm'.has⟩

theorem Machine.Has.of_evalWith {limits : Limits} {calls splices : Nat} {e : Expr} {env : ScopeId}
    {v : Value} {m' : Machine}
    (h : e.evalWith .idle limits.calls (levelsAt .idle limits calls splices) env m = .ok v m') :
    ∃ made' : Heap, made.Le made' ∧ m'.Has made' ∧ v.In made' := by
  have hkeeps := hm.keepsTo limits calls splices e env
  rw [h] at hkeeps
  exact hkeeps

theorem Machine.Has.of_follows {limit : Nat} {α : Type} {Q : Heap → α → Prop} {x : Watch → Eval α}
    (h : ∀ d, Regime.objects.Follows limit made d Q x) {a : α} {m' : Machine}
    (hx : x .idle m = .ok a m') : ∃ made' : Heap, made.Le made' ∧ m'.Has made' ∧ Q made' a := by
  obtain ⟨made', hle, hm', ha⟩ := (h m.depth).ok hm.at hx
  exact ⟨made', hle, hm'.has, ha⟩

end

/-! ## New objects -/

/-- The evaluation, started with the heap `made`, gives a new object: it is identical to nothing
that there was before it. -/
def GivesNew (made : Heap) (o : Object) (r : EStateM.Result Stop Machine Value) : Prop :=
  ∃ (before : Heap) (v : Value) (m : Machine), made.Le before ∧ r = .ok v m ∧
    v.object? = some (before.objects.length, o) ∧ m.Has (before.add o) ∧ v.In (before.add o) ∧
    ∀ u, u.In before → v.identical u = false

theorem GivesNew.earlier {made made' : Heap} {o : Object} {r : EStateM.Result Stop Machine Value}
    (h : GivesNew made' o r) (hle : made.Le made') : GivesNew made o r := by
  obtain ⟨before, v, m, hbefore, hnew⟩ := h
  exact ⟨before, v, m, hle.trans hbefore, hnew⟩

theorem Machine.Has.givesNew {made : Heap} {m : Machine} (hm : m.Has made) {o : Object}
    (hparts : ∀ v ∈ o.parts, v.In made) :
    GivesNew made o ((do return o.toValue (← Eval.newIdentity) : Eval Value) m) := by
  refine ⟨made, o.toValue m.fresh, { m with fresh := m.fresh + 1 }, .refl made, rfl, ?_, ?_, ?_, ?_⟩
  · rw [Object.object?_toValue, hm.objects]
  · refine ⟨fun hsc b hb => (hm.bindings hsc b hb).later (made.le_add o), hm.scopes, ?_⟩
    simp [Heap.add, hm.objects]
  · rw [← hm.objects]
    exact Object.all_toValue (o.agrees_add made) fun v hv => (hparts v hv).later (made.le_add o)
  · intro u hu
    rw [← hm.objects]
    exact hu.not_new o

/-- What makes a new object, on a machine with the heap `made`. -/
structure MakesNew (limit : Nat) (levels : Levels) (env : ScopeId) (made : Heap) (m : Machine) :
    Prop where
  string : ∀ text, GivesNew made (.string text)
    ((Expr.string text).evalWith .idle limit levels env m)
  function : ∀ parameters body, GivesNew made (.function parameters body env)
    ((Expr.function parameters body).evalWith .idle limit levels env m)
  array : ∀ {elements vs m₁}, Expr.evalListWith .idle limit levels elements env m = .ok vs m₁ →
    GivesNew made (.array vs) ((Expr.array elements).evalWith .idle limit levels env m)
  hash : ∀ {pairs entries m₁},
    Expr.evalPairsWith .idle limit levels pairs [] env m = .ok entries m₁ →
    GivesNew made (.hash entries) ((Expr.hash pairs).evalWith .idle limit levels env m)
  quote : ∀ {node node' m₁}, levels.quoted node env m = .ok node' m₁ → GivesNew made (.quote node')
    ((Expr.call (.identifier "quote") [node]).evalWith .idle limit levels env m)
  concatenation : ∀ {left right i s j t m₁ m₂},
    left.evalWith .idle limit levels env m = .ok (.string i s) m₁ →
    right.evalWith .idle limit levels env m₁ = .ok (.string j t) m₂ →
    GivesNew made (.string (s ++ t))
      ((Expr.binary left .plus right).evalWith .idle limit levels env m)
  push : ∀ {i vs v}, (Value.array i vs).In made → v.In made → GivesNew made (.array (vs ++ [v]))
    ((Value.builtin .push).call limit levels [.array i vs, v] m)
  rest : ∀ {i v vs}, (Value.array i (v :: vs)).In made → GivesNew made (.array vs)
    ((Value.builtin .rest).call limit levels [.array i (v :: vs)] m)

section

variable {made : Heap} {m : Machine} (hm : m.Has made) {limits : Limits} {calls splices : Nat}
  {env : ScopeId}

include hm

theorem Machine.Has.makesNew :
    MakesNew limits.calls (levelsAt .idle limits calls splices) env made m where
  string text := by
    rw [Expr.evalWith_string]
    exact hm.givesNew (o := .string text) (by simp [Object.parts])
  function parameters body := by
    rw [Expr.evalWith_function]
    exact hm.givesNew (o := .function parameters body env) (by simp [Object.parts])
  array {elements vs m₁} hvs := by
    obtain ⟨made₁, hle, hm₁, hin⟩ := hm.of_follows (fun d => Expr.evalListWith_follows
      (levelsAt_follows Regime.objects d limits calls splices) elements made env False.elim trivial)
      hvs
    rw [Expr.evalWith_array, Eval.bind_of_ok hvs]
    exact (hm₁.givesNew (o := .array vs) hin).earlier hle
  hash {pairs entries m₁} hentries := by
    obtain ⟨made₁, hle, hm₁, hin⟩ := hm.of_follows (fun d => Expr.evalPairsWith_follows
      (levelsAt_follows Regime.objects d limits calls splices) pairs [] made env False.elim
      (by simp) trivial) hentries
    rw [Expr.evalWith_hash, Eval.bind_of_ok hentries]
    exact (hm₁.givesNew (o := .hash entries) (List.forall_mem_map.mpr hin)).earlier hle
  quote {node node' m₁} hnode := by
    obtain ⟨made₁, hle, hm₁, -⟩ := hm.of_follows (fun d =>
      (levelsAt_follows Regime.objects d limits calls splices).quoted False.elim trivial) hnode
    rw [Expr.evalWith_quote, Eval.bind_of_ok hnode]
    exact (hm₁.givesNew (o := .quote node') (by simp [Object.parts])).earlier hle
  concatenation {left right i s j t m₁ m₂} hleft hright := by
    obtain ⟨made₁, hle₁, hm₁, -⟩ := hm.of_evalWith hleft
    obtain ⟨made₂, hle₂, hm₂, -⟩ := hm₁.of_evalWith hright
    rw [Expr.evalWith_binary, Eval.bind_of_ok hleft, Eval.bind_of_ok hright]
    exact (hm₂.givesNew (o := .string (s ++ t)) (by simp [Object.parts])).earlier (hle₁.trans hle₂)
  push {i vs v} hvs hv := by
    refine hm.givesNew (o := .array (vs ++ [v])) fun u hu => ?_
    rcases List.mem_append.mp hu with hu | hu
    · exact Value.listAll_iff.mp hvs.2 u hu
    · rw [List.mem_singleton.mp hu]
      exact hv
  rest hvs := hm.givesNew (o := .array _) (Value.listAll_iff.mp hvs.2.2)

end

/-! ## The very value -/

/-- What gives back a value that was there. -/
structure PassesOn (limit : Nat) (levels : Levels) (env : ScopeId) (m : Machine) : Prop where
  name : ∀ {n v}, m.lookup env n = some v →
    (Expr.identifier n).evalWith .idle limit levels env m = .ok v m
  binding : env < m.scopes.size → ∀ {n e v m₁}, e.evalWith .idle limit levels env m = .ok v m₁ →
    ∃ m₂, (Stmt.bind n e).evalWith .idle limit levels env m = .ok v m₂ ∧ m₂.lookup env n = some v
  /-- The body is run in a scope where the parameters stand for the arguments. Of two parameters
  with the same name the last one counts. -/
  parameter : ∀ {id ps body scope args}, args.length = ps.length → m.depth < limit →
    ∃ inner m₁, (Value.function id ps body scope).call limit levels args m =
        (do return (← Eval.deeper (levels.body body inner)).unwrapReturn : Eval Value) m₁ ∧
      ∀ n v, (ps.zip args).reverse.lookup n = some v → m₁.lookup inner n = some v
  element : ∀ {left index id vs n v m₁ m₂},
    left.evalWith .idle limit levels env m = .ok (.array id vs) m₁ →
    index.evalWith .idle limit levels env m₁ = .ok (.integer n) m₂ → 0 ≤ n.toInt →
    vs[n.toInt.toNat]? = some v →
    (Expr.index left index).evalWith .idle limit levels env m = .ok v m₂
  entry : ∀ {left index id entries key k v m₁ m₂},
    left.evalWith .idle limit levels env m = .ok (.hash id entries) m₁ →
    index.evalWith .idle limit levels env m₁ = .ok key m₂ → key.key? = some k →
    Entries.find? k entries = some v →
    (Expr.index left index).evalWith .idle limit levels env m = .ok v m₂
  first : ∀ id v vs, (Value.builtin .first).call limit levels [.array id (v :: vs)] m = .ok v m
  last : ∀ id vs v, (Value.builtin .last).call limit levels [.array id (vs ++ [v])] m = .ok v m

theorem Eval.bind_get {α : Type} (f : Machine → Eval α) (m : Machine) : (get >>= f) m = f m m :=
  rfl

theorem Machine.Has.passesOn {made : Heap} {m : Machine} (hm : m.Has made)
    {limits : Limits} {calls splices : Nat} {env : ScopeId} :
    PassesOn limits.calls (levelsAt .idle limits calls splices) env m where
  name {n v} hv := by
    rw [Expr.evalWith_identifier, Eval.resolve, Eval.bind_get, hv]
    rfl
  binding henv {n e v m₁} he := by
    obtain ⟨made₁, hle, hm₁, -⟩ := hm.of_evalWith he
    have henv₁ : env < m₁.scopes.size := by
      have hgrows := hle.scopes
      rw [hm.scopes, hm₁.scopes] at hgrows
      exact Nat.lt_of_lt_of_le henv hgrows
    refine ⟨m₁.define env n v, ?_, ?_⟩
    · rw [Stmt.evalWith_bind, Eval.bind_of_ok he]
      rfl
    · simp [m₁.lookup_define env n v n henv₁]
  parameter {id ps body scope args} hargs hdepth := by
    have hinner : m.scopes.size < (m.enclose scope).2.scopes.size := by simp [Machine.enclose]
    obtain ⟨m₁, hdefined, hlookup⟩ :=
      Eval.defineAll_eq m.scopes.size (ps.zip args) (m.enclose scope).2 hinner
    have henclose : Eval.enclose scope m = .ok m.scopes.size (m.enclose scope).2 := rfl
    refine ⟨m.scopes.size, m₁, ?_, fun n v hv => by simp [hlookup, hv]⟩
    simp only [Value.call, hargs, ne_eq, not_true_eq_false, if_false]
    rw [Eval.bind_get, if_neg (by omega), Eval.bind_of_ok henclose, Eval.bind_of_ok hdefined]
  element {left index id vs n v m₁ m₂} hleft hindex hn hv := by
    rw [Expr.evalWith_index, Eval.bind_of_ok hleft, Eval.bind_of_ok hindex]
    simp only [indexInto, elementAt, if_neg (Int.not_lt.mpr hn), hv]
    rfl
  entry {left index id entries key k v m₁ m₂} hleft hindex hkey hv := by
    rw [Expr.evalWith_index, Eval.bind_of_ok hleft, Eval.bind_of_ok hindex]
    simp only [indexInto, hkey, hv]
    rfl
  first _ _ _ := rfl
  last id vs v := by
    have hlast : (vs ++ [v]).getLast?.getD .null = v := by simp
    simp only [Value.call, Builtin.apply]
    exact congrArg (EStateM.Result.ok · m) hlast

/-! ## Sessions -/

/-- What is evaluated on the machine, in any scope and with any levels left, keeps to the heap. The
objects it makes are new, and what it binds, passes or reads are the very values that there are. -/
structure KeepsIdentity (limits : Limits) (made : Heap) (m : Machine) : Prop where
  has : m.Has made
  keepsTo : ∀ calls splices env e,
    KeepsTo made (Expr.evalWith .idle limits.calls (levelsAt .idle limits calls splices) e env m)
  makesNew : ∀ calls splices env,
    MakesNew limits.calls (levelsAt .idle limits calls splices) env made m
  passesOn : ∀ calls splices env, PassesOn limits.calls (levelsAt .idle limits calls splices) env m

theorem Machine.Has.keepsIdentity {made : Heap} {m : Machine} (hm : m.Has made) (limits : Limits) :
    KeepsIdentity limits made m :=
  ⟨hm, fun calls splices env e => hm.keepsTo limits calls splices e env,
    fun _ _ _ => hm.makesNew, fun _ _ _ => hm.passesOn⟩

/-- One heap has all that a session meets at any time, and evaluation keeps its identities. -/
theorem Session.identities_kept (limits : Limits) (sources : List String) :
    ∃ heap : Heap, Discerned (Value.In heap) ∧
      (Session.new limits).AtAllTimes (fun event m => ∃ made : Heap, made.Le heap ∧
        event.In made ∧ KeepsIdentity limits made m) sources ∧
      KeepsIdentity limits heap ((Session.new limits).evalAll sources).2.machine ∧
      ∀ v, .ok v ∈ ((Session.new limits).evalAll sources).1 → v.In heap := by
  obtain ⟨heap, -, hafter, hanswers, htimes⟩ :=
    Session.evalAll_heap sources (Session.new_has limits)
  refine ⟨heap, heap.discerned, Session.AtAllTimes.mono (fun event m hmeets => ?_) sources htimes,
    hafter.keepsIdentity limits, hanswers⟩
  obtain ⟨made, hmade, hm, hevent⟩ := hmeets
  exact ⟨made, hmade, hevent, hm.keepsIdentity limits⟩

/-- Whether the event is that an object is used. -/
def Event.usesObject : Event → Bool
  | .begins => false
  | .uses _ v => v.object?.isSome

theorem Event.In.usesObject_eq_false {event : Event} {n : Nat} (h : event.In ⟨n, []⟩) :
    event.usesObject = false := by
  cases event with
  | begins => rfl
  | uses use v =>
    have hnone : v.object? = none := by
      rw [Option.eq_none_iff_forall_ne_some]
      rintro ⟨id, o⟩ ho
      cases Value.All.self h id o ho
    rw [usesObject, hnone]
    rfl

/-- The objects of the second input are met, so a heap without objects does not have them. -/
theorem Session.secondInput_isSeen :
    ¬ (Session.new ⟨0, 0⟩).AtAllTimes (fun event _ => event.In ⟨1, []⟩) ["1", "[] == []"] := by
  rintro ⟨-, hsecond, -⟩
  refine not_atAllTimes (fun event _ => event.usesObject) (fun _ _ h => h.usesObject_eq_false)
    ?_ ?_ (hsecond ?_)
  · decide +kernel
  · decide +kernel
  · decide +kernel

end Monkey
