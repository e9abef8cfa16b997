import Mathlib.Data.List.Basic
import Monkey.Proofs.Scopes
import Monkey.Proofs.Transparency

/-!
# How deep an evaluation goes

An evaluation that goes a known number of calls deep has one of two outcomes. It ends with a value
if the limit leaves room for that many calls, and otherwise it meets the limit. Outcomes are put
together: of two evaluations one after the other the deeper one counts, and a call goes one deeper
than its body.
-/

namespace Monkey

/-! ## What a scope shows -/

/-- Seen from the scope, names stand for this. The scopes around it are on the machine. -/
structure Machine.Shows (m : Machine) (scope : ScopeId) (look : String → Option Value) : Prop where
  scope_lt : scope < m.scopes.size
  chain_lt : ∀ i ∈ m.chain scope, i < m.scopes.size
  lookup_eq : ∀ name, m.lookup scope name = look name

section

variable {m m' : Machine} {scope : ScopeId} {look : String → Option Value}

theorem Machine.Linked.shows (h : m.Linked) (hscope : scope < m.scopes.size) :
    m.Shows scope (m.lookup scope) :=
  ⟨hscope, fun i hi => Nat.lt_of_le_of_lt ((h.chain_descends scope).2 i hi) hscope, fun _ => rfl⟩

theorem Machine.shows_addScope (m : Machine) : m.addScope.2.Shows m.scopes.size fun _ => none := by
  have hnew : m.addScope.2.scopes[m.scopes.size]? = some ⟨[], []⟩ := Array.getElem?_push_size
  have hlt := (Array.getElem?_eq_some_iff.mp hnew).1
  have hchain := Machine.chain_of_scope hnew
  refine ⟨hlt, fun i hi => ?_, fun name => ?_⟩
  · rw [hchain, List.mem_singleton] at hi
    rw [hi]
    exact hlt
  · simp [Machine.lookup, hchain, Machine.local?, hnew]

theorem Machine.Extends.scopes_eq (h : m.Extends m') {i : ScopeId} (hi : i < m.scopes.size) :
    m'.scopes[i]? = m.scopes[i]? := by
  have hs := Array.getElem?_eq_getElem hi
  rw [h.scopes hs, hs]

theorem Machine.Extends.chain_eq (h : m.Extends m') (hscope : scope < m.scopes.size) :
    m'.chain scope = m.chain scope := by
  unfold Machine.chain
  rw [h.scopes_eq hscope]

theorem Machine.Extends.le_add_depth (h : m.Extends m') {limit k : Nat}
    (hk : limit ≤ k + m.depth) : limit ≤ k + m'.depth := by
  rw [h.depth]
  exact hk

theorem Machine.Shows.later (h : m.Shows scope look) (hextends : m.Extends m') :
    m'.Shows scope look := by
  have hchain := hextends.chain_eq h.scope_lt
  -- The chain is made of old scopes, so each place that is looked at is as it was.
  have hlookup : ∀ name, m'.lookup scope name = m.lookup scope name := by
    intro name
    unfold Machine.lookup
    rw [hchain, ← List.head?_filterMap, ← List.head?_filterMap]
    congr 1
    refine List.filterMap_congr fun i hi => ?_
    unfold Machine.local?
    rw [hextends.scopes_eq (h.chain_lt i hi)]
  refine ⟨Nat.lt_of_lt_of_le h.scope_lt hextends.size, fun i hi => ?_, fun name => ?_⟩
  · rw [hchain] at hi
    exact Nat.lt_of_lt_of_le (h.chain_lt i hi) hextends.size
  · rw [hlookup, h.lookup_eq]

theorem Machine.Shows.define (h : m.Shows scope look) (name : String) (v : Value) :
    (m.define scope name v).Shows scope fun n => if n = name then some v else look n := by
  have hsize : (m.define scope name v).scopes.size = m.scopes.size := Array.size_modify
  refine ⟨hsize ▸ h.scope_lt, fun i hi => ?_, fun n => ?_⟩
  · rw [Machine.chain_define] at hi
    rw [hsize]
    exact h.chain_lt i hi
  · rw [m.lookup_define scope name v n h.scope_lt, h.lookup_eq]

theorem Machine.Extends.define (h : m.Extends m') (hnew : m.scopes.size ≤ scope) (name : String)
    (v : Value) : m.Extends (m'.define scope name v) := by
  refine ⟨fun {i sc} hsc => ?_, ?_, h.fresh, h.depth⟩
  · have hlt := (Array.getElem?_eq_some_iff.mp hsc).1
    have hne : scope ≠ i := Nat.ne_of_gt (Nat.lt_of_lt_of_le hlt hnew)
    rw [Machine.define, Array.getElem?_modify, if_neg hne]
    exact h.scopes hsc
  · rw [Machine.define, Array.size_modify]
    exact h.size

theorem Machine.extends_fresh (m : Machine) : m.Extends { m with fresh := m.fresh + 1 } :=
  ⟨fun h => h, Nat.le_refl _, Nat.le_succ _, rfl⟩

/-! ## Into a call and out of it -/

/-- The names that are known when these are bound one after another. -/
def Bindings.setAll (bs known : List (String × Value)) : List (String × Value) :=
  bs.foldl (fun known b => Bindings.set b.1 b.2 known) known

theorem Bindings.lookup_setAll (n : String) : ∀ bs known : List (String × Value),
    (Bindings.setAll bs known).lookup n = (bs.reverse.lookup n).or (known.lookup n)
  | [], known => by simp [Bindings.setAll]
  | (name, v) :: bs, known => by
    have hrest := Bindings.lookup_setAll n bs (Bindings.set name v known)
    rw [Bindings.lookup_set] at hrest
    rw [Bindings.setAll, List.foldl_cons, ← Bindings.setAll, hrest, List.reverse_cons,
      List.lookup_append, Option.or_assoc]
    by_cases hn : n = name
    · simp [hn]
    · simp [hn, List.lookup_cons, beq_false_of_ne hn]

/-- The machine at the start of a call: a new scope with the parameters, one call deeper. -/
def Machine.enter (m : Machine) (scope : ScopeId) (bs : List (String × Value)) : Machine :=
  { m with scopes := m.scopes.push ⟨Bindings.setAll bs [], m.chain scope⟩, depth := m.depth + 1 }

/-- The result of a call whose body has this result. -/
def Eval.leave : EStateM.Result Stop Machine Value → EStateM.Result Stop Machine Value
  | .ok v m => .ok v.unwrapReturn { m with depth := m.depth - 1 }
  | .error e m => .error e { m with depth := m.depth - 1 }

theorem Array.modify_push_size {α : Type} (xs : Array α) (x : α) (f : α → α) :
    (xs.push x).modify xs.size f = xs.push (f x) := by
  apply Array.ext_getElem?
  intro i
  rw [Array.getElem?_modify, Array.getElem?_push, Array.getElem?_push]
  by_cases hi : i = xs.size
  · simp [hi]
  · simp [hi, Ne.symm hi]

theorem Eval.defineAll_push (chain : List ScopeId) :
    ∀ (bs known : List (String × Value)) (m : Machine),
    Eval.defineAll m.scopes.size bs { m with scopes := m.scopes.push ⟨known, chain⟩ } =
      .ok () { m with scopes := m.scopes.push ⟨Bindings.setAll bs known, chain⟩ }
  | [], _, _ => rfl
  | (name, v) :: bs, known, m => by
    have hdefine : Eval.define m.scopes.size name v
        { m with scopes := m.scopes.push ⟨known, chain⟩ } =
          .ok () { m with scopes := m.scopes.push ⟨Bindings.set name v known, chain⟩ } := by
      change EStateM.Result.ok _ (Machine.define _ _ _ _) = _
      rw [Machine.define, Array.modify_push_size]
    rw [Eval.defineAll, Eval.bind_of_ok hdefine, Eval.defineAll_push]
    rfl

section

variable {limit : Nat} {levels : Levels} {id : Identity} {ps : List String} {body : Block}
  {args : List Value} (hargs : args.length = ps.length)

include hargs

theorem Value.call_of_room (hroom : m.depth < limit) :
    (Value.function id ps body scope).call limit levels args m =
      Eval.leave (levels.body body m.scopes.size (m.enter scope (ps.zip args))) := by
  have henclose : Eval.enclose scope m =
      .ok m.scopes.size { m with scopes := m.scopes.push ⟨[], m.chain scope⟩ } := rfl
  simp only [Value.call, hargs, ne_eq, not_true_eq_false, if_false]
  rw [Eval.bind_get, if_neg (Nat.not_le.mpr hroom), Eval.bind_of_ok henclose,
    Eval.bind_of_ok (Eval.defineAll_push _ _ _ _)]
  change EStateM.bind (Eval.deeper _) _ _ = _
  unfold EStateM.bind Eval.deeper Eval.leave Machine.enter
  dsimp only
  cases levels.body body m.scopes.size _ <;> rfl

theorem Value.call_of_no_room (hroom : limit ≤ m.depth) :
    (Value.function id ps body scope).call limit levels args m =
      .error (.error (.callDepthExceeded limit)) m := by
  simp only [Value.call, hargs, ne_eq, not_true_eq_false, if_false]
  rw [Eval.bind_get, if_pos hroom]
  rfl

end

theorem Machine.extends_enter (m : Machine) (scope : ScopeId) (bs : List (String × Value)) :
    { m with depth := m.depth + 1 }.Extends (m.enter scope bs) := by
  refine ⟨fun {i sc} hsc => ?_, by simp [Machine.enter], Nat.le_refl _, rfl⟩
  have hlt := (Array.getElem?_eq_some_iff.mp hsc).1
  rw [Machine.enter, Array.getElem?_push, if_neg (Nat.ne_of_lt hlt), hsc]

theorem Machine.Shows.deeper (h : m.Shows scope look) :
    { m with depth := m.depth + 1 }.Shows scope look :=
  ⟨h.scope_lt, h.chain_lt, h.lookup_eq⟩

theorem Machine.Shows.inCall (h : m.Shows scope look) (inner : ScopeId)
    (bs : List (String × Value)) : (m.enter inner bs).Shows scope look :=
  h.deeper.later (m.extends_enter inner bs)

theorem Machine.Shows.enter (h : m.Shows scope look) (bs : List (String × Value)) :
    (m.enter scope bs).Shows m.scopes.size fun name => (bs.reverse.lookup name).or (look name) := by
  have hold := h.inCall scope bs
  have hnew : (m.enter scope bs).scopes[m.scopes.size]? =
      some ⟨Bindings.setAll bs [], m.chain scope⟩ := Array.getElem?_push_size
  have hlocal : ∀ name, (m.enter scope bs).local? m.scopes.size name = bs.reverse.lookup name := by
    intro name
    simp [Machine.local?, hnew, Bindings.lookup_setAll]
  -- The new scope is looked at first, and then the scopes of the function.
  have hchain : (m.enter scope bs).chain m.scopes.size =
      m.scopes.size :: (m.enter scope bs).chain scope := by
    rw [Machine.chain_of_scope hnew, (m.extends_enter scope bs).chain_eq h.scope_lt]
    rfl
  refine ⟨by simp [Machine.enter], ?_, fun name => ?_⟩
  · rw [hchain]
    exact List.forall_mem_cons.mpr ⟨by simp [Machine.enter], hold.chain_lt⟩
  · rw [Machine.lookup, hchain, List.findSome?_cons, hlocal]
    cases bs.reverse.lookup name with
    | some v => rfl
    | none => exact hold.lookup_eq name

end

/-! ## Outcomes -/

/-- What comes out of an evaluation that starts on `m` and goes `calls` calls deep: a value, if the
limit leaves room for that. Otherwise the limit is met. All scopes of `m` stay as they are. -/
inductive Outcome (limit calls : Nat) (m : Machine) {α : Type} (Q : α → Prop) :
    EStateM.Result Stop Machine α → Prop
  | value {v : α} {m' : Machine} : calls ≤ limit - m.depth → m.Extends m' → Q v →
    Outcome limit calls m Q (.ok v m')
  | exceeded {m' : Machine} : limit - m.depth < calls → m.Extends m' →
    Outcome limit calls m Q (.error (.error (.callDepthExceeded limit)) m')

section

variable {limit a b : Nat} {m m₁ : Machine} {α β : Type} {P : α → Prop} {Q : β → Prop}

theorem outcome_ok {v : α} (hextends : m.Extends m₁) (hv : P v) :
    Outcome limit 0 m P (.ok v m₁) :=
  .value (Nat.zero_le _) hextends hv

theorem Outcome.imp {r : EStateM.Result Stop Machine α} (h : Outcome limit a m P r)
    {P' : α → Prop} (hP : ∀ v, P v → P' v) : Outcome limit a m P' r := by
  cases h with
  | value hroom hm' hv => exact .value hroom hm' (hP _ hv)
  | exceeded hroom hm' => exact .exceeded hroom hm'

theorem Outcome.earlier {r : EStateM.Result Stop Machine α} (h : Outcome limit a m₁ P r)
    (hextends : m.Extends m₁) : Outcome limit a m P r := by
  have hdepth := hextends.depth
  cases h with
  | value hroom hm' hv => exact .value (by omega) (hextends.trans hm') hv
  | exceeded hroom hm' => exact .exceeded (by omega) (hextends.trans hm')

theorem Outcome.bind {x : Eval α} {f : α → Eval β} (hx : Outcome limit a m P (x m₁))
    (hf : ∀ v m', m.Extends m' → P v → Outcome limit b m' Q (f v m')) :
    Outcome limit (max a b) m Q ((x >>= f) m₁) := by
  cases hr : x m₁ with
  | ok v m' =>
    rw [hr] at hx
    rw [Eval.bind_of_ok hr]
    cases hx with
    | value hroom hm' hv =>
      -- The first part has come back, so the second one starts at the same depth.
      have hrest := (hf v m' hm' hv).earlier hm'
      generalize f v m' = r at hrest
      cases hrest with
      | value hroom' hm'' hv' => exact .value (by omega) hm'' hv'
      | exceeded hroom' hm'' => exact .exceeded (by omega) hm''
  | error e m' =>
    rw [hr] at hx
    rw [Eval.bind_of_error hr]
    cases hx with
    | exceeded hroom hm' => exact .exceeded (by omega) hm'

theorem Machine.Extends.leave (h : { m with depth := m.depth + 1 }.Extends m₁) :
    m.Extends { m₁ with depth := m₁.depth - 1 } := by
  have hdepth : m₁.depth = m.depth + 1 := h.depth
  exact ⟨fun hsc => h.scopes hsc, h.size, h.fresh, by simp [hdepth]⟩

end

/-- A call goes one deeper than its body. -/
theorem Value.call_outcome {limits : Limits} {calls k splices : Nat} {m : Machine} {id : Identity}
    {ps : List String} {body : Block} {scope : ScopeId} {args : List Value} {Q : Value → Prop}
    (hargs : args.length = ps.length) (hk : limits.calls ≤ k + m.depth)
    (hbody : ∀ k', limits.calls ≤ k' + (m.depth + 1) →
      Outcome limits.calls calls { m with depth := m.depth + 1 } (fun v => Q v.unwrapReturn)
        (Block.evalWith .idle limits.calls (levelsAt .idle limits k' (limits.splices + 1)) body
          .null m.scopes.size (m.enter scope (ps.zip args)))) :
    Outcome limits.calls (calls + 1) m Q ((Value.function id ps body scope).call limits.calls
      (levelsAt .idle limits k splices) args m) := by
  by_cases hroom : m.depth < limits.calls
  · -- There is a level left, as there are enough of them to get to the limit.
    obtain ⟨k', rfl⟩ : ∃ k', k = k' + 1 := ⟨k - 1, by omega⟩
    have hr := hbody k' (by omega)
    rw [Value.call_of_room hargs hroom]
    change Outcome _ _ _ _ (Eval.leave (Block.evalWith .idle limits.calls
      (levelsAt .idle limits k' (limits.splices + 1)) body .null m.scopes.size
        (m.enter scope (ps.zip args))))
    generalize Block.evalWith .idle limits.calls _ body .null m.scopes.size _ = r at hr
    cases hr with
    | value hle hm' hv => exact .value (by dsimp only at hle; omega) hm'.leave hv
    | exceeded hlt hm' => exact .exceeded (by dsimp only at hlt; omega) hm'.leave
  · rw [Value.call_of_no_room hargs (Nat.not_lt.mp hroom)]
    exact .exceeded (by omega) (.refl m)

/-! ## Expressions, step by step -/

section

variable {limit : Nat} {levels : Levels} {env : ScopeId} {m m₁ m₂ : Machine}
  {look : String → Option Value}

theorem Expr.evalWith_name (hm : m.Shows env look) {name : String} {v : Value}
    (hv : look name = some v) :
    (Expr.identifier name).evalWith .idle limit levels env m = .ok v m := by
  rw [Expr.evalWith_identifier, Eval.resolve, Eval.bind_get, hm.lookup_eq, hv]
  rfl

theorem Expr.evalWith_builtin (hm : m.Shows env look) {b : Builtin} (hb : look b.name = none) :
    (Expr.identifier b.name).evalWith .idle limit levels env m = .ok (.builtin b) m := by
  rw [Expr.evalWith_identifier, Eval.resolve, Eval.bind_get, hm.lookup_eq, hb]
  cases b <;> rfl

theorem Expr.evalListWith_cons {e : Expr} {es : List Expr} {v : Value} {vs : List Value}
    (he : e.evalWith .idle limit levels env m = .ok v m₁)
    (hes : Expr.evalListWith .idle limit levels es env m₁ = .ok vs m₂) :
    Expr.evalListWith .idle limit levels (e :: es) env m = .ok (v :: vs) m₂ := by
  rw [Expr.evalListWith, Eval.bind_of_ok he, Eval.bind_of_ok hes]
  rfl

theorem Expr.evalListWith_cons_outcome {b : Nat} {e : Expr} {es : List Expr} {v : Value}
    {Q : List Value → Prop} (he : e.evalWith .idle limit levels env m = .ok v m₁)
    (hes : Outcome limit b m₁ (fun vs => Q (v :: vs))
      (Expr.evalListWith .idle limit levels es env m₁)) :
    Outcome limit b m₁ Q (Expr.evalListWith .idle limit levels (e :: es) env m) := by
  rw [Expr.evalListWith, Eval.bind_of_ok he, ← Nat.max_zero b]
  exact hes.bind fun vs m' _ hvs => outcome_ok (.refl m') hvs

theorem Expr.evalListWith_singleton_outcome {a : Nat} {e : Expr} {P : Value → Prop}
    {Q : List Value → Prop} (he : Outcome limit a m P (e.evalWith .idle limit levels env m))
    (hQ : ∀ v, P v → Q [v]) :
    Outcome limit a m Q (Expr.evalListWith .idle limit levels [e] env m) := by
  rw [Expr.evalListWith, ← Nat.max_zero a]
  exact he.bind fun v m' _ hv => outcome_ok (.refl m') (hQ v hv)

theorem Expr.evalWith_binary_of_ok {left right : Expr} {op : BinaryOp} {a b : Value}
    (hleft : left.evalWith .idle limit levels env m = .ok a m₁)
    (hright : right.evalWith .idle limit levels env m₁ = .ok b m₂) :
    (Expr.binary left op right).evalWith .idle limit levels env m = op.apply a b m₂ := by
  rw [Expr.evalWith_binary, Eval.bind_of_ok hleft, Eval.bind_of_ok hright]

theorem Expr.evalWith_conditional_of_ok {condition : Expr} {consequence : Block}
    {alternative : Option Block} {c : Value}
    (hc : condition.evalWith .idle limit levels env m = .ok c m₁) :
    (Expr.conditional condition consequence alternative).evalWith .idle limit levels env m =
      if c.truthy then Block.evalWith .idle limit levels consequence .null env m₁
      else Block.evalElseWith .idle limit levels alternative env m₁ := by
  rw [Expr.evalWith_conditional, Eval.bind_of_ok hc]
  split <;> rfl

theorem Expr.evalWith_call_of_ok {callee : Expr} {arguments : List Expr} {f : Value}
    {args : List Value} (hquote : callee.isName "quote" = false)
    (hf : callee.evalWith .idle limit levels env m = .ok f m₁)
    (hargs : Expr.evalListWith .idle limit levels arguments env m₁ = .ok args m₂) :
    (Expr.call callee arguments).evalWith .idle limit levels env m =
      f.call limit levels args m₂ := by
  rw [Expr.evalWith_call _ _ _ hquote, Eval.bind_of_ok hf, Eval.bind_of_ok hargs]

theorem Expr.evalWith_builtin_call (hm : m.Shows env look) {b : Builtin} (hb : look b.name = none)
    {arguments : List Expr} {args : List Value}
    (hargs : Expr.evalListWith .idle limit levels arguments env m = .ok args m₁) :
    (Expr.call (.identifier b.name) arguments).evalWith .idle limit levels env m =
      b.apply args m₁ := by
  have hquote : (Expr.identifier b.name).isName "quote" = false := by cases b <;> rfl
  exact Expr.evalWith_call_of_ok hquote (Expr.evalWith_builtin hm hb) hargs

theorem Block.evalWith_bind_of_ok {name : String} {e : Expr} {ss : List Stmt} {result v : Value}
    (he : e.evalWith .idle limit levels env m = .ok v m₁) (hv : v.isReturned = false) :
    Block.evalWith .idle limit levels (.bind name e :: ss) result env m =
      Block.evalWith .idle limit levels ss v env (m₁.define env name v) := by
  have hbind : (Stmt.bind name e).evalWith .idle limit levels env m =
      .ok v (m₁.define env name v) := by
    rw [Stmt.evalWith_bind, Eval.bind_of_ok he]
    rfl
  rw [Block.evalWith_cons, Eval.bind_of_ok hbind, hv]
  rfl

theorem Block.evalWith_singleton (e : Expr) (result : Value) :
    Block.evalWith .idle limit levels [.expr e] result env = e.evalWith .idle limit levels env := by
  simp [Block.evalWith_cons, Block.evalWith_nil, Stmt.evalWith]

theorem Expr.evalWith_call_outcome {a b : Nat} {callee : Expr} {arguments : List Expr} {f : Value}
    {P : List Value → Prop} {Q : Value → Prop} (hquote : callee.isName "quote" = false)
    (hf : callee.evalWith .idle limit levels env m = .ok f m)
    (hargs : Outcome limit a m P (Expr.evalListWith .idle limit levels arguments env m))
    (hcall : ∀ args m', m.Extends m' → P args →
      Outcome limit b m' Q (f.call limit levels args m')) :
    Outcome limit (max a b) m Q
      ((Expr.call callee arguments).evalWith .idle limit levels env m) := by
  rw [Expr.evalWith_call _ _ _ hquote, Eval.bind_of_ok hf]
  exact hargs.bind hcall

end

/-! ## Programs in a session -/

theorem Session.evalProgram_of_outcome {s : Session} {p : Program} {calls : Nat} {m : Machine}
    {Q : Value → Prop} (hdepth : m.depth = 0)
    (h : Outcome s.limits.calls calls m Q (p.eval s.limits s.scope s.machine)) :
    ∃ m', m.Extends m' ∧
      ((calls ≤ s.limits.calls ∧ ∃ v, Q v ∧ s.evalProgram p = (.ok v, { s with machine := m' })) ∨
        (s.limits.calls < calls ∧ s.evalProgram p =
          (.error (.error (.callDepthExceeded s.limits.calls)), { s with machine := m' }))) := by
  cases hr : p.eval s.limits s.scope s.machine with
  | ok v m' =>
    rw [hr] at h
    cases h with
    | value hroom hm' hv =>
      rw [hdepth] at hroom
      exact ⟨m', hm', .inl ⟨hroom, v, hv, evalProgram_of_ok hr⟩⟩
  | error e m' =>
    rw [hr] at h
    cases h with
    | exceeded hroom hm' =>
      rw [hdepth] at hroom
      exact ⟨m', hm', .inr ⟨hroom, evalProgram_of_error hr⟩⟩

end Monkey
