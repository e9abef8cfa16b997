import Mathlib.Data.List.Forall2
import Monkey.Proofs.Arithmetic
import Monkey.Proofs.Arrays
import Monkey.Proofs.ExactDepth

/-!
# Map as a program

A `map` can be written in the language itself: an inner function takes one element after another
off an array and pushes what the given function makes of it onto a second one. It gives what the
map of lists gives, at arrays of every length, and goes two calls deeper than there are elements.
-/

namespace Monkey

/-! ## The program -/

def mapText : String :=
  "let map = fn(arr, f) \x7b let iter = fn(arr, acc) \x7b if (len(arr) == 0) \x7b acc \x7d "
    ++ "else \x7b iter(rest(arr), push(acc, f(first(arr)))) \x7d \x7d; iter(arr, []) \x7d; "
    ++ "map(arr, fn(x) \x7b x * 2 \x7d)"

def iterArguments : List Expr :=
  [.call (.identifier "rest") [.identifier "arr"],
    .call (.identifier "push") [.identifier "acc",
      .call (.identifier "f") [.call (.identifier "first") [.identifier "arr"]]]]

def iterBody : Block :=
  [.expr (.conditional
    (.binary (.call (.identifier "len") [.identifier "arr"]) .equal (.integer 0))
    [.expr (.identifier "acc")] (some [.expr (.call (.identifier "iter") iterArguments)]))]

def mapBody : Block :=
  [.bind "iter" (.function ["arr", "acc"] iterBody),
    .expr (.call (.identifier "iter") [.identifier "arr", .array []])]

def doubleBody : Block := [.expr (.binary (.identifier "x") .asterisk (.integer 2))]

def doubleCall : Expr :=
  .call (.identifier "map") [.identifier "arr", .function ["x"] doubleBody]

theorem parse_mapText : (parse mapText).errors.isEmpty = true ∧
    (parse mapText).program =
      ⟨[.bind "map" (.function ["arr", "f"] mapBody), .expr doubleCall]⟩ := by
  decide +kernel

/-! ## The function that is mapped -/

/-- Wherever the scope shows what it did, the function takes `x` to `y` without further calls. -/
def Value.Takes (limits : Limits) (f : Value) (scope : ScopeId) (look : String → Option Value)
    (x y : Value) : Prop :=
  ∀ (m : Machine) (k : Nat), m.Shows scope look → limits.calls ≤ k + m.depth →
    Outcome limits.calls 1 m (· = y)
      (f.call limits.calls (levelsAt .idle limits k (limits.splices + 1)) [x] m)

theorem double_takes (limits : Limits) (id : Identity) (scope : ScopeId)
    (look : String → Option Value) {x y : Int64} (hy : y.toInt = 2 * x.toInt) :
    (Value.function id ["x"] doubleBody scope).Takes limits scope look (.integer x)
      (.integer y) := by
  intro m k hm hk
  have hproduct : BinaryOp.asterisk.onIntegers x 2 = .ok (.integer y) := by
    have hfits : Integer.mul? x 2 = some y := by
      rw [Integer.mul?, Integer.ofInt?_eq_some_iff, hy, Int.mul_comm]
      rfl
    simp [BinaryOp.onIntegers, hfits, exactly]
  refine Value.call_outcome rfl hk fun k' hk' => ?_
  have hinner := hm.enter (["x"].zip [.integer x])
  rw [doubleBody, Block.evalWith_singleton,
    Expr.evalWith_binary_of_ok (Expr.evalWith_name hinner rfl) rfl, BinaryOp.apply, hproduct]
  exact outcome_ok (m.extends_enter _ _) rfl

theorem double_takes_all (limits : Limits) (id : Identity) (scope : ScopeId)
    (look : String → Option Value) {xs ys : List Int64}
    (hys : List.Forall₂ (fun x y => y.toInt = 2 * x.toInt) xs ys) :
    List.Forall₂ ((Value.function id ["x"] doubleBody scope).Takes limits scope look)
      (xs.map .integer) (ys.map .integer) := by
  rw [List.forall₂_map_left_iff, List.forall₂_map_right_iff]
  exact hys.imp fun x y hy => double_takes limits id scope look hy

/-! ## The inner function -/

/-- What the inner function finds around it: itself, the function that is mapped, and no name of a
builtin. -/
structure LoopNames (look : String → Option Value) (iter f : Value) : Prop where
  iter : look "iter" = some iter
  f : look "f" = some f
  builtin : ∀ b : Builtin, look b.name = none

theorem LoopNames.enter {look : String → Option Value} {iter f : Value}
    (h : LoopNames look iter f) (array acc : Value) :
    LoopNames (fun name => ((["arr", "acc"].zip [array, acc]).reverse.lookup name).or (look name))
      iter f :=
  ⟨h.iter, h.f, fun b => by cases b <;> exact h.builtin _⟩

section

variable {limit : Nat} {levels : Levels} {env : ScopeId} {m : Machine}
  {look : String → Option Value} {iter f array : Value} (hm : m.Shows env look)
  (hnames : LoopNames look iter f) (harr : look "arr" = some array)

include hm hnames harr

theorem evalWith_onArray (b : Builtin) :
    (Expr.call (.identifier b.name) [.identifier "arr"]).evalWith .idle limit levels env m =
      b.apply [array] m :=
  Expr.evalWith_builtin_call hm (hnames.builtin b)
    (Expr.evalListWith_cons (Expr.evalWith_name hm harr) rfl)

theorem iterBody_eq {i : Identity} {xs : List Value} (harray : array = .array i xs)
    (hxs : Countable xs) :
    Block.evalWith .idle limit levels iterBody .null env m =
      if xs = [] then (Expr.identifier "acc").evalWith .idle limit levels env m
      else (Expr.call (.identifier "iter") iterArguments).evalWith .idle limit levels env m := by
  subst harray
  have hlen : (Expr.call (.identifier "len") [.identifier "arr"]).evalWith .idle limit levels env
      m = .ok (.integer (Int64.ofNat xs.length)) m := evalWith_onArray hm hnames harr .len
  have hcondition : (Expr.binary (.call (.identifier "len") [.identifier "arr"]) .equal
      (.integer 0)).evalWith .idle limit levels env m =
        .ok (.boolean (Int64.ofNat xs.length = 0)) m := by
    rw [Expr.evalWith_binary_of_ok hlen rfl]
    rfl
  rw [iterBody, Block.evalWith_singleton, Expr.evalWith_conditional_of_ok hcondition]
  by_cases hempty : xs = []
  · rw [if_pos hempty, decide_eq_true (hxs.length_eq_zero_iff.mpr hempty)]
    exact congrFun (Block.evalWith_singleton _ .null) m
  · rw [if_neg hempty, decide_eq_false (mt hxs.length_eq_zero_iff.mp hempty)]
    exact congrFun (Block.evalWith_singleton _ .null) m

end

/-! ## What goes into the next turn -/

section

variable {limits : Limits} {k : Nat} {env outer : ScopeId} {m : Machine}
  {look around : String → Option Value} {iter f x y : Value} {i j : Identity}
  {xs acc : List Value} (hm : m.Shows env look)
  (hnames : LoopNames look iter f) (harr : look "arr" = some (.array i (x :: xs)))
  (hacc : look "acc" = some (.array j acc)) (houter : m.Shows outer around)
  (hf : f.Takes limits outer around x y) (hk : limits.calls ≤ k + m.depth)

include hm hnames harr houter hf hk

theorem applied_outcome :
    Outcome limits.calls 1 m (· = y) ((Expr.call (.identifier "f")
      [.call (.identifier "first") [.identifier "arr"]]).evalWith .idle limits.calls
        (levelsAt .idle limits k (limits.splices + 1)) env m) := by
  have hfirst : (Expr.call (.identifier "first") [.identifier "arr"]).evalWith .idle limits.calls
      (levelsAt .idle limits k (limits.splices + 1)) env m = .ok x m :=
    evalWith_onArray hm hnames harr .first
  rw [Expr.evalWith_call_of_ok rfl (Expr.evalWith_name hm hnames.f)
    (Expr.evalListWith_cons hfirst rfl)]
  exact hf m k houter hk

include hacc

theorem pushed_outcome :
    Outcome limits.calls 1 m (∃ j, · = .array j (acc ++ [y]))
      ((Expr.call (.identifier "push") [.identifier "acc", .call (.identifier "f")
        [.call (.identifier "first") [.identifier "arr"]]]).evalWith .idle limits.calls
          (levelsAt .idle limits k (limits.splices + 1)) env m) := by
  have happlied := applied_outcome hm hnames harr houter hf hk
  have hargs := Expr.evalListWith_cons_outcome (Q := (· = [.array j acc, y]))
    (Expr.evalWith_name hm hacc)
    (Expr.evalListWith_singleton_outcome happlied fun v hv => by rw [hv])
  refine Expr.evalWith_call_outcome (b := 0) rfl
    (Expr.evalWith_builtin hm (hnames.builtin .push)) hargs fun args m' _ hargs => ?_
  rw [hargs]
  exact outcome_ok m'.extends_fresh ⟨m'.fresh, rfl⟩

theorem iterArguments_outcome :
    Outcome limits.calls 1 m (fun args => ∃ i j, args = [.array i xs, .array j (acc ++ [y])])
      (Expr.evalListWith .idle limits.calls (levelsAt .idle limits k (limits.splices + 1))
        iterArguments env m) := by
  have hrest : (Expr.call (.identifier "rest") [.identifier "arr"]).evalWith .idle limits.calls
      (levelsAt .idle limits k (limits.splices + 1)) env m =
        .ok (.array m.fresh xs) { m with fresh := m.fresh + 1 } :=
    evalWith_onArray hm hnames harr .rest
  have hlater := m.extends_fresh
  have hpushed := pushed_outcome (k := k) (hm.later hlater) hnames harr hacc
    (houter.later hlater) hf hk
  refine (Expr.evalListWith_cons_outcome hrest
    (Expr.evalListWith_singleton_outcome hpushed ?_)).earlier hlater
  exact fun v ⟨j, hj⟩ => ⟨m.fresh, j, by rw [hj]⟩

end

/-! ## All turns -/

theorem iter_outcome {limits : Limits} {id : Identity} {scope outer : ScopeId} {f : Value}
    {look around : String → Option Value} {xs ys : List Value}
    (hnames : LoopNames look (.function id ["arr", "acc"] iterBody scope) f)
    (hf : List.Forall₂ (f.Takes limits outer around) xs ys) :
    ∀ {m : Machine} {k : Nat} {i j : Identity} {acc : List Value}, m.Shows scope look →
      m.Shows outer around → Countable xs → limits.calls ≤ k + m.depth →
      Outcome limits.calls (xs.length + 1) m (∃ l, · = .array l (acc ++ ys))
        ((Value.function id ["arr", "acc"] iterBody scope).call limits.calls
          (levelsAt .idle limits k (limits.splices + 1)) [.array i xs, .array j acc] m) := by
  induction hf with
  | nil =>
    intro m k i j acc hm houter hxs hk
    refine Value.call_outcome rfl hk fun k' hk' => ?_
    have hinner := hm.enter (["arr", "acc"].zip [.array i [], .array j acc])
    rw [iterBody_eq hinner (hnames.enter _ _) rfl rfl hxs, if_pos rfl,
      Expr.evalWith_name hinner rfl, List.append_nil]
    exact outcome_ok (m.extends_enter _ _) ⟨j, rfl⟩
  | @cons x y xs ys hx _ ih =>
    intro m k i j acc hm houter hxs hk
    refine Value.call_outcome rfl hk fun k' hk' => ?_
    have hinner := hm.enter (["arr", "acc"].zip [.array i (x :: xs), .array j acc])
    have hinnerNames := hnames.enter (.array i (x :: xs)) (.array j acc)
    have hm := hm.inCall scope (["arr", "acc"].zip [.array i (x :: xs), .array j acc])
    have houter := houter.inCall scope (["arr", "acc"].zip [.array i (x :: xs), .array j acc])
    have hargs := iterArguments_outcome hinner hinnerNames rfl rfl houter hx hk'
    -- The next turn starts from the scope of the inner function, not from the scope of this call.
    have hcall := Expr.evalWith_call_outcome rfl (Expr.evalWith_name hinner hinnerNames.iter) hargs
      fun args m' hm' ⟨i, j, hargs⟩ => by
        rw [hargs]
        exact ih (hm.later hm') (houter.later hm') hxs.tail (hm'.le_add_depth hk')
    rw [iterBody_eq hinner hinnerNames rfl rfl hxs, if_neg (List.cons_ne_nil x xs)]
    rw [Nat.max_eq_right (Nat.le_add_left 1 xs.length)] at hcall
    refine (hcall.earlier (m.extends_enter scope _)).imp fun v ⟨l, hv⟩ => ⟨l, ?_⟩
    rw [hv, List.append_assoc]
    rfl

/-! ## The whole map -/

theorem map_outcome {limits : Limits} {k : Nat} {id i : Identity} {scope outer : ScopeId}
    {f : Value} {m : Machine} {look around : String → Option Value} {xs ys : List Value}
    (hm : m.Shows scope look) (hbuiltin : ∀ b : Builtin, look b.name = none)
    (houter : m.Shows outer around) (hf : List.Forall₂ (f.Takes limits outer around) xs ys)
    (hxs : Countable xs) (hk : limits.calls ≤ k + m.depth) :
    Outcome limits.calls (xs.length + 2) m (∃ l, · = .array l ys)
      ((Value.function id ["arr", "f"] mapBody scope).call limits.calls
        (levelsAt .idle limits k (limits.splices + 1)) [.array i xs, f] m) := by
  refine Value.call_outcome rfl hk fun k' hk' => ?_
  have hinner := hm.enter (["arr", "f"].zip [.array i xs, f])
  have hentered := m.extends_enter scope (["arr", "f"].zip [.array i xs, f])
  generalize m.enter scope (["arr", "f"].zip [.array i xs, f]) = n at hinner hentered ⊢
  have hiter : (Expr.function ["arr", "acc"] iterBody).evalWith .idle limits.calls
      (levelsAt .idle limits k' (limits.splices + 1)) m.scopes.size n =
        .ok (.function n.fresh ["arr", "acc"] iterBody m.scopes.size)
          { n with fresh := n.fresh + 1 } := rfl
  rw [mapBody, Block.evalWith_bind_of_ok hiter rfl, Block.evalWith_singleton]
  -- The inner function is bound in the scope that it was made in, so it finds itself.
  have hbound := (hinner.later n.extends_fresh).define "iter"
    (.function n.fresh ["arr", "acc"] iterBody m.scopes.size)
  have hextends := (hentered.trans n.extends_fresh).define (Nat.le_refl m.scopes.size) "iter"
    (.function n.fresh ["arr", "acc"] iterBody m.scopes.size)
  generalize Machine.define _ m.scopes.size "iter" _ = n₁ at hbound hextends ⊢
  have hargs : Expr.evalListWith .idle limits.calls (levelsAt .idle limits k' (limits.splices + 1))
      [.identifier "arr", .array []] m.scopes.size n₁ =
        .ok [.array i xs, .array n₁.fresh []] { n₁ with fresh := n₁.fresh + 1 } :=
    Expr.evalListWith_cons (Expr.evalWith_name hbound rfl) rfl
  rw [Expr.evalWith_call_of_ok rfl (Expr.evalWith_name hbound rfl) hargs]
  have hextends := hextends.trans n₁.extends_fresh
  refine Outcome.imp (Outcome.earlier (iter_outcome ?_ hf (hbound.later n₁.extends_fresh)
    (houter.deeper.later hextends) hxs (hextends.le_add_depth hk')) hextends)
    fun v ⟨l, hv⟩ => ⟨l, ?_⟩
  · exact ⟨rfl, rfl, fun b => by cases b <;> exact hbuiltin _⟩
  · rw [hv]
    rfl

/-! ## The program in a session -/

theorem doubleCall_outcome (limits : Limits) {env : ScopeId} {m : Machine}
    {look : String → Option Value} {id i : Identity} {xs ys : List Int64} (hm : m.Shows env look)
    (hmap : look "map" = some (.function i ["arr", "f"] mapBody env))
    (harr : look "arr" = some (.array id (xs.map .integer)))
    (hbuiltin : ∀ b : Builtin, look b.name = none) (hxs : Countable xs)
    (hys : List.Forall₂ (fun x y => y.toInt = 2 * x.toInt) xs ys) :
    Outcome limits.calls (xs.length + 2) m (∃ l, · = .array l (ys.map .integer))
      (doubleCall.evalWith .idle limits.calls (levels .idle limits) env m) := by
  have hargs : Expr.evalListWith .idle limits.calls (levels .idle limits)
      [.identifier "arr", .function ["x"] doubleBody] env m =
        .ok [.array id (xs.map .integer), .function m.fresh ["x"] doubleBody env]
          { m with fresh := m.fresh + 1 } :=
    Expr.evalListWith_cons (Expr.evalWith_name hm harr) rfl
  have hlater := hm.later m.extends_fresh
  have hlength : (xs.map Value.integer).length = xs.length := List.length_map _
  have hcountable : Countable (xs.map Value.integer) := by
    unfold Countable
    rw [hlength]
    exact hxs
  rw [doubleCall, Expr.evalWith_call_of_ok rfl (Expr.evalWith_name hm hmap) hargs, ← hlength]
  exact (map_outcome (k := limits.calls) hlater hbuiltin hlater
    (double_takes_all limits m.fresh env look hys) hcountable
    (Nat.le_add_right limits.calls m.depth)).earlier m.extends_fresh

/-- The machine once `map` is bound. -/
def Machine.withMap (m : Machine) (env : ScopeId) : Machine :=
  { m with fresh := m.fresh + 1 }.define env "map" (.function m.fresh ["arr", "f"] mapBody env)

theorem Machine.Shows.withMap {m : Machine} {env : ScopeId} {look : String → Option Value}
    (h : m.Shows env look) : (m.withMap env).Shows env fun n =>
      if n = "map" then some (.function m.fresh ["arr", "f"] mapBody env) else look n :=
  (h.later m.extends_fresh).define "map" _

theorem mapProgram_outcome (limits : Limits) {env : ScopeId} {m : Machine}
    {look : String → Option Value} {id : Identity} {xs ys : List Int64} (hm : m.Shows env look)
    (harr : look "arr" = some (.array id (xs.map .integer)))
    (hbuiltin : ∀ b : Builtin, look b.name = none) (hxs : Countable xs)
    (hys : List.Forall₂ (fun x y => y.toInt = 2 * x.toInt) xs ys) :
    Outcome limits.calls (xs.length + 2) (m.withMap env) (∃ l, · = .array l (ys.map .integer))
      ((parse mapText).program.eval limits env m) := by
  have hmap : (Expr.function ["arr", "f"] mapBody).evalWith .idle limits.calls
      (levels .idle limits) env m =
        .ok (.function m.fresh ["arr", "f"] mapBody env) { m with fresh := m.fresh + 1 } := rfl
  have hcall := doubleCall_outcome limits hm.withMap rfl harr
    (fun b => by cases b <;> exact hbuiltin _) hxs hys
  rw [parse_mapText.2, Program.eval, Program.watched, Block.watched, ← Nat.max_zero (xs.length + 2)]
  refine Outcome.bind (P := (∃ l, · = .array l (ys.map .integer))) ?_ fun v m' _ ⟨l, hv⟩ =>
    outcome_ok (.refl m') ⟨l, by rw [hv]; rfl⟩
  rw [Block.evalWith_bind_of_ok hmap rfl, Block.evalWith_singleton]
  exact hcall

/-- Doubling an array takes two calls more than it has elements, and leaves the array as it is. -/
theorem Session.eval_mapText (limits : Limits) (m : Machine) (hdepth : m.depth = 0) (id : Identity)
    (xs : List Int64) (hxs : Countable xs)
    (hfits : ∀ x ∈ xs, Integer.least ≤ 2 * x.toInt ∧ 2 * x.toInt ≤ Integer.greatest) :
    let array := Value.array id (xs.map .integer)
    let s : Session := ⟨m.addScope.2.define m.addScope.1 "arr" array, m.addScope.1, limits⟩
    ∃ m', m'.lookup s.scope "arr" = some array ∧
      if xs.length + 2 ≤ limits.calls then
        ∃ (l : Identity) (ys : List Int64), ys.map Int64.toInt = xs.map (2 * ·.toInt) ∧
          s.eval mapText = (.ok (.array l (ys.map .integer)), { s with machine := m' })
      else s.eval mapText =
        (.error (.eval (.error (.callDepthExceeded limits.calls))), { s with machine := m' }) := by
  intro array s
  have hdoubled : ∀ x ∈ xs, (Int64.ofInt (2 * x.toInt)).toInt = 2 * x.toInt :=
    fun x hx => Integer.toInt_ofInt _ (hfits x hx).1 (hfits x hx).2
  have hys : List.Forall₂ (fun x y : Int64 => y.toInt = 2 * x.toInt) xs
      (xs.map fun x => Int64.ofInt (2 * x.toInt)) :=
    List.forall₂_map_right_iff.mpr (List.forall₂_same.mpr hdoubled)
  have hm : s.machine.Shows s.scope _ := m.shows_addScope.define "arr" array
  have houtcome := mapProgram_outcome limits hm rfl (fun b => by cases b <;> rfl) hxs hys
  obtain ⟨m', hm', hanswer⟩ :=
    evalProgram_of_outcome (s := s) (m := s.machine.withMap s.scope) hdepth houtcome
  refine ⟨m', (hm.withMap.later hm').lookup_eq "arr", ?_⟩
  unfold Session.eval
  simp only [parse_mapText.1, if_true]
  rcases hanswer with ⟨hroom, v, ⟨l, rfl⟩, hanswer⟩ | ⟨hroom, hanswer⟩
  · rw [if_pos hroom, hanswer]
    refine ⟨l, _, ?_, rfl⟩
    rw [List.map_map]
    exact List.map_congr_left hdoubled
  · rw [if_neg (Nat.not_le.mpr hroom), hanswer]

theorem Session.eval_mapText_three :
    Countable [1, -2, (3 : Int64)] ∧
      let start : Machine := ⟨#[], 1, 0⟩
      let array := Value.array 0 [.integer 1, .integer (-2), .integer 3]
      let s (limits : Limits) : Session := ⟨start.addScope.2.define 0 "arr" array, 0, limits⟩
      (∃ l, ((s ⟨5, 0⟩).eval mapText).1 = .ok (.array l [.integer 2, .integer (-4), .integer 6])) ∧
        ((s ⟨4, 0⟩).eval mapText).1 = .error (.eval (.error (.callDepthExceeded 4))) := by
  have hxs : Countable [1, -2, (3 : Int64)] := by
    unfold Countable
    decide
  have hfits : ∀ x ∈ [1, -2, (3 : Int64)],
      Integer.least ≤ 2 * x.toInt ∧ 2 * x.toInt ≤ Integer.greatest := by
    rw [List.forall_mem_cons, List.forall_mem_cons, List.forall_mem_singleton]
    decide
  obtain ⟨m₅, -, hfive⟩ := Session.eval_mapText ⟨5, 0⟩ ⟨#[], 1, 0⟩ rfl 0 _ hxs hfits
  obtain ⟨m₄, -, hfour⟩ := Session.eval_mapText ⟨4, 0⟩ ⟨#[], 1, 0⟩ rfl 0 _ hxs hfits
  rw [if_pos (by decide)] at hfive
  rw [if_neg (by decide)] at hfour
  obtain ⟨l, ys, hys, hfive⟩ := hfive
  obtain rfl : ys = [2, -4, 6] :=
    List.map_injective_iff.mpr (fun _ _ => Int64.toInt_inj.mp) (hys.trans (by decide))
  exact ⟨hxs, ⟨l, congrArg Prod.fst hfive⟩, congrArg Prod.fst hfour⟩

end Monkey
