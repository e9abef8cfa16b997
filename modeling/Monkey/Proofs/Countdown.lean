import Monkey.Proofs.Arithmetic
import Monkey.Proofs.CallDepth
import Monkey.Proofs.ExactDepth

/-!
# Counting down

A function that counts down to zero calls itself once for each number. So it tells how deep calls
can go: it comes back from every number below the limit, and meets the limit with all others.
Afterwards the session is as it was.
-/

namespace Monkey

/-! ## The function -/

def downText : String :=
  "let down = fn(n) \x7b if (n == 0) \x7b 0 \x7d else \x7b down(n - 1) \x7d \x7d;"

def downBody : Block :=
  [.expr (.conditional (.binary (.identifier "n") .equal (.integer 0)) [.expr (.integer 0)]
    (some [.expr (.call (.identifier "down") [.binary (.identifier "n") .minus (.integer 1)])]))]

theorem parse_downText : (parse downText).errors.isEmpty = true ∧
    (parse downText).program = ⟨[.bind "down" (.function ["n"] downBody)]⟩ := by
  decide +kernel

def down (id : Identity) (scope : ScopeId) : Value := .function id ["n"] downBody scope

section

variable {limit : Nat} {levels : Levels} {env : ScopeId} {m : Machine}
  {look : String → Option Value} {w : Int64} (hm : m.Shows env look)
  (hn : look "n" = some (.integer w))

include hm hn

theorem down_condition :
    (Expr.binary (.identifier "n") .equal (.integer 0)).evalWith .idle limit levels env m =
      .ok (.boolean (w = 0)) m := by
  rw [Expr.evalWith_binary_of_ok (Expr.evalWith_name hm hn) rfl]
  rfl

theorem downBody_zero (hw : w = 0) :
    Block.evalWith .idle limit levels downBody .null env m = .ok (.integer 0) m := by
  rw [downBody, Block.evalWith_singleton, Expr.evalWith_conditional_of_ok (down_condition hm hn),
    decide_eq_true hw]
  rfl

theorem downBody_succ {f : Value} (hdown : look "down" = some f) {w' : Int64}
    (hw : w.toInt = w'.toInt + 1) (hne : w ≠ 0) :
    Block.evalWith .idle limit levels downBody .null env m =
      f.call limit levels [.integer w'] m := by
  have hless : BinaryOp.minus.onIntegers w 1 = .ok (.integer w') := by
    have hfits : Integer.sub? w 1 = some w' := by
      rw [Integer.sub?, Integer.ofInt?_eq_some_iff, hw, Int64.toInt_one]
      omega
    simp [BinaryOp.onIntegers, hfits, exactly]
  have hargument : (Expr.binary (.identifier "n") .minus (.integer 1)).evalWith .idle limit levels
      env m = .ok (.integer w') m := by
    rw [Expr.evalWith_binary_of_ok (Expr.evalWith_name hm hn) rfl, BinaryOp.apply, hless]
    rfl
  rw [downBody, Block.evalWith_singleton, Expr.evalWith_conditional_of_ok (down_condition hm hn),
    decide_eq_false hne]
  simp only [Value.truthy, Bool.false_eq_true, if_false, Block.evalElseWith,
    Block.evalWith_singleton]
  exact Expr.evalWith_call_of_ok rfl (Expr.evalWith_name hm hdown)
    (Expr.evalListWith_cons hargument rfl)

end

theorem down_outcome (limits : Limits) {id : Identity} {scope : ScopeId}
    {look : String → Option Value} (hdown : look "down" = some (down id scope)) (n : Nat) :
    ∀ {m : Machine} {k : Nat} {w : Int64}, m.Shows scope look → w.toInt = n →
      limits.calls ≤ k + m.depth → Outcome limits.calls (n + 1) m (· = .integer 0)
        ((down id scope).call limits.calls (levelsAt .idle limits k (limits.splices + 1))
          [.integer w] m) := by
  induction n with
  | zero =>
    intro m k w hm hw hk
    refine Value.call_outcome rfl hk fun k' hk' => ?_
    have hzero : w = 0 := Int64.toInt_inj.mp hw
    rw [downBody_zero (hm.enter _) rfl hzero]
    exact outcome_ok (m.extends_enter _ _) rfl
  | succ n ih =>
    intro m k w hm hw hk
    refine Value.call_outcome rfl hk fun k' hk' => ?_
    have hupper := Integer.le_greatest w
    obtain ⟨w', hw'⟩ : ∃ w' : Int64, w'.toInt = n := by
      refine ⟨Int64.ofInt n, Integer.toInt_ofInt n ?_ ?_⟩
      · unfold Integer.least
        omega
      · omega
    have hne : w ≠ 0 := by
      rintro rfl
      simp at hw
      omega
    have hinner := hm.enter (["n"].zip [.integer w])
    rw [downBody_succ hinner rfl hdown (by omega : w.toInt = w'.toInt + 1) hne]
    -- The inner call starts from the scope of the function again, with one level less.
    have hrest := (ih (hm.inCall scope (["n"].zip [.integer w])) hw' hk').earlier
      (m.extends_enter scope _)
    exact hrest.imp fun v hv => by rw [hv]; rfl

/-! ## Inputs -/

def countdown (n : Nat) : String := "down(" ++ toString n ++ ")"

/-- What the input comes to. -/
def countdownAnswer (limit n : Nat) : Except SessionError Value :=
  if n < limit then .ok (.integer 0) else .error (.eval (.error (.callDepthExceeded limit)))

def countdownCall (w : Int64) : Expr := .call (.identifier "down") [.integer w]

theorem countdownCall_wellFormed {w : Int64} (hw : 0 ≤ w.toInt) :
    Program.WellFormed ⟨[.expr (countdownCall w)]⟩ := by
  have hletters : ∀ c ∈ "down".toList, isLetter c := List.all_eq_true.mp (by decide)
  have hname : IsName "down" := ⟨by decide, hletters, rfl⟩
  exact List.forall_mem_singleton.mpr ⟨trivial, trivial, ⟨hname, trivial⟩, ⟨hw, trivial⟩, trivial⟩

theorem render_countdownCall {w : Int64} {n : Nat} (hw : w.toInt = n) :
    Program.render ⟨[.expr (countdownCall w)]⟩ = countdown n := by
  have hnumber : Integer.render w = toString n := by
    rw [Integer.render, hw]
    rfl
  simp [Program.render, Stmt.renderList, Stmt.render, countdownCall, Expr.render, Expr.renderList,
    hnumber, countdown]

theorem countdownCall_outcome (limits : Limits) {n : Nat} {id : Identity} {scope : ScopeId}
    {m : Machine} {look : String → Option Value} {w : Int64} (hm : m.Shows scope look)
    (hdown : look "down" = some (down id scope)) (hw : w.toInt = n) :
    Outcome limits.calls (n + 1) m (· = .integer 0)
      (Program.eval limits ⟨[.expr (countdownCall w)]⟩ scope m) := by
  have hcall := down_outcome limits hdown n hm hw (Nat.le_add_right limits.calls m.depth)
  have heval : (countdownCall w).eval limits scope m =
      (down id scope).call limits.calls (levels .idle limits) [.integer w] m :=
    Expr.evalWith_call_of_ok rfl (Expr.evalWith_name hm hdown) rfl
  have hanswer : Outcome limits.calls (n + 1) m (· = .integer 0)
      ((countdownCall w).eval limits scope m) := by
    rw [heval]
    exact hcall
  rw [Program.eval_expr, ← Nat.max_zero (n + 1)]
  refine hanswer.bind fun v m' _ hv => outcome_ok (.refl m') ?_
  rw [hv]
  rfl

/-! ## Sessions -/

namespace Session

/-- No call is going on, and `down` is bound to the function. -/
structure CountsDown (s : Session) : Prop where
  depth : s.machine.depth = 0
  shows : s.machine.Shows s.scope (s.machine.lookup s.scope)
  down : ∃ id, s.machine.lookup s.scope "down" = some (down id s.scope)

theorem CountsDown.later {s : Session} (hs : s.CountsDown) {m : Machine}
    (hm : s.machine.Extends m) : CountsDown { s with machine := m } := by
  have hshows := hs.shows.later hm
  obtain ⟨id, hid⟩ := hs.down
  refine ⟨hm.depth.trans hs.depth, ⟨hshows.scope_lt, hshows.chain_lt, fun _ => rfl⟩, id, ?_⟩
  exact (hshows.lookup_eq "down").trans hid

theorem CountsDown.eval {s : Session} (hs : s.CountsDown) {n : Nat}
    (hn : (n : Int) ≤ Integer.greatest) :
    ∃ m, s.eval (countdown n) = (countdownAnswer s.limits.calls n, { s with machine := m }) ∧
      s.machine.Extends m := by
  have hw : (Int64.ofInt n).toInt = n := Integer.toInt_ofInt n (by unfold Integer.least; omega) hn
  obtain ⟨id, hdown⟩ := hs.down
  have hanswer := countdownCall_outcome s.limits hs.shows hdown hw
  rw [← render_countdownCall hw, s.eval_render (countdownCall_wellFormed (by omega))]
  obtain ⟨m, hm, ⟨hroom, v, rfl, hprogram⟩ | ⟨hroom, hprogram⟩⟩ :=
    evalProgram_of_outcome hs.depth hanswer
  · refine ⟨m, ?_, hm⟩
    rw [hprogram, countdownAnswer, if_pos (by omega)]
    rfl
  · refine ⟨m, ?_, hm⟩
    rw [hprogram, countdownAnswer, if_neg (by omega)]
    rfl

theorem CountsDown.evalAll (ns : List Nat) (hns : ∀ n ∈ ns, (n : Int) ≤ Integer.greatest) :
    ∀ {s : Session}, s.CountsDown →
      ∃ m, s.evalAll (ns.map countdown) =
          (ns.map (countdownAnswer s.limits.calls), { s with machine := m }) ∧
        s.machine.Extends m := by
  induction ns with
  | nil => exact fun {s} _ => ⟨s.machine, rfl, .refl _⟩
  | cons n ns ih =>
    intro s hs
    obtain ⟨hn, hrest⟩ := List.forall_mem_cons.mp hns
    obtain ⟨m, hfirst, hm⟩ := hs.eval hn
    obtain ⟨m', hlast, hm'⟩ := ih hrest (hs.later hm)
    refine ⟨m', ?_, hm.trans hm'⟩
    rw [List.map_cons, Session.evalAll, hfirst]
    simp only [hlast, List.map_cons]

/-- Between inputs: the scopes are linked, there is the scope of the session, and no call is going
on. -/
structure AtRest (s : Session) : Prop where
  linked : s.machine.Linked
  scope_lt : s.scope < s.machine.scopes.size
  depth : s.machine.depth = 0

theorem new_atRest (limits : Limits) : (Session.new limits).AtRest := by
  have hmachine : (Session.new limits).machine = (Machine.empty.enclose 0).2 := rfl
  refine ⟨?_, Nat.zero_lt_one, rfl⟩
  rw [hmachine]
  exact Machine.linked_empty.enclose 0

theorem eval_scope (s : Session) (source : String) : (s.eval source).2.scope = s.scope := by
  rcases s.eval_cases source with ⟨-, hsame⟩ | ⟨-, hafter⟩
  · rw [hsame]
  · rw [hafter, evalProgram_scope]

theorem AtRest.eval {s : Session} (hs : s.AtRest) (source : String) : (s.eval source).2.AtRest := by
  have hdepth := (s.eval_depth source).trans hs.depth
  rcases s.eval_cases source with ⟨-, hsame⟩ | ⟨-, hafter⟩
  · rw [hsame]
    exact hs
  · obtain ⟨hlinked, hframe⟩ := hs.linked.eval s.limits (parse source).program s.scope
    rw [← evalProgram_machine, ← hafter] at hlinked hframe
    refine ⟨hlinked, ?_, hdepth⟩
    rw [s.eval_scope]
    exact Nat.lt_of_lt_of_le hs.scope_lt hframe.size_le

theorem AtRest.evalAll (sources : List String) :
    ∀ {s : Session}, s.AtRest → (s.evalAll sources).2.AtRest := by
  induction sources with
  | nil => exact fun hs => hs
  | cons source sources ih => exact fun hs => ih (hs.eval source)

theorem lookup_downText {s : Session} (hs : s.AtRest) :
    (s.eval downText).2.machine.lookup s.scope "down" =
      some (Monkey.down s.machine.fresh s.scope) := by
  obtain ⟨herrors, hprogram⟩ := parse_downText
  have hrun : Program.eval s.limits ⟨[.bind "down" (.function ["n"] downBody)]⟩ s.scope s.machine =
      .ok (Monkey.down s.machine.fresh s.scope)
        (Machine.define { s.machine with fresh := s.machine.fresh + 1 } s.scope "down"
          (Monkey.down s.machine.fresh s.scope)) := rfl
  unfold Session.eval
  simp only [herrors, if_true, hprogram, evalProgram_of_ok hrun]
  have hlookup := Machine.lookup_define { s.machine with fresh := s.machine.fresh + 1 } s.scope
    "down" (Monkey.down s.machine.fresh s.scope) "down" hs.scope_lt
  exact hlookup.trans (if_pos rfl)

/-- Every `down(n)` below the limit comes to zero and every other exceeds it, in any order. -/
theorem countdown_exact (limits : Limits) (before later : List String) (ns : List Nat)
    (hns : ∀ n ∈ ns, (n : Int) ≤ Integer.greatest) :
    let defined := (((Session.new limits).evalAll before).2.eval downText).2
    let s := (defined.evalAll later).2
    s.machine.lookup s.scope "down" = defined.machine.lookup defined.scope "down" →
      ∃ m, s.evalAll (ns.map countdown) =
          (ns.map (countdownAnswer limits.calls), { s with machine := m }) ∧
        m.scopes[s.scope]? = s.machine.scopes[s.scope]? := by
  intro defined s hsame
  have hbefore := (new_atRest limits).evalAll before
  have hs : s.AtRest := (hbefore.eval downText).evalAll later
  have hlimits : s.limits = limits := by
    rw [evalAll_unchanged (f := Session.limits) eval_limits later,
      eval_limits, evalAll_unchanged (f := Session.limits) eval_limits before]
    rfl
  have hscope : s.scope = defined.scope := evalAll_unchanged (f := Session.scope) eval_scope later _
  have hdown : ∃ id, defined.machine.lookup defined.scope "down" =
      some (Monkey.down id s.scope) := by
    rw [hscope, eval_scope]
    exact ⟨_, lookup_downText hbefore⟩
  rw [← hsame] at hdown
  -- The session is at rest after any inputs, so `down` starts with all calls left.
  have hcounts : s.CountsDown := ⟨hs.depth, hs.linked.shows hs.scope_lt, hdown⟩
  obtain ⟨m, hanswers, hm⟩ := hcounts.evalAll ns hns
  refine ⟨m, ?_, hm.scopes_eq hs.scope_lt⟩
  rw [hanswers, hlimits]

theorem countdown_exact_three :
    (∀ n ∈ [2, 3, 2], ((n : Nat) : Int) ≤ Integer.greatest) ∧
      (((Session.new ⟨3, 0⟩).eval downText).2.evalAll ["down(2)", "down(3)", "down(2)"]).1 =
        [.ok (.integer 0), .error (.eval (.error (.callDepthExceeded 3))), .ok (.integer 0)] := by
  have hns : ∀ n ∈ [2, 3, 2], ((n : Nat) : Int) ≤ Integer.greatest := by decide
  obtain ⟨m, hanswers, -⟩ := countdown_exact ⟨3, 0⟩ [] [] [2, 3, 2] hns rfl
  exact ⟨hns, congrArg Prod.fst hanswers⟩

end Session

end Monkey
