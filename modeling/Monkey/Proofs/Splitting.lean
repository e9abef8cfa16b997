import Monkey.Proofs.RoundTrip
import Monkey.Proofs.Sessions

/-!
# One input or two

The texts of two programs, with a semicolon between them, are one input of a session. It does the
same as the two inputs one after the other, unless the first part fails or returns: then it does the
same as the first part alone.
-/

namespace Monkey

/-! ## Texts -/

theorem Program.render_append {ss ts : Block} (hss : ss ≠ []) (hts : ts ≠ []) :
    Program.render ⟨ss ++ ts⟩ = Program.render ⟨ss⟩ ++ "; " ++ Program.render ⟨ts⟩ := by
  simp only [Program.render, Stmt.renderList_eq_map, List.map_append]
  exact String.intercalate_append_of_ne_nil (by simpa using hss) (by simpa using hts)

theorem Program.WellFormed.append {p q : Program} (hp : p.WellFormed) (hq : q.WellFormed) :
    Program.WellFormed ⟨p.statements ++ q.statements⟩ := by
  intro s hs
  rcases List.mem_append.mp hs with hs | hs
  · exact hp s hs
  · exact hq s hs

/-! ## Statements -/

section

variable {α β : Type} {x : Eval α} {f : α → Eval β} {m m' : Machine}

theorem Eval.bind_of_ok {a : α} (h : x m = .ok a m') : (x >>= f) m = f a m' := by
  change EStateM.bind x f m = _
  unfold EStateM.bind
  rw [h]

theorem Eval.bind_of_error {e : Stop} (h : x m = .error e m') : (x >>= f) m = .error e m' := by
  change EStateM.bind x f m = _
  unfold EStateM.bind
  rw [h]

end

namespace Block

section

variable {limits : Limits} {limit : Nat} {env : ScopeId}

/-- Evaluated one after the other from `m`, one of the statements returns `v`, and leaves `m'`. -/
inductive Returns (limits : Limits) (env : ScopeId) : Block → Machine → Value → Machine → Prop
  | here {s : Stmt} {ss : Block} {m m' : Machine} {v : Value} :
    s.eval limits env m = .ok (.returned v) m' → Returns limits env (s :: ss) m v m'
  | later {s : Stmt} {ss : Block} {m m₁ m' : Machine} {u v : Value} :
    s.eval limits env m = .ok u m₁ → u.isReturned = false → Returns limits env ss m₁ v m' →
      Returns limits env (s :: ss) m v m'

variable {levels : Levels}

theorem evalWith_append (ts : Block) : ∀ (ss : Block) {result : Value}, result.isReturned = false →
    evalWith .idle limit levels (ss ++ ts) result env = do
      let v ← evalWith .idle limit levels ss result env
      if v.isReturned then return v else evalWith .idle limit levels ts v env
  | [], result, h => by
    simp [evalWith_nil, h]
  | s :: ss, result, _ => by
    rw [List.cons_append, evalWith_cons, evalWith_cons, bind_assoc]
    congr
    funext v
    cases hv : v.isReturned with
    | true => simp [hv]
    | false =>
      simp only [Bool.false_eq_true, if_false]
      exact evalWith_append ts ss hv

theorem evalWith_of_ne_nil {ss : Block} (h : ss ≠ []) (u v : Value) :
    evalWith .idle limit levels ss u env = evalWith .idle limit levels ss v env := by
  cases ss with
  | nil => exact absurd rfl h
  | cons s ss => rw [evalWith_cons, evalWith_cons]

theorem returns_iff {v : Value} {m' : Machine} : ∀ {ss : Block} {result : Value} {m : Machine},
    result.isReturned = false →
      (Returns limits env ss m v m' ↔
        evalWith .idle limits.calls (Monkey.levels .idle limits) ss result env m =
          .ok (.returned v) m')
  | [], result, m, hresult => by
    rw [evalWith_nil]
    refine ⟨nofun, fun h => ?_⟩
    cases h
    cases hresult
  | s :: ss, result, m, _ => by
    rw [evalWith_cons]
    -- The first statement fails, returns, or hands over to the rest.
    cases hs : s.evalWith .idle limits.calls (Monkey.levels .idle limits) env m with
    | error e m₁ =>
      rw [Eval.bind_of_error hs]
      refine ⟨fun h => ?_, nofun⟩
      cases h with
      | here h => cases hs.symm.trans h
      | later h => cases hs.symm.trans h
    | ok u m₁ =>
      rw [Eval.bind_of_ok hs]
      cases hu : u.isReturned with
      | true =>
        simp only [if_true]
        refine ⟨fun h => ?_, fun h => ?_⟩
        · cases h with
          | here h =>
            cases hs.symm.trans h
            rfl
          | later h hfalse =>
            cases hs.symm.trans h
            cases hu.symm.trans hfalse
        · cases h
          exact .here hs
      | false =>
        simp only [Bool.false_eq_true, if_false]
        rw [← returns_iff hu]
        refine ⟨fun h => ?_, fun h => .later hs hu h⟩
        cases h with
        | here h =>
          cases hs.symm.trans h
          cases hu
        | later h _ hlater =>
          cases hs.symm.trans h
          exact hlater

end

end Block

theorem Program.eval_append (limits : Limits) (ss : Block) {ts : Block} (hts : ts ≠ [])
    (env : ScopeId) :
    Program.eval limits ⟨ss ++ ts⟩ env = (do
      let v ← Block.eval limits ss env
      if v.isReturned then return v.unwrapReturn else Program.eval limits ⟨ts⟩ env) := by
  unfold Program.eval Program.watched Block.eval Block.watched
  rw [Block.evalWith_append ts ss rfl, bind_assoc]
  congr
  funext v
  cases hv : v.isReturned with
  | true => simp
  | false =>
    simp only [Bool.false_eq_true, if_false]
    rw [Block.evalWith_of_ne_nil hts v .null]

/-! ## Sessions -/

namespace Session

section

variable {s : Session} {m : Machine}

theorem evalProgram_of_ok {p : Program} {v : Value}
    (h : p.eval s.limits s.scope s.machine = .ok v m) :
    s.evalProgram p = (.ok v, { s with machine := m }) := by
  unfold Session.evalProgram EStateM.run
  rw [h]

theorem evalProgram_of_error {p : Program} {e : Stop}
    (h : p.eval s.limits s.scope s.machine = .error e m) :
    s.evalProgram p = (.error e, { s with machine := m }) := by
  unfold Session.evalProgram EStateM.run
  rw [h]

variable {ss ts : Block}

theorem evalProgram_append_of_error (hts : ts ≠ []) {e : Stop}
    (h : Block.eval s.limits ss s.scope s.machine = .error e m) :
    s.evalProgram ⟨ss⟩ = (.error e, { s with machine := m }) ∧
      s.evalProgram ⟨ss ++ ts⟩ = s.evalProgram ⟨ss⟩ := by
  have hfirst : s.evalProgram ⟨ss⟩ = (.error e, { s with machine := m }) :=
    evalProgram_of_error (Eval.bind_of_error h)
  refine ⟨hfirst, ?_⟩
  rw [hfirst]
  refine evalProgram_of_error ?_
  rw [Program.eval_append _ _ hts]
  exact Eval.bind_of_error h

theorem evalProgram_append_of_returned (hts : ts ≠ []) {v : Value}
    (h : Block.eval s.limits ss s.scope s.machine = .ok (.returned v) m) :
    s.evalProgram ⟨ss⟩ = (.ok v, { s with machine := m }) ∧
      s.evalProgram ⟨ss ++ ts⟩ = s.evalProgram ⟨ss⟩ := by
  have hfirst : s.evalProgram ⟨ss⟩ = (.ok v, { s with machine := m }) :=
    evalProgram_of_ok (Eval.bind_of_ok h)
  refine ⟨hfirst, ?_⟩
  rw [hfirst]
  refine evalProgram_of_ok ?_
  rw [Program.eval_append _ _ hts]
  exact Eval.bind_of_ok h

theorem evalProgram_append_of_ok (hts : ts ≠ []) {v : Value} (hv : v.isReturned = false)
    (h : Block.eval s.limits ss s.scope s.machine = .ok v m) :
    s.evalProgram ⟨ss ++ ts⟩ = (s.evalProgram ⟨ss⟩).2.evalProgram ⟨ts⟩ := by
  have hfirst : s.evalProgram ⟨ss⟩ = (.ok v.unwrapReturn, { s with machine := m }) :=
    evalProgram_of_ok (Eval.bind_of_ok h)
  have hsecond : Program.eval s.limits ⟨ss ++ ts⟩ s.scope s.machine =
      Program.eval s.limits ⟨ts⟩ s.scope m := by
    rw [Program.eval_append _ _ hts, Eval.bind_of_ok h, hv]
    rfl
  rw [hfirst]
  unfold Session.evalProgram EStateM.run
  rw [hsecond]

end

theorem eval_render (s : Session) {p : Program} (hp : p.WellFormed) :
    s.eval p.render = ((s.evalProgram p).1.mapError .eval, (s.evalProgram p).2) := by
  obtain ⟨hprogram, herrors⟩ := p.parse_render hp
  unfold Session.eval
  simp only [hprogram, herrors, List.isEmpty_nil, if_true]
  split
  · rename_i v s' h
    rw [h]
    rfl
  · rename_i e s' h
    rw [h]
    rfl

theorem eval_render_append (s : Session) {p q : Program} (hp : p.WellFormed) (hq : q.WellFormed)
    (hps : p.statements ≠ []) (hqs : q.statements ≠ []) :
    s.eval (p.render ++ "; " ++ q.render) =
      ((s.evalProgram ⟨p.statements ++ q.statements⟩).1.mapError .eval,
        (s.evalProgram ⟨p.statements ++ q.statements⟩).2) := by
  rw [← Program.render_append hps hqs]
  exact s.eval_render (hp.append hq)

/-- Two programs in one input do what they do one after the other, unless the first ends the input.
-/
theorem eval_joined (s : Session) {p q : Program} (hp : p.WellFormed) (hq : q.WellFormed)
    (hps : p.statements ≠ []) (hqs : q.statements ≠ []) :
    let first := s.eval p.render
    let joined := s.eval (p.render ++ "; " ++ q.render)
    (∀ e, first.1 = .error e → joined = first) ∧
      (∀ v m, Block.Returns s.limits s.scope p.statements s.machine v m →
        first = (.ok v, { s with machine := m }) ∧ joined = first) ∧
      ∀ v, first.1 = .ok v →
        (∀ u m, ¬ Block.Returns s.limits s.scope p.statements s.machine u m) →
          joined = first.2.eval q.render := by
  intro first joined
  have hfirst : first = _ := s.eval_render hp
  have hjoined : joined = _ := s.eval_render_append hp hq hps hqs
  refine ⟨fun e he => ?_, fun v m hreturns => ?_, fun v hv hnone => ?_⟩
  · cases hblock : Block.eval s.limits p.statements s.scope s.machine with
    | error stop m =>
      rw [hjoined, hfirst, (evalProgram_append_of_error hqs hblock).2]
    | ok v m =>
      rw [hfirst, evalProgram_of_ok (Eval.bind_of_ok hblock)] at he
      cases he
  · have hblock : Block.eval s.limits p.statements s.scope s.machine = .ok (.returned v) m :=
      (Block.returns_iff rfl).mp hreturns
    obtain ⟨hanswer, hsame⟩ := evalProgram_append_of_returned hqs hblock
    refine ⟨?_, ?_⟩
    · rw [hfirst, hanswer]
      rfl
    · rw [hjoined, hfirst, hsame]
  · cases hblock : Block.eval s.limits p.statements s.scope s.machine with
    | error stop m =>
      rw [hfirst, (evalProgram_append_of_error hqs hblock).1] at hv
      cases hv
    | ok u m =>
      -- No statement returns, so the value of the first part is not marked.
      have hu : u.isReturned = false := by
        cases u with
        | returned w => exact absurd ((Block.returns_iff rfl).mpr hblock) (hnone w m)
        | _ => rfl
      rw [hjoined, hfirst, eval_render _ hq, evalProgram_append_of_ok hqs hu hblock]

/-- `let x = 1; if (true) { return x }` -/
def returnsEarly : Program :=
  ⟨[.bind "x" (.integer 1), .expr (.conditional (.boolean true) [.ret (.identifier "x")] none)]⟩

/-- `let x = 2` -/
def bindsAgain : Program := ⟨[.bind "x" (.integer 2)]⟩

theorem eval_joined_returnsEarly :
    returnsEarly.WellFormed ∧ bindsAgain.WellFormed ∧
      (Session.new ⟨1, 0⟩).eval (returnsEarly.render ++ "; " ++ bindsAgain.render) =
        (Session.new ⟨1, 0⟩).eval returnsEarly.render ∧
      (Session.new ⟨1, 0⟩).eval (bindsAgain.render ++ "; " ++ returnsEarly.render) =
        ((Session.new ⟨1, 0⟩).eval bindsAgain.render).2.eval returnsEarly.render := by
  have hx : IsName "x" := by
    refine ⟨List.cons_ne_nil 'x' [], ?_, rfl⟩
    intro c hc
    rw [List.mem_singleton.mp hc]
    decide
  have hone : 0 ≤ (1 : Int64).toInt := by decide
  have htwo : 0 ≤ (2 : Int64).toInt := by decide
  have hearly : returnsEarly.WellFormed :=
    Stmt.listEverywhere_iff.mp ⟨⟨hx, hone, trivial⟩,
      ⟨trivial, trivial, ⟨trivial, trivial⟩, ⟨⟨trivial, hx, trivial⟩, trivial⟩, trivial⟩, trivial⟩
  have hagain : bindsAgain.WellFormed :=
    Stmt.listEverywhere_iff.mp ⟨⟨hx, htwo, trivial⟩, trivial⟩
  have hreturns :
      Block.Returns ⟨1, 0⟩ 0 returnsEarly.statements (Session.new ⟨1, 0⟩).machine (.integer 1) _ :=
    .later rfl rfl (.here rfl)
  have hnone : ∀ u m,
      ¬ Block.Returns ⟨1, 0⟩ 0 bindsAgain.statements (Session.new ⟨1, 0⟩).machine u m := by
    intro u m h
    cases h with
    | here h => cases h
    | later _ _ h => cases h
  have hok : ((Session.new ⟨1, 0⟩).eval bindsAgain.render).1 = .ok (.integer 2) := by
    rw [eval_render _ hagain]
    rfl
  refine ⟨hearly, hagain, ?_, ?_⟩
  · exact ((eval_joined (Session.new ⟨1, 0⟩) hearly hagain nofun nofun).2.1 _ _ hreturns).2
  · exact (eval_joined (Session.new ⟨1, 0⟩) hagain hearly nofun nofun).2.2 _ hok hnone

end Session

end Monkey
