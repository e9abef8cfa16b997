import Monkey.Proofs.Quoting
import Monkey.Proofs.Regime

/-!
# Evaluation stays within a regime

Every kind of evaluation keeps to a regime, at any call depth: expressions, statements, blocks and
programs, calls, and the replacing of `unquote`. That is proved once, for every regime and for every
watch that lets the values of the regime pass.
-/

namespace Monkey

section

variable {R : Regime} {limit : Nat} {w : R.Stage} {d : Nat}

/-! ## Operators and builtins -/

theorem Regime.value_getD {o : Option Value} (h : ∀ v ∈ o, R.value w v) :
    R.value w (o.getD .null) := by
  cases o with
  | none => exact R.plain trivial
  | some v => exact h v rfl

theorem Regime.value_indexInto {v i u : Value} (hv : R.value w v) (h : indexInto v i = .ok u) :
    R.value w u := by
  rcases indexInto_cases h with rfl | ⟨id, vs, rfl, hu⟩ | ⟨id, entries, k, rfl, hu⟩
  · exact R.plain trivial
  · exact Value.listAll_iff.mp hv.2 u hu
  · exact Value.entriesAll_iff.mp hv.2 (k, u) hu

theorem Regime.value_insert {k : Key} {v : Value} {entries : List (Key × Value)}
    (hv : R.value w v) (h : ∀ e ∈ entries, R.value w e.2) :
    ∀ e ∈ Entries.insert k v entries, R.value w e.2 := by
  induction entries with
  | nil => exact List.forall_mem_singleton.mpr hv
  | cons c entries ih =>
    obtain ⟨hc, hentries⟩ := List.forall_mem_cons.mp h
    unfold Entries.insert
    split
    · exact List.forall_mem_cons.mpr ⟨hv, hentries⟩
    · split
      · exact List.forall_mem_cons.mpr ⟨hv, h⟩
      · exact List.forall_mem_cons.mpr ⟨hc, ih hentries⟩

theorem BinaryOp.apply_follows (op : BinaryOp) (a b : Value) :
    R.Follows limit w d R.value fun _ => op.apply a b := by
  unfold BinaryOp.apply
  split
  · exact Eval.follows_ofExcept fun u hu => Regime.value_of_isPlain (isPlain_onIntegers hu)
  · rename_i s _ t
    split
    · exact Eval.follows_new (o := .string (s ++ t)) trivial (by simp [Object.parts])
    · exact Eval.follows_ofExcept fun u hu => Regime.value_of_isPlain (isPlain_onValues hu)
  · exact Eval.follows_ofExcept fun u hu => Regime.value_of_isPlain (isPlain_onValues hu)

theorem Eval.follows_newArray {vs : List Value} (hvs : ∀ v ∈ vs, R.value w v) :
    R.Follows limit w d R.value fun _ => Eval.newArray vs :=
  Eval.follows_new (o := .array vs) trivial hvs

theorem Builtin.apply_follows (b : Builtin) {args : List Value}
    (hargs : ∀ a ∈ args, R.value w a) :
    R.Follows limit w d R.value fun _ => b.apply args := by
  have harray : ∀ b : Builtin, R.Follows limit w d (fun w' vs => ∀ v ∈ vs, R.value w' v)
      fun _ => Eval.ofExcept (b.arrayArgument args) := by
    intro b
    refine Eval.follows_ofExcept fun vs hvs => ?_
    obtain ⟨id, rfl⟩ := Builtin.eq_of_arrayArgument hvs
    exact Value.listAll_iff.mp (hargs _ List.mem_cons_self).2
  unfold Builtin.apply
  split
  · exact Eval.follows_ofExcept fun u hu => Regime.value_of_isPlain (isPlain_length hu)
  · refine Eval.follows_bind (harray .first) fun w' vs _ hvs => Eval.follows_pure ?_
    exact Regime.value_getD fun v hv => hvs v (List.mem_of_head? hv)
  · refine Eval.follows_bind (harray .last) fun w' vs _ hvs => Eval.follows_pure ?_
    exact Regime.value_getD fun v hv => hvs v (List.mem_of_getLast? hv)
  · refine Eval.follows_bind (harray .rest) fun w' vs _ hvs => ?_
    split
    · exact Eval.follows_pure (R.plain trivial)
    · exact Eval.follows_newArray (List.forall_mem_cons.mp hvs).2
  · rename_i i elements v
    obtain ⟨harray, hrest⟩ := List.forall_mem_cons.mp hargs
    have hv := List.forall_mem_singleton.mp hrest
    refine Eval.follows_newArray fun u hu => ?_
    rcases List.mem_append.mp hu with hu | hu
    · exact Value.listAll_iff.mp harray.2 u hu
    · rw [List.mem_singleton.mp hu]
      exact hv
  · exact Eval.follows_fail _
  · exact Eval.follows_fail _

end

/-! ## Evaluation -/

/-- Calls and quotes at the levels stay within the regime. -/
structure Regime.Respects (R : Regime) (d limit : Nat) (levels : Watch → Levels) : Prop where
  call : ∀ {w f args}, R.value w f → (∀ a ∈ args, R.value w a) →
    R.Follows limit w d R.value fun watch => f.call limit (levels watch) args
  quoted : ∀ {w e env}, (R.confines → e.Confined false) → R.scope w env →
    R.Follows limit w d (fun _ e => R.confines → e.Confined false)
      fun watch => (levels watch).quoted e env

section

variable {R : Regime} {d limit : Nat} {levels : Watch → Levels}

mutual

theorem Expr.evalWith_follows (h : R.Respects d limit levels) :
    ∀ (e : Expr) (here : Bool) (w : R.Stage) (env : ScopeId),
      (R.confines → e.Confined here) → R.scope w env →
        R.Follows limit w d (R.result here)
          fun watch => e.evalWith watch limit (levels watch) env
  | .identifier name, _, w, env, _, henv => by
    simp only [Expr.evalWith]
    refine Eval.follows_begins ?_
    exact Eval.follows_mono (Eval.follows_resolve henv name) fun _ _ hv => .inl hv
  | .integer n, _, w, _, _, _ => by
    simp only [Expr.evalWith]
    exact Eval.follows_begins (Eval.follows_pure (.inl (R.plain trivial)))
  | .boolean b, _, w, _, _, _ => by
    simp only [Expr.evalWith]
    exact Eval.follows_begins (Eval.follows_pure (.inl (R.plain trivial)))
  | .string text, _, w, _, _, _ => by
    simp only [Expr.evalWith]
    refine Eval.follows_begins ?_
    refine Eval.follows_mono ?_ fun _ _ hv => .inl hv
    exact Eval.follows_new (o := .string text) trivial (by simp [Object.parts])
  | .array es, _, w, env, he, henv => by
    simp only [Expr.evalWith]
    refine Eval.follows_begins ?_
    refine Eval.follows_bind (Expr.evalListWith_follows h es w env he henv)
      fun w₁ vs hw₁ hvs => ?_
    refine Eval.follows_usesAll hvs ?_
    exact Eval.follows_mono (Eval.follows_newArray hvs) fun _ _ hv => .inl hv
  | .hash ps, _, w, env, he, henv => by
    simp only [Expr.evalWith]
    refine Eval.follows_begins ?_
    refine Eval.follows_bind (Expr.evalPairsWith_follows h ps [] w env he (by simp) henv)
      fun w₁ entries hw₁ hentries => ?_
    refine Eval.follows_mono ?_ fun _ _ hv => .inl hv
    exact Eval.follows_new (o := .hash entries) trivial (List.forall_mem_map.mpr hentries)
  | .unary op right, _, w, env, he, henv => by
    simp only [Expr.evalWith]
    refine Eval.follows_begins ?_
    refine Eval.follows_bind (right.evalWith_follows h false w env he henv)
      fun w₁ v hw₁ hv => ?_
    refine Eval.follows_uses hv.value ?_
    exact Eval.follows_ofExcept fun u hu =>
      .inl (Regime.value_of_isPlain (UnaryOp.isPlain_apply hu))
  | .binary left op right, _, w, env, he, henv => by
    simp only [Expr.evalWith]
    refine Eval.follows_begins ?_
    refine Eval.follows_bind
      (left.evalWith_follows h false w env (fun hc => (he hc).1) henv) fun w₁ a hw₁ ha => ?_
    refine Eval.follows_bind (right.evalWith_follows h false w₁ env (fun hc => (he hc).2)
      (R.scope_later hw₁ henv)) fun w₂ b hw₂ hb => ?_
    refine Eval.follows_uses (ha.value.later hw₂) ?_
    refine Eval.follows_uses hb.value ?_
    exact Eval.follows_mono (op.apply_follows a b) fun _ _ hv => .inl hv
  -- The branches take over the place of the conditional.
  | .conditional c ss o, here, w, env, he, henv => by
    simp only [Expr.evalWith]
    refine Eval.follows_begins ?_
    refine Eval.follows_bind (c.evalWith_follows h false w env (fun hc => (he hc).1) henv)
      fun w₁ v hw₁ hv => ?_
    refine Eval.follows_uses hv.value ?_
    have henv₁ := R.scope_later hw₁ henv
    split
    · exact Block.evalWith_follows h ss here .null w₁ env (fun hc => (he hc).2.1)
        (.inl (R.plain trivial)) henv₁
    · exact Block.evalElseWith_follows h o here w₁ env (fun hc => (he hc).2.2) henv₁
  | .function ps ss, _, w, env, he, henv => by
    simp only [Expr.evalWith]
    refine Eval.follows_begins ?_
    refine Eval.follows_mono ?_ fun _ _ hv => .inl hv
    exact Eval.follows_new (o := .function ps ss env) ⟨henv, he⟩ (by simp [Object.parts])
  | .call callee args, _, w, env, he, henv => by
    unfold Expr.evalWith
    refine Eval.follows_begins ?_
    split
    · match args with
      | [node] =>
        refine Eval.follows_bind (h.quoted (fun hc => (he hc).2.1) henv) fun w₁ e hw₁ hq => ?_
        refine Eval.follows_mono ?_ fun _ _ hv => .inl hv
        exact Eval.follows_new (o := .quote e) hq (by simp [Object.parts])
      | [] | _ :: _ :: _ => exact Eval.follows_fail _
    · refine Eval.follows_bind (callee.evalWith_follows h false w env
        (fun hc => (he hc).1) henv) fun w₁ f hw₁ hf => ?_
      refine Eval.follows_bind (Expr.evalListWith_follows h args w₁ env
        (fun hc => (he hc).2) (R.scope_later hw₁ henv)) fun w₂ vs hw₂ hvs => ?_
      have hf₂ := hf.value.later hw₂
      refine Eval.follows_uses hf₂ ?_
      refine Eval.follows_usesAll hvs ?_
      exact Eval.follows_mono (h.call hf₂ hvs) fun _ _ hv => .inl hv
  | .index left index, _, w, env, he, henv => by
    simp only [Expr.evalWith]
    refine Eval.follows_begins ?_
    refine Eval.follows_bind
      (left.evalWith_follows h false w env (fun hc => (he hc).1) henv) fun w₁ v hw₁ hv => ?_
    refine Eval.follows_bind (index.evalWith_follows h false w₁ env (fun hc => (he hc).2)
      (R.scope_later hw₁ henv)) fun w₂ i hw₂ hi => ?_
    have hv₂ := hv.value.later hw₂
    refine Eval.follows_uses hv₂ ?_
    refine Eval.follows_uses hi.value ?_
    exact Eval.follows_ofExcept fun u hu => .inl (Regime.value_indexInto hv₂ hu)

theorem Expr.evalListWith_follows (h : R.Respects d limit levels) :
    ∀ (es : List Expr) (w : R.Stage) (env : ScopeId),
      (R.confines → Expr.ListConfined es) → R.scope w env →
        R.Follows limit w d (fun w' vs => ∀ v ∈ vs, R.value w' v)
          fun watch => Expr.evalListWith watch limit (levels watch) es env
  | [], w, _, _, _ => by
    simp only [Expr.evalListWith]
    exact Eval.follows_pure (by simp)
  | e :: es, w, env, he, henv => by
    simp only [Expr.evalListWith]
    refine Eval.follows_bind (e.evalWith_follows h false w env (fun hc => (he hc).1) henv)
      fun w₁ v hw₁ hv => ?_
    refine Eval.follows_bind (Expr.evalListWith_follows h es w₁ env (fun hc => (he hc).2)
      (R.scope_later hw₁ henv)) fun w₂ vs hw₂ hvs => ?_
    exact Eval.follows_pure (List.forall_mem_cons.mpr ⟨hv.value.later hw₂, hvs⟩)

theorem Expr.evalPairsWith_follows (h : R.Respects d limit levels) :
    ∀ (ps : List (Expr × Expr)) (entries : List (Key × Value))
      (w : R.Stage) (env : ScopeId), (R.confines → Expr.PairsConfined ps) →
        (∀ e ∈ entries, R.value w e.2) → R.scope w env →
          R.Follows limit w d (fun w' entries => ∀ e ∈ entries, R.value w' e.2)
            fun watch => Expr.evalPairsWith watch limit (levels watch) ps entries env
  | [], _, w, _, _, hentries, _ => by
    simp only [Expr.evalPairsWith]
    exact Eval.follows_pure hentries
  | (key, value) :: ps, entries, w, env, he, hentries, henv => by
    simp only [Expr.evalPairsWith]
    refine Eval.follows_bind (key.evalWith_follows h false w env
      (fun hc => (he hc).1.1) henv) fun w₁ k hw₁ hk => ?_
    refine Eval.follows_uses hk.value ?_
    cases k.key? with
    | none => exact Eval.follows_fail _
    | some k =>
      refine Eval.follows_bind (value.evalWith_follows h false w₁ env
        (fun hc => (he hc).1.2) (R.scope_later hw₁ henv)) fun w₂ v hw₂ hv => ?_
      refine Eval.follows_uses hv.value ?_
      have hw := R.later_trans hw₁ hw₂
      refine Expr.evalPairsWith_follows h ps _ w₂ env (fun hc => (he hc).2) ?_
        (R.scope_later hw henv)
      exact Regime.value_insert hv.value fun e he => (hentries e he).later hw

theorem Stmt.evalWith_follows (h : R.Respects d limit levels) :
    ∀ (s : Stmt) (here : Bool) (w : R.Stage) (env : ScopeId),
      (R.confines → s.Confined here) → R.scope w env →
        R.Follows limit w d (R.result here)
          fun watch => s.evalWith watch limit (levels watch) env
  | .bind name value, _, w, env, hs, henv => by
    simp only [Stmt.evalWith]
    refine Eval.follows_bind (value.evalWith_follows h false w env hs henv)
      fun w₁ v hw₁ hv => ?_
    refine Eval.follows_uses hv.value ?_
    refine Eval.follows_bind (Eval.follows_define env name hv.value) fun w₂ _ hw₂ _ => ?_
    exact Eval.follows_pure (.inl (hv.value.later hw₂))
  -- If a `return` is confined, this is statement position. If it is not, any value may be marked.
  | .ret value, here, w, env, hs, henv => by
    simp only [Stmt.evalWith]
    refine Eval.follows_bind (value.evalWith_follows h false w env (fun hc => (hs hc).2)
      henv) fun w₁ v hw₁ hv => ?_
    refine Eval.follows_uses hv.value ?_
    refine Eval.follows_pure ?_
    by_cases hc : R.confines
    · exact .inr ⟨(hs hc).1, v, rfl, hv.value⟩
    · exact .inl ⟨R.returned hc w₁ v, hv.value⟩
  | .expr value, here, w, env, hs, henv => by
    simp only [Stmt.evalWith]
    exact value.evalWith_follows h here w env hs henv

theorem Block.evalWith_follows (h : R.Respects d limit levels) :
    ∀ (ss : List Stmt) (here : Bool) (result : Value)
      (w : R.Stage) (env : ScopeId), (R.confines → Stmt.ListConfined here ss) →
        R.result here w result → R.scope w env →
          R.Follows limit w d (R.result here)
            fun watch => Block.evalWith watch limit (levels watch) ss result env
  | [], _, _, w, _, _, hresult, _ => by
    simp only [Block.evalWith]
    exact Eval.follows_begins (Eval.follows_pure hresult)
  | s :: ss, here, _, w, env, hss, _, henv => by
    simp only [Block.evalWith]
    refine Eval.follows_begins ?_
    refine Eval.follows_bind (s.evalWith_follows h here w env (fun hc => (hss hc).1) henv)
      fun w₁ v hw₁ hv => ?_
    split
    · exact Eval.follows_pure hv
    · exact Block.evalWith_follows h ss here v w₁ env (fun hc => (hss hc).2) hv
        (R.scope_later hw₁ henv)

theorem Block.evalElseWith_follows (h : R.Respects d limit levels) :
    ∀ (o : Option (List Stmt)) (here : Bool) (w : R.Stage)
      (env : ScopeId), (R.confines → Stmt.ElseConfined here o) → R.scope w env →
        R.Follows limit w d (R.result here)
          fun watch => Block.evalElseWith watch limit (levels watch) o env
  | none, _, w, _, _, _ => by
    simp only [Block.evalElseWith]
    exact Eval.follows_pure (.inl (R.plain trivial))
  | some b, here, w, env, hb, henv => by
    simp only [Block.evalElseWith]
    exact Block.evalWith_follows h b here .null w env hb (.inl (R.plain trivial)) henv

end

end

/-! ## Quoting -/

theorem integerSyntax_confined (n : Int64) : (integerSyntax n).Confined false := by
  unfold integerSyntax
  split
  · trivial
  · split
    · trivial
    · exact ⟨trivial, trivial⟩

theorem Expr.unquoted?_confined {here : Bool} {e argument : Expr}
    (h : e.unquoted? = some argument) (he : e.Confined here) : argument.Confined false := by
  unfold Expr.unquoted? at h
  split at h
  · split at h
    · cases h
      exact he.2.1
    · cases h
  · cases h

/-- Arguments of `unquote` that are evaluated in this scope stay within the regime. -/
def Regime.RespectsArguments (R : Regime) (d limit : Nat) (env : ScopeId)
    (eval : Watch → Expr → Eval Value) : Prop :=
  ∀ {w a}, R.scope w env → (R.confines → a.Confined false) →
    R.Follows limit w d R.value fun watch => eval watch a

section

variable {R : Regime} {d limit : Nat} {env : ScopeId} {eval : Watch → Expr → Eval Value}

theorem Value.toSyntax_confined {w : R.Stage} {v : Value} {node : Expr} (hv : R.value w v)
    (h : v.toSyntax = .ok node) (hc : R.confines) : node.Confined false := by
  unfold Value.toSyntax at h
  split at h
  · cases h
    exact integerSyntax_confined _
  · cases h
    trivial
  · cases h
    exact R.quote hv hc
  · cases h

theorem unquoter_expression_follows (h : R.RespectsArguments d limit env eval) {w : R.Stage}
    (henv : R.scope w env) {here : Bool} {e : Expr} (he : R.confines → e.Confined here) :
    R.Follows limit w d (fun _ e => R.confines → e.Confined here)
      fun watch => (unquoter (eval watch)).expression e := by
  unfold unquoter
  simp only
  cases ha : e.unquoted? with
  | none => exact Eval.follows_pure he
  | some a =>
    refine Eval.follows_bind (h henv fun hc => Expr.unquoted?_confined ha (he hc))
      fun w₁ v hw₁ hv => ?_
    refine Eval.follows_ofExcept fun node hnode hc => ?_
    exact (v.toSyntax_confined hv hnode hc).whole here

theorem unquoter_block_follows {w : R.Stage} {here : Bool} {b : Block}
    (hb : R.confines → Stmt.ListConfined here b) :
    R.Follows limit w d (fun _ b => R.confines → Stmt.ListConfined here b)
      fun watch => (unquoter (eval watch)).block b :=
  Eval.follows_pure hb

mutual

theorem unquoter_expr_follows (h : R.RespectsArguments d limit env eval) :
    ∀ (e : Expr) (here : Bool) (w : R.Stage), R.scope w env → (R.confines → e.Confined here) →
      R.Follows limit w d (fun _ e => R.confines → e.Confined here)
        fun watch => (unquoter (eval watch)).expr e
  | .identifier n, here, w, henv, _ => by
    simp only [Rewriter.expr]
    exact Eval.follows_bind (Eval.follows_pure (P := fun _ _ => True) trivial)
      fun w₁ n hw₁ _ => unquoter_expression_follows h (R.scope_later hw₁ henv) fun _ => trivial
  | .integer _, here, w, henv, _ | .boolean _, here, w, henv, _ | .string _, here, w, henv, _ => by
    simp only [Rewriter.expr]
    exact unquoter_expression_follows h henv fun _ => trivial
  | .array es, here, w, henv, he => by
    simp only [Rewriter.expr]
    refine Eval.follows_bind (unquoter_exprs_follows h es w henv he) fun w₁ es hw₁ hes => ?_
    exact unquoter_expression_follows h (R.scope_later hw₁ henv) hes
  | .hash ps, here, w, henv, he => by
    simp only [Rewriter.expr]
    refine Eval.follows_bind (unquoter_exprPairs_follows h ps w henv he) fun w₁ ps hw₁ hps => ?_
    exact unquoter_expression_follows h (R.scope_later hw₁ henv) hps
  | .unary op right, here, w, henv, he => by
    simp only [Rewriter.expr]
    refine Eval.follows_bind (unquoter_expr_follows h right false w henv he)
      fun w₁ a hw₁ ha => ?_
    exact unquoter_expression_follows h (R.scope_later hw₁ henv) ha
  | .binary left op right, here, w, henv, he => by
    simp only [Rewriter.expr]
    refine Eval.follows_bind (unquoter_expr_follows h left false w henv fun hc => (he hc).1)
      fun w₁ a hw₁ ha => ?_
    have henv₁ := R.scope_later hw₁ henv
    refine Eval.follows_bind (unquoter_expr_follows h right false w₁ henv₁ fun hc => (he hc).2)
      fun w₂ b hw₂ hb => ?_
    exact unquoter_expression_follows h (R.scope_later hw₂ henv₁) fun hc => ⟨ha hc, hb hc⟩
  | .conditional c ss o, here, w, henv, he => by
    simp only [Rewriter.expr]
    refine Eval.follows_bind (unquoter_expr_follows h c false w henv fun hc => (he hc).1)
      fun w₁ c hw₁ hcond => ?_
    have henv₁ := R.scope_later hw₁ henv
    refine Eval.follows_bind (unquoter_stmts_follows h ss here w₁ henv₁ fun hc => (he hc).2.1)
      fun w₂ ss hw₂ hss => ?_
    refine Eval.follows_bind (unquoter_block_follows hss) fun w₃ ss hw₃ hss => ?_
    have henv₃ := R.scope_later (R.later_trans hw₂ hw₃) henv₁
    refine Eval.follows_bind (unquoter_alternativeBlock_follows h o here w₃ henv₃
      fun hc => (he hc).2.2) fun w₄ o hw₄ ho => ?_
    exact unquoter_expression_follows h (R.scope_later hw₄ henv₃)
      fun hc => ⟨hcond hc, hss hc, ho hc⟩
  | .function ps ss, here, w, henv, he => by
    simp only [Rewriter.expr, unquoter_names]
    refine Eval.follows_bind (Eval.follows_pure (P := fun _ _ => True) trivial)
      fun w₁ ps hw₁ _ => ?_
    have henv₁ := R.scope_later hw₁ henv
    refine Eval.follows_bind (unquoter_stmts_follows h ss true w₁ henv₁ he)
      fun w₂ ss hw₂ hss => ?_
    refine Eval.follows_bind (unquoter_block_follows hss) fun w₃ ss hw₃ hss => ?_
    exact unquoter_expression_follows h (R.scope_later (R.later_trans hw₂ hw₃) henv₁) hss
  | .call callee args, here, w, henv, he => by
    simp only [Rewriter.expr]
    refine Eval.follows_bind (unquoter_expr_follows h callee false w henv fun hc => (he hc).1)
      fun w₁ callee hw₁ hcallee => ?_
    have henv₁ := R.scope_later hw₁ henv
    refine Eval.follows_bind (unquoter_exprs_follows h args w₁ henv₁ fun hc => (he hc).2)
      fun w₂ args hw₂ hargs => ?_
    exact unquoter_expression_follows h (R.scope_later hw₂ henv₁)
      fun hc => ⟨hcallee hc, hargs hc⟩
  | .index left index, here, w, henv, he => by
    simp only [Rewriter.expr]
    refine Eval.follows_bind (unquoter_expr_follows h left false w henv fun hc => (he hc).1)
      fun w₁ a hw₁ ha => ?_
    have henv₁ := R.scope_later hw₁ henv
    refine Eval.follows_bind (unquoter_expr_follows h index false w₁ henv₁ fun hc => (he hc).2)
      fun w₂ b hw₂ hb => ?_
    exact unquoter_expression_follows h (R.scope_later hw₂ henv₁) fun hc => ⟨ha hc, hb hc⟩

theorem unquoter_exprs_follows (h : R.RespectsArguments d limit env eval) :
    ∀ (es : List Expr) (w : R.Stage), R.scope w env → (R.confines → Expr.ListConfined es) →
      R.Follows limit w d (fun _ es => R.confines → Expr.ListConfined es)
        fun watch => (unquoter (eval watch)).exprs es
  | [], w, _, _ => by
    simp only [Rewriter.exprs]
    exact Eval.follows_pure fun _ => trivial
  | e :: es, w, henv, he => by
    simp only [Rewriter.exprs]
    refine Eval.follows_bind (unquoter_expr_follows h e false w henv fun hc => (he hc).1)
      fun w₁ e hw₁ he₁ => ?_
    refine Eval.follows_bind (unquoter_exprs_follows h es w₁ (R.scope_later hw₁ henv)
      fun hc => (he hc).2) fun w₂ es hw₂ hes => ?_
    exact Eval.follows_pure fun hc => ⟨he₁ hc, hes hc⟩

theorem unquoter_exprPairs_follows (h : R.RespectsArguments d limit env eval) :
    ∀ (ps : List (Expr × Expr)) (w : R.Stage), R.scope w env →
      (R.confines → Expr.PairsConfined ps) →
        R.Follows limit w d (fun _ ps => R.confines → Expr.PairsConfined ps)
          fun watch => (unquoter (eval watch)).exprPairs ps
  | [], w, _, _ => by
    simp only [Rewriter.exprPairs]
    exact Eval.follows_pure fun _ => trivial
  | (key, value) :: ps, w, henv, he => by
    simp only [Rewriter.exprPairs]
    refine Eval.follows_bind (unquoter_expr_follows h key false w henv fun hc => (he hc).1.1)
      fun w₁ k hw₁ hk => ?_
    have henv₁ := R.scope_later hw₁ henv
    refine Eval.follows_bind (unquoter_expr_follows h value false w₁ henv₁
      fun hc => (he hc).1.2) fun w₂ v hw₂ hv => ?_
    refine Eval.follows_bind (unquoter_exprPairs_follows h ps w₂ (R.scope_later hw₂ henv₁)
      fun hc => (he hc).2) fun w₃ ps hw₃ hps => ?_
    exact Eval.follows_pure fun hc => ⟨⟨hk hc, hv hc⟩, hps hc⟩

theorem unquoter_stmt_follows (h : R.RespectsArguments d limit env eval) :
    ∀ (s : Stmt) (here : Bool) (w : R.Stage), R.scope w env → (R.confines → s.Confined here) →
      R.Follows limit w d (fun _ s => R.confines → s.Confined here)
        fun watch => (unquoter (eval watch)).stmt s
  | .bind name value, here, w, henv, hs => by
    simp only [Rewriter.stmt]
    refine Eval.follows_bind (Eval.follows_pure (P := fun _ _ => True) trivial)
      fun w₁ n hw₁ _ => ?_
    refine Eval.follows_bind (unquoter_expr_follows h value false w₁ (R.scope_later hw₁ henv) hs)
      fun w₂ e hw₂ he => ?_
    exact Eval.follows_pure he
  | .ret value, here, w, henv, hs => by
    simp only [Rewriter.stmt]
    refine Eval.follows_bind (unquoter_expr_follows h value false w henv fun hc => (hs hc).2)
      fun w₁ e hw₁ he => ?_
    exact Eval.follows_pure fun hc => ⟨(hs hc).1, he hc⟩
  | .expr value, here, w, henv, hs => by
    simp only [Rewriter.stmt]
    refine Eval.follows_bind (unquoter_expr_follows h value here w henv hs) fun w₁ e hw₁ he => ?_
    exact Eval.follows_pure he

theorem unquoter_stmts_follows (h : R.RespectsArguments d limit env eval) :
    ∀ (ss : List Stmt) (here : Bool) (w : R.Stage), R.scope w env →
      (R.confines → Stmt.ListConfined here ss) →
        R.Follows limit w d (fun _ ss => R.confines → Stmt.ListConfined here ss)
          fun watch => (unquoter (eval watch)).stmts ss
  | [], here, w, _, _ => by
    simp only [Rewriter.stmts]
    exact Eval.follows_pure fun _ => trivial
  | s :: ss, here, w, henv, hs => by
    simp only [Rewriter.stmts]
    refine Eval.follows_bind (unquoter_stmt_follows h s here w henv fun hc => (hs hc).1)
      fun w₁ s hw₁ hs₁ => ?_
    refine Eval.follows_bind (unquoter_stmts_follows h ss here w₁ (R.scope_later hw₁ henv)
      fun hc => (hs hc).2) fun w₂ ss hw₂ hss => ?_
    exact Eval.follows_pure fun hc => ⟨hs₁ hc, hss hc⟩

theorem unquoter_alternativeBlock_follows (h : R.RespectsArguments d limit env eval) :
    ∀ (o : Option (List Stmt)) (here : Bool) (w : R.Stage), R.scope w env →
      (R.confines → Stmt.ElseConfined here o) →
        R.Follows limit w d (fun _ o => R.confines → Stmt.ElseConfined here o)
          fun watch => (unquoter (eval watch)).alternativeBlock o
  | none, here, w, _, _ => by
    simp only [Rewriter.alternativeBlock]
    exact Eval.follows_pure fun _ => trivial
  | some b, here, w, henv, hb => by
    simp only [Rewriter.alternativeBlock]
    refine Eval.follows_bind (unquoter_stmts_follows h b here w henv hb) fun w₁ b hw₁ hb => ?_
    refine Eval.follows_bind (unquoter_block_follows hb) fun w₂ b hw₂ hb => ?_
    exact Eval.follows_pure hb

end

end

/-! ## Calls -/

section

variable {R : Regime} {d limit : Nat}

/-- Run one call deeper than `d`, which is only done below the limit, bodies of functions stay
within the regime. -/
def Regime.RespectsBodies (R : Regime) (d limit : Nat)
    (body : Watch → Block → ScopeId → Eval Value) : Prop :=
  d < limit → ∀ {w b env}, (R.confines → Stmt.ListConfined true b) → R.scope w env →
    R.Follows limit w (d + 1) (R.result true) fun watch => body watch b env

theorem Value.call_follows {levels : Watch → Levels}
    (hbody : R.RespectsBodies d limit fun watch => (levels watch).body)
    {w : R.Stage} {f : Value} {args : List Value} (hf : R.value w f)
    (hargs : ∀ a ∈ args, R.value w a) :
    R.Follows limit w d R.value fun watch => f.call limit (levels watch) args := by
  cases f with
  | function id ps b scope =>
    obtain ⟨hscope, hconfined⟩ := R.function hf
    simp only [Value.call]
    split
    · exact Eval.follows_fail _
    · refine Eval.follows_get fun m hm => ?_
      split
      · exact Eval.follows_fail _
      · rename_i hlimit
        rw [hm.depth] at hlimit
        have hd : d < limit := by omega
        refine Eval.follows_bind (Eval.follows_enclose hscope) fun w₁ inner hw₁ hinner => ?_
        have hbindings : ∀ q ∈ ps.zip args, R.value w₁ q.2 := by
          intro q hq
          exact (hargs q.2 (List.of_mem_zip hq).2).later hw₁
        refine Eval.follows_bind (Eval.follows_defineAll inner hbindings) fun w₂ _ hw₂ _ => ?_
        have hrun := hbody hd hconfined (R.scope_later hw₂ hinner)
        refine Eval.follows_bind (Eval.follows_deeper hd hrun) fun w₃ v hw₃ hv => ?_
        exact Eval.follows_pure hv.unwrapReturn
  | builtin b => exact b.apply_follows hargs
  | _ => exact Eval.follows_fail _

/-! ## Levels -/

theorem quotedAt_follows {body : Watch → Block → ScopeId → Eval Value}
    (hbody : R.RespectsBodies d limit body) (n : Nat) {w : R.Stage} {e : Expr} {env : ScopeId}
    (he : R.confines → e.Confined false) (henv : R.scope w env) :
    R.Follows limit w d (fun _ e => R.confines → e.Confined false)
      fun watch => quotedAt watch limit (body watch) n e env := by
  induction n generalizing w e env with
  | zero => exact unquoter_expr_follows (fun _ _ => Eval.follows_throw _) e false w henv he
  | succ n ih =>
    refine unquoter_expr_follows (fun {w₁ a} henv₁ ha => ?_) e false w henv he
    have hlevels : R.Respects d limit
        fun watch => ⟨body watch, quotedAt watch limit (body watch) n⟩ :=
      ⟨Value.call_follows hbody, ih⟩
    refine Eval.follows_bind (a.evalWith_follows hlevels false w₁ env ha henv₁)
      fun w₂ v _ hv => ?_
    exact Eval.follows_uses hv.value (Eval.follows_pure hv.value)

theorem bodyAt_follows (limits : Limits) (n : Nat) {d : Nat} :
    R.RespectsBodies d limits.calls fun watch => bodyAt watch limits n := by
  induction n generalizing d with
  | zero => exact fun _ {_ _ _} _ _ => Eval.follows_throw _
  | succ n ih =>
    intro hd w b env hb henv
    exact Block.evalWith_follows ⟨Value.call_follows ih, quotedAt_follows ih _⟩ b true .null w env
      hb (.inl (R.plain trivial)) henv

theorem levelsAt_follows (R : Regime) (d : Nat) (limits : Limits) (calls splices : Nat) :
    R.Respects d limits.calls fun watch => levelsAt watch limits calls splices :=
  ⟨Value.call_follows (bodyAt_follows limits calls),
    quotedAt_follows (bodyAt_follows limits calls) splices⟩

/-! ## Entry points -/

variable {limits : Limits} {w : R.Stage} {env : ScopeId}

theorem levels_follow : R.Respects d limits.calls fun watch => levels watch limits :=
  levelsAt_follows R d limits limits.calls (limits.splices + 1)

theorem Expr.watched_follows (e : Expr) (he : R.confines → e.Confined false)
    (henv : R.scope w env) :
    R.Follows limits.calls w d R.value fun watch => e.watched watch limits env :=
  Eval.follows_mono (e.evalWith_follows levels_follow false w env he henv) fun _ _ hv => hv.value

theorem Stmt.watched_follows (s : Stmt) (hs : R.confines → s.Confined true)
    (henv : R.scope w env) :
    R.Follows limits.calls w d (R.result true) fun watch => s.watched watch limits env :=
  s.evalWith_follows levels_follow true w env hs henv

theorem Block.watched_follows (b : Block) (hb : R.confines → Stmt.ListConfined true b)
    (henv : R.scope w env) :
    R.Follows limits.calls w d (R.result true) fun watch => Block.watched watch limits b env :=
  Block.evalWith_follows levels_follow b true .null w env hb (.inl (R.plain trivial)) henv

theorem Program.watched_follows (p : Program) (hp : R.confines → p.Confined)
    (henv : R.scope w env) :
    R.Follows limits.calls w d R.value fun watch => p.watched watch limits env :=
  Eval.follows_bind (Block.watched_follows p.statements hp henv) fun _ _ _ hv =>
    Eval.follows_pure hv.unwrapReturn

theorem Value.applyWatched_follows {f : Value} {args : List Value} (hf : R.value w f)
    (hargs : ∀ a ∈ args, R.value w a) :
    R.Follows limits.calls w d R.value fun watch => f.applyWatched watch limits args :=
  Eval.follows_uses hf (Eval.follows_usesAll hargs (levels_follow.call hf hargs))

end

/-! ## Anything goes -/

/-- The regime that everything is within. Its stages are the identities that come next. -/
def Regime.any : Regime where
  Stage := Identity
  later w w' := w ≤ w'
  node _ _ := True
  scope _ _ := True
  extent w _ i := w = i
  confines := False
  later_refl w := Nat.le_refl w
  later_trans h h' := Nat.le_trans h h'
  node_later _ _ := trivial
  scope_later _ _ := trivial
  plain _ := trivial
  returned _ _ _ := trivial
  function _ := ⟨trivial, False.elim⟩
  quote _ h := h.elim
  newScope {w _ _} h := ⟨w, Nat.le_refl w, h, trivial, fun _ _ => .inl trivial⟩
  newObject {_ _ i _} h _ :=
    ⟨i + 1, Nat.le_succ_of_le (Nat.le_of_eq h), rfl, trivial, fun _ _ => trivial⟩

namespace Regime

theorem value_any (w : Identity) (v : Value) : any.value w v := v.all_of_forall fun _ => trivial

theorem at_any (m : Machine) : any.At m.fresh m.depth m :=
  ⟨fun _ _ b _ => value_any m.fresh b.2, fun _ _ _ _ => trivial, rfl, rfl⟩

end Regime

end Monkey
