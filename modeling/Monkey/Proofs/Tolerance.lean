import Mathlib.Data.List.Nodup
import Monkey.Syntax.Json

/-!
# Reading back what was written as JSON

What was written can be read back after others have handled it: they may put the fields of an object
in another order, add fields of their own, and leave an empty `alternative` out, in every object and
all at once. Programs and diagnostics come back as they were.
-/

namespace Monkey

/-! ## What may be read in place of what was written -/

mutual

/-- The second value is the first one after changes that make no difference to a reader. -/
inductive Json.Loosens : Json → Json → Prop
  | null : Loosens .null .null
  | boolean (b : Bool) : Loosens (.boolean b) (.boolean b)
  | integer (n : Int) : Loosens (.integer n) (.integer n)
  | decimal (text : String) : Loosens (.decimal text) (.decimal text)
  | string (text : String) : Loosens (.string text) (.string text)
  | array {xs ys : List Json} : Json.ItemsLoosen xs ys → Loosens (.array xs) (.array ys)
  /-- The fields that are kept and any others, in any order. The others have names that the written
  object does not have. -/
  | object {fields kept extra fields' : List (String × Json)} : Json.FieldsLoosen fields kept →
    (∀ f ∈ extra, f.1 ∉ fields.map (·.1)) → fields'.Perm (kept ++ extra) →
    Loosens (.object fields) (.object fields')

inductive Json.ItemsLoosen : List Json → List Json → Prop
  | nil : ItemsLoosen [] []
  | cons {x y : Json} {xs ys : List Json} : Json.Loosens x y → ItemsLoosen xs ys →
    ItemsLoosen (x :: xs) (y :: ys)

/-- Each field is kept, but an `alternative` that holds nothing may be left out. -/
inductive Json.FieldsLoosen : List (String × Json) → List (String × Json) → Prop
  | nil : FieldsLoosen [] []
  | keep {name : String} {x y : Json} {fields kept : List (String × Json)} : Json.Loosens x y →
    FieldsLoosen fields kept → FieldsLoosen ((name, x) :: fields) ((name, y) :: kept)
  | drop {fields kept : List (String × Json)} : FieldsLoosen fields kept →
    FieldsLoosen (("alternative", .null) :: fields) kept

end

namespace Json

mutual

theorem Loosens.refl : ∀ j : Json, j.Loosens j
  | .null => .null
  | .boolean b => .boolean b
  | .integer n => .integer n
  | .decimal text => .decimal text
  | .string text => .string text
  | .array items => .array (ItemsLoosen.refl items)
  | .object fields =>
    .object (FieldsLoosen.refl fields) (List.forall_mem_nil _)
      (.of_eq (List.append_nil fields).symm)

theorem ItemsLoosen.refl : ∀ items : List Json, ItemsLoosen items items
  | [] => .nil
  | x :: items => .cons (Loosens.refl x) (ItemsLoosen.refl items)

theorem FieldsLoosen.refl : ∀ fields : List (String × Json), FieldsLoosen fields fields
  | [] => .nil
  | (_, x) :: fields => .keep (Loosens.refl x) (FieldsLoosen.refl fields)

end

/-! ## Fields -/

variable {fields kept : List (String × Json)} {name : String} {x y j : Json}

theorem FieldsLoosen.of_mem (h : FieldsLoosen fields kept) (hy : (name, y) ∈ kept) :
    ∃ x, (name, x) ∈ fields ∧ x.Loosens y := by
  induction fields generalizing kept with
  | nil =>
    cases h
    simp at hy
  | cons f fields ih =>
    cases h with
    | keep hloosens hrest =>
      rcases List.mem_cons.mp hy with heq | hy
      · cases heq
        exact ⟨_, List.mem_cons_self, hloosens⟩
      · obtain ⟨x, hx, hxy⟩ := ih hrest hy
        exact ⟨x, List.mem_cons_of_mem _ hx, hxy⟩
    | drop hrest =>
      obtain ⟨x, hx, hxy⟩ := ih hrest hy
      exact ⟨x, List.mem_cons_of_mem _ hx, hxy⟩

theorem FieldsLoosen.exists_mem (h : FieldsLoosen fields kept) (hx : (name, x) ∈ fields)
    (hkept : name = "alternative" → x ≠ .null) : ∃ y, (name, y) ∈ kept := by
  induction fields generalizing kept with
  | nil => simp at hx
  | cons f fields ih =>
    cases h with
    | keep _ hrest =>
      rcases List.mem_cons.mp hx with heq | hx
      · cases heq
        exact ⟨_, List.mem_cons_self⟩
      · obtain ⟨y, hy⟩ := ih hrest hx
        exact ⟨y, List.mem_cons_of_mem _ hy⟩
    | drop hrest =>
      rcases List.mem_cons.mp hx with heq | hx
      · cases heq
        exact absurd rfl (hkept rfl)
      · exact ih hrest hx

theorem field?_cases (name : String) (fields : List (String × Json)) :
    ((object fields).field? name = none ∧ ∀ x, (name, x) ∉ fields) ∨
      ∃ y, (object fields).field? name = some y ∧ (name, y.1) ∈ fields := by
  simp only [field?]
  split
  · rename_i f hf
    have hname : f.1 = name := by simpa using List.find?_some hf
    have hmem : (name, f.2) ∈ fields := hname ▸ List.mem_of_find?_eq_some hf
    exact .inr ⟨_, rfl, hmem⟩
  · rename_i hnone
    refine .inl ⟨rfl, fun x hx => ?_⟩
    have := List.find?_eq_none.mp hnone (name, x) hx
    simp at this

theorem Loosens.eq_object (h : (Json.object fields).Loosens j) :
    ∃ fields', j = .object fields' := by
  cases h with
  | object _ _ _ => exact ⟨_, rfl⟩

theorem Loosens.items?_eq_none (h : (Json.object fields).Loosens j) : j.items? = none := by
  obtain ⟨fields', rfl⟩ := h.eq_object
  rfl

theorem Loosens.of_field? (h : (Json.object fields).Loosens j) (hname : name ∈ fields.map (·.1))
    {y : j.Part} (hy : j.field? name = some y) : ∃ x, (name, x) ∈ fields ∧ x.Loosens y.1 := by
  cases h with
  | object hkept hextra hperm =>
    rcases field?_cases name _ with ⟨hnone, -⟩ | ⟨y', hy', hmem⟩
    · rw [hnone] at hy
      contradiction
    · cases hy.symm.trans hy'
      rcases List.mem_append.mp (hperm.mem_iff.mp hmem) with hmem | hmem
      · exact hkept.of_mem hmem
      · exact absurd hname (hextra _ hmem)

theorem Loosens.exists_field? (h : (Json.object fields).Loosens j) (hx : (name, x) ∈ fields)
    (hkept : name = "alternative" → x ≠ .null) : ∃ y, j.field? name = some y := by
  cases h with
  | object hfields hextra hperm =>
    rcases field?_cases name _ with ⟨-, hmissing⟩ | ⟨y, hy, -⟩
    · obtain ⟨y, hy⟩ := hfields.exists_mem hx hkept
      exact absurd (hperm.mem_iff.mpr (List.mem_append_left _ hy)) (hmissing y)
    · exact ⟨y, hy⟩

theorem Loosens.field? (h : (Json.object fields).Loosens j) (name : String) (x : Json)
    (hnodup : (fields.map (·.1)).Nodup) (hx : (name, x) ∈ fields)
    (hkept : name = "alternative" → x ≠ .null) :
    ∃ y, j.field? name = some y ∧ x.Loosens y.1 := by
  obtain ⟨y, hy⟩ := h.exists_field? hx hkept
  obtain ⟨x', hx', hloosens⟩ := h.of_field? (List.mem_map_of_mem hx) hy
  cases List.inj_on_of_nodup_map hnodup hx hx' rfl
  exact ⟨y, hy, hloosens⟩

theorem Loosens.alternative? (h : (Json.object fields).Loosens j)
    (hnodup : (fields.map (·.1)).Nodup) (hx : ("alternative", .null) ∈ fields) :
    j.field? "alternative" = none ∨ ∃ y, j.field? "alternative" = some y ∧ y.1 = .null := by
  cases hy : j.field? "alternative" with
  | none => exact .inl rfl
  | some y =>
    obtain ⟨x', hx', hloosens⟩ := h.of_field? (List.mem_map_of_mem hx) hy
    cases List.inj_on_of_nodup_map hnodup hx hx' rfl
    refine .inr ⟨y, rfl, ?_⟩
    generalize y.1 = z at hloosens
    cases hloosens
    rfl

/-! ## Items and nodes -/

theorem items?_array (ys : List Json) :
    ∃ items, (array ys).items? = some items ∧ items.map (·.1) = ys := by
  refine ⟨_, rfl, ?_⟩
  exact List.map_map.trans (List.attach_map_subtype_val ys)

theorem Loosens.items? {xs : List Json} (h : (Json.array xs).Loosens j) :
    ∃ items js, j.items? = some items ∧ ItemsLoosen xs js ∧
      ∀ {α : Type} (f : Json → Option α), items.mapM (fun x => f x.1) = js.mapM f := by
  cases h with
  | @array _ js hloosen =>
    obtain ⟨items, hitems, hmap⟩ := items?_array js
    refine ⟨items, js, hitems, hloosen, fun f => ?_⟩
    exact List.mapM_map.symm.trans (congrArg (List.mapM f) hmap)

theorem Loosens.eq_string {text : String} (h : (Json.string text).Loosens j) :
    j = .string text := by
  cases h
  rfl

theorem Loosens.node? {kind : String} {content : Json} (h : (Json.node kind content).Loosens j) :
    ∃ c, j.node? = some (kind, c) ∧ content.Loosens c.1 := by
  obtain ⟨tag, htag, hkind⟩ := h.field? "node" (.string kind) (by simp) (by simp) (by simp)
  obtain ⟨c, hc, hcontent⟩ := h.field? "value" content (by simp) (by simp) (by simp)
  refine ⟨c, ?_, hcontent⟩
  simp [Json.node?, h.items?_eq_none, htag, hc, hkind.eq_string, Json.choice?]

theorem ItemsLoosen.mapM_eq {α : Type} {write : α → Json} {read : Json → Option α} {xs : List α}
    {js : List Json} (h : ItemsLoosen (xs.map write) js)
    (hread : ∀ x ∈ xs, ∀ j, (write x).Loosens j → read j = some x) : js.mapM read = some xs := by
  induction xs generalizing js with
  | nil =>
    cases h
    rfl
  | cons x xs ih =>
    cases h with
    | cons hx hxs =>
      obtain ⟨hread, hrest⟩ := List.forall_mem_cons.mp hread
      simp [hread _ hx, ih hxs hrest]

end Json

/-! ## Programs -/

theorem UnaryOp.ofSymbol?_symbol (op : UnaryOp) : ofSymbol? op.symbol = some op := by
  cases op <;> rfl

theorem BinaryOp.ofSymbol?_symbol (op : BinaryOp) : ofSymbol? op.symbol = some op := by
  cases op <;> rfl

theorem namesOfJson?_loosened {names : List String} {j : Json}
    (h : (Json.array (names.map .string)).Loosens j) : namesOfJson? j = some names := by
  obtain ⟨items, js, hitems, hloosen, hmapM⟩ := h.items?
  have hread : js.mapM Json.string? = some names := by
    refine hloosen.mapM_eq fun name _ j hj => ?_
    rw [hj.eq_string]
    rfl
  simp [namesOfJson?, hitems, hmapM Json.string?, hread]

theorem Block.toJson_eq (b : Block) :
    Block.toJson b = .object [("statements", .array (Stmt.listToJson b))] := by
  cases b <;> simp [Block.toJson, Stmt.listToJson]

theorem Block.ofJson?_loosened {b : Block} {j : Json}
    (hlist : ∀ js, Json.ItemsLoosen (Stmt.listToJson b) js → js.mapM Stmt.ofJson? = some b)
    (h : (Block.toJson b).Loosens j) : Block.ofJson? j = some b := by
  rw [Block.toJson_eq] at h
  obtain ⟨ss, hss, hloosens⟩ := h.field? "statements" _ (by simp) List.mem_cons_self (by simp)
  obtain ⟨items, js, hitems, hloosen, hmapM⟩ := hloosens.items?
  rw [Block.ofJson?]
  simp [Json.record?, Json.fields?, h.items?_eq_none, hss, hitems, hmapM Stmt.ofJson?,
    hlist js hloosen]

theorem Json.Loosens.branch? {condition consequence alternative j : Json}
    (h : (Json.object [("condition", condition), ("consequence", consequence),
      ("alternative", alternative)]).Loosens j) :
    ∃ c t e, j.branch? = some (c, t, e) ∧ condition.Loosens c.1 ∧ consequence.Loosens t.1 ∧
      (e = none ∧ alternative = .null ∨ ∃ x, e = some x ∧ alternative.Loosens x.1) := by
  obtain ⟨c, hc, hcondition⟩ := h.field? "condition" condition (by simp) (by simp) (by simp)
  obtain ⟨t, ht, hconsequence⟩ := h.field? "consequence" consequence (by simp) (by simp) (by simp)
  have hitems := h.items?_eq_none
  -- Only an alternative that is null may have been left out.
  by_cases hnull : alternative = .null
  · subst hnull
    rcases h.alternative? (by simp) (by simp) with hnone | ⟨e, he, hloosens⟩
    · refine ⟨c, t, none, ?_, hcondition, hconsequence, .inl ⟨rfl, rfl⟩⟩
      simp [Json.branch?, Json.record?, Json.fields?, hitems, hc, ht, hnone]
    · refine ⟨c, t, some e, ?_, hcondition, hconsequence, .inr ⟨e, rfl, hloosens ▸ .null⟩⟩
      simp [Json.branch?, Json.record?, Json.fields?, hitems, hc, ht, he]
  · obtain ⟨e, he, hloosens⟩ :=
      h.field? "alternative" alternative (by simp) (by simp) (fun _ => hnull)
    refine ⟨c, t, some e, ?_, hcondition, hconsequence, .inr ⟨e, rfl, hloosens⟩⟩
    simp [Json.branch?, Json.record?, Json.fields?, hitems, hc, ht, he]

/-- Reads a pair of a hash. -/
def Expr.pairOfJson? (j : Json) : Option (Expr × Expr) := do
  let [key, value] ← j.record? ["key", "value"] | none
  return (← Expr.ofJson? key.1, ← Expr.ofJson? value.1)

theorem Expr.ofJson?_hash {j : Json} {c : j.Part} {items : List c.1.Part}
    (hnode : j.node? = some ("hash", c)) (hitems : c.1.items? = some items) :
    Expr.ofJson? j = do return .hash (← items.mapM fun x => Expr.pairOfJson? x.1) := by
  rw [Expr.ofJson?, hnode, Option.bind_eq_bind, Option.bind_some]
  dsimp only
  simp only [Option.bind_eq_bind, Option.bind_some, hitems]
  congr 2
  funext p
  unfold Expr.pairOfJson?
  cases p.1.record? ["key", "value"] with
  | none => rfl
  | some parts => rcases parts with _ | ⟨key, _ | ⟨value, _ | ⟨other, parts⟩⟩⟩ <;> rfl

mutual

theorem Expr.ofJson?_loosened :
    ∀ (e : Expr) {j : Json}, e.toJson.Loosens j → Expr.ofJson? j = some e
  | .identifier _, j, h | .string _, j, h => by
    obtain ⟨c, hc, hcontent⟩ := Json.Loosens.node? h
    rw [Expr.ofJson?, hc, Option.bind_eq_bind, Option.bind_some]
    dsimp only
    simp [hcontent.eq_string, Json.string?]
  | .integer _, j, h => by
    obtain ⟨⟨c, hlt⟩, hc, hcontent⟩ := Json.Loosens.node? h
    cases hcontent
    rw [Expr.ofJson?, hc, Option.bind_eq_bind, Option.bind_some]
    dsimp only
    simp [Json.integer?]
  | .boolean _, j, h => by
    obtain ⟨⟨c, hlt⟩, hc, hcontent⟩ := Json.Loosens.node? h
    cases hcontent
    rw [Expr.ofJson?, hc, Option.bind_eq_bind, Option.bind_some]
    dsimp only
    simp [Json.boolean?]
  | .array elements, j, h => by
    obtain ⟨c, hc, hcontent⟩ := Json.Loosens.node? h
    obtain ⟨items, js, hitems, hloosen, hmapM⟩ := hcontent.items?
    rw [Expr.ofJson?, hc, Option.bind_eq_bind, Option.bind_some]
    dsimp only
    simp [hitems, hmapM Expr.ofJson?, Expr.ofJson?_list elements hloosen]
  | .hash pairs, j, h => by
    obtain ⟨c, hc, hcontent⟩ := Json.Loosens.node? h
    obtain ⟨items, js, hitems, hloosen, hmapM⟩ := hcontent.items?
    rw [Expr.ofJson?_hash hc hitems, hmapM, Expr.pairOfJson?_list pairs hloosen]
    rfl
  | .unary op right, j, h => by
    obtain ⟨c, hc, hcontent⟩ := Json.Loosens.node? h
    obtain ⟨o, ho, hop⟩ := hcontent.field? "operator" _ (by simp) List.mem_cons_self (by simp)
    obtain ⟨r, hr, hright⟩ := hcontent.field? "right" right.toJson (by simp) (by simp) (by simp)
    rw [Expr.ofJson?, hc, Option.bind_eq_bind, Option.bind_some]
    dsimp only
    simp [Json.fields?, ho, hr, hop.eq_string, Json.choice?, UnaryOp.ofSymbol?_symbol,
      right.ofJson?_loosened hright]
  | .binary left op right, j, h => by
    obtain ⟨c, hc, hcontent⟩ := Json.Loosens.node? h
    obtain ⟨l, hl, hleft⟩ := hcontent.field? "left" left.toJson (by simp) (by simp) (by simp)
    obtain ⟨o, ho, hop⟩ :=
      hcontent.field? "operator" (.string op.symbol) (by simp) (by simp) (by simp)
    obtain ⟨r, hr, hright⟩ := hcontent.field? "right" right.toJson (by simp) (by simp) (by simp)
    rw [Expr.ofJson?, hc, Option.bind_eq_bind, Option.bind_some]
    dsimp only
    simp [Json.fields?, hl, ho, hr, hop.eq_string, Json.choice?, BinaryOp.ofSymbol?_symbol,
      left.ofJson?_loosened hleft, right.ofJson?_loosened hright]
  -- The alternative is a block, null, or not there; only the last two mean that there is none.
  | .conditional condition consequence none, j, h => by
    obtain ⟨content, hnode, hcontent⟩ := Json.Loosens.node? h
    obtain ⟨c, t, e, hbranch, hc, ht, he⟩ := hcontent.branch?
    have hcondition := condition.ofJson?_loosened hc
    have hconsequence := Block.ofJson?_loosened (fun _ => Stmt.ofJson?_list consequence) ht
    rw [Expr.ofJson?, hnode, Option.bind_eq_bind, Option.bind_some]
    dsimp only
    rcases he with ⟨rfl, -⟩ | ⟨⟨x, hlt⟩, rfl, hx⟩
    · simp [hbranch, hcondition, hconsequence]
    · cases hx
      simp [hbranch, hcondition, hconsequence, Json.isNull]
  | .conditional condition consequence (some alternative), j, h => by
    obtain ⟨content, hnode, hcontent⟩ := Json.Loosens.node? h
    obtain ⟨c, t, e, hbranch, hc, ht, he⟩ := hcontent.branch?
    have hcondition := condition.ofJson?_loosened hc
    have hconsequence := Block.ofJson?_loosened (fun _ => Stmt.ofJson?_list consequence) ht
    rw [Block.optionToJson] at he
    rcases he with ⟨-, hnull⟩ | ⟨x, rfl, hx⟩
    · rw [Block.toJson_eq] at hnull
      cases hnull
    · have halternative := Block.ofJson?_loosened (fun _ => Stmt.ofJson?_list alternative) hx
      have hisNull : x.1.isNull = false := by
        rw [Block.toJson_eq] at hx
        obtain ⟨fields, hfields⟩ := hx.eq_object
        rw [hfields]
        rfl
      rw [Expr.ofJson?, hnode, Option.bind_eq_bind, Option.bind_some]
      dsimp only
      simp [hbranch, hcondition, hconsequence, halternative, hisNull]
  | .function parameters body, j, h => by
    obtain ⟨c, hc, hcontent⟩ := Json.Loosens.node? h
    obtain ⟨p, hp, hparameters⟩ :=
      hcontent.field? "parameters" _ (by simp) List.mem_cons_self (by simp)
    obtain ⟨b, hb, hbody⟩ :=
      hcontent.field? "body" (Block.toJson body) (by simp) (by simp) (by simp)
    have hbody' := Block.ofJson?_loosened (fun _ => Stmt.ofJson?_list body) hbody
    rw [Expr.ofJson?, hc, Option.bind_eq_bind, Option.bind_some]
    dsimp only
    simp [Json.record?, Json.fields?, hcontent.items?_eq_none, hp, hb,
      namesOfJson?_loosened hparameters, hbody']
  | .call callee arguments, j, h => by
    obtain ⟨c, hc, hcontent⟩ := Json.Loosens.node? h
    obtain ⟨f, hf, hcallee⟩ :=
      hcontent.field? "function" callee.toJson (by simp) (by simp) (by simp)
    obtain ⟨a, ha, harguments⟩ := hcontent.field? "arguments"
      (.array (Expr.listToJson arguments)) (by simp) (by simp) (by simp)
    obtain ⟨items, js, hitems, hloosen, hmapM⟩ := harguments.items?
    rw [Expr.ofJson?, hc, Option.bind_eq_bind, Option.bind_some]
    dsimp only
    simp [Json.fields?, hf, ha, hitems, callee.ofJson?_loosened hcallee, hmapM Expr.ofJson?,
      Expr.ofJson?_list arguments hloosen]
  | .index left i, j, h => by
    obtain ⟨c, hc, hcontent⟩ := Json.Loosens.node? h
    obtain ⟨l, hl, hleft⟩ := hcontent.field? "left" left.toJson (by simp) (by simp) (by simp)
    obtain ⟨x, hx, hindex⟩ := hcontent.field? "index" i.toJson (by simp) (by simp) (by simp)
    rw [Expr.ofJson?, hc, Option.bind_eq_bind, Option.bind_some]
    dsimp only
    simp [Json.fields?, hl, hx, left.ofJson?_loosened hleft, i.ofJson?_loosened hindex]

theorem Expr.ofJson?_list : ∀ (es : List Expr) {js : List Json},
    Json.ItemsLoosen (Expr.listToJson es) js → js.mapM Expr.ofJson? = some es
  | [], js, h => by
    cases h
    rfl
  | e :: es, js, h => by
    cases h with
    | cons he hes => simp [e.ofJson?_loosened he, Expr.ofJson?_list es hes]

theorem Expr.pairOfJson?_list : ∀ (ps : List (Expr × Expr)) {js : List Json},
    Json.ItemsLoosen (Expr.pairsToJson ps) js → js.mapM Expr.pairOfJson? = some ps
  | [], js, h => by
    cases h
    rfl
  | (key, value) :: ps, js, h => by
    cases h with
    | @cons _ j _ _ hpair hps =>
      obtain ⟨k, hk, hkey⟩ := hpair.field? "key" key.toJson (by simp) (by simp) (by simp)
      obtain ⟨v, hv, hvalue⟩ := hpair.field? "value" value.toJson (by simp) (by simp) (by simp)
      have hread : Expr.pairOfJson? j = some (key, value) := by
        simp [Expr.pairOfJson?, Json.record?, Json.fields?, hpair.items?_eq_none, hk, hv,
          key.ofJson?_loosened hkey, value.ofJson?_loosened hvalue]
      simp [hread, Expr.pairOfJson?_list ps hps]

theorem Stmt.ofJson?_loosened :
    ∀ (s : Stmt) {j : Json}, s.toJson.Loosens j → Stmt.ofJson? j = some s
  | .bind name value, j, h => by
    obtain ⟨c, hc, hcontent⟩ := Json.Loosens.node? h
    obtain ⟨n, hn, hname⟩ := hcontent.field? "name" (.string name) (by simp) (by simp) (by simp)
    obtain ⟨v, hv, hvalue⟩ := hcontent.field? "value" value.toJson (by simp) (by simp) (by simp)
    rw [Stmt.ofJson?, hc, Option.bind_eq_bind, Option.bind_some]
    dsimp only
    simp [Json.fields?, hn, hv, hname.eq_string, Json.string?, value.ofJson?_loosened hvalue]
  | .ret value, j, h | .expr value, j, h => by
    obtain ⟨c, hc, hcontent⟩ := Json.Loosens.node? h
    rw [Stmt.ofJson?, hc, Option.bind_eq_bind, Option.bind_some]
    dsimp only
    simp [value.ofJson?_loosened hcontent]

theorem Stmt.ofJson?_list : ∀ (ss : List Stmt) {js : List Json},
    Json.ItemsLoosen (Stmt.listToJson ss) js → js.mapM Stmt.ofJson? = some ss
  | [], js, h => by
    cases h
    rfl
  | s :: ss, js, h => by
    cases h with
    | cons hs hss => simp [s.ofJson?_loosened hs, Stmt.ofJson?_list ss hss]

end

theorem Program.ofJson?_loosened (p : Program) {j : Json} (h : p.toJson.Loosens j) :
    Program.ofJson? j = some p := by
  rw [Program.toJson, ← Block.toJson_eq] at h
  simp [Program.ofJson?, Block.ofJson?_loosened (fun _ => Stmt.ofJson?_list p.statements) h]

/-! ## Diagnostics -/

theorem Json.Loosens.coordinate? {n : Nat} {j : Json} (h : (Json.integer n).Loosens j)
    (hn : n < 4294967296) : j.coordinate? = some n := by
  cases h
  have hfits : 0 ≤ (n : Int) ∧ (n : Int) < 4294967296 := by omega
  rw [Json.coordinate?, Option.bind_eq_bind, Option.bind_eq_some_iff]
  refine ⟨n, rfl, ?_⟩
  rw [if_pos hfits, Int.toNat_natCast]

theorem Diagnostic.ofJson?_loosened {d : Diagnostic} (hd : d.span.Fits) {j : Json}
    (h : d.toJson.Loosens j) : Diagnostic.ofJson? j = some d := by
  obtain ⟨⟨hline, hcolumn⟩, hline', hcolumn'⟩ := hd
  obtain ⟨m, hm, hmessage⟩ :=
    h.field? "message" (.string d.message) (by simp) (by simp) (by simp)
  obtain ⟨l, hl, hfirst⟩ :=
    h.field? "start_line" (.integer d.span.first.line) (by simp) (by simp) (by simp)
  obtain ⟨c, hc, hfirst'⟩ :=
    h.field? "start_col" (.integer d.span.first.column) (by simp) (by simp) (by simp)
  obtain ⟨l', hl', hlast⟩ :=
    h.field? "end_line" (.integer d.span.last.line) (by simp) (by simp) (by simp)
  obtain ⟨c', hc', hlast'⟩ :=
    h.field? "end_col" (.integer d.span.last.column) (by simp) (by simp) (by simp)
  simp [Diagnostic.ofJson?, hm, hl, hc, hl', hc', hmessage.eq_string, Json.string?,
    hfirst.coordinate? hline, hfirst'.coordinate? hcolumn, hlast.coordinate? hline',
    hlast'.coordinate? hcolumn']

theorem Diagnostic.listOfJson?_loosened {ds : List Diagnostic} (hds : ∀ d ∈ ds, d.span.Fits)
    {j : Json} (h : (Diagnostic.listToJson ds).Loosens j) :
    Diagnostic.listOfJson? j = some ds := by
  obtain ⟨items, js, hitems, hloosen, hmapM⟩ := Json.Loosens.items? h
  have hread : js.mapM Diagnostic.ofJson? = some ds :=
    hloosen.mapM_eq fun d hd _ => Diagnostic.ofJson?_loosened (hds d hd)
  simp [Diagnostic.listOfJson?, hitems, hmapM Diagnostic.ofJson?, hread]

/-! ## Both -/

/-- Fields in another order, new fields and empty alternatives left out do not change what is read.
-/
theorem ofJson?_tolerant :
    (∀ (p : Program) (j : Json), p.toJson.Loosens j → Program.ofJson? j = some p) ∧
      ∀ (ds : List Diagnostic) (j : Json), (∀ d ∈ ds, d.span.Fits) →
        (Diagnostic.listToJson ds).Loosens j → Diagnostic.listOfJson? j = some ds :=
  ⟨fun p _ => p.ofJson?_loosened, fun _ _ hds => Diagnostic.listOfJson?_loosened hds⟩

/-- `if (x) { 1 }` -/
def branching : Program :=
  ⟨[.expr (.conditional (.identifier "x") [.expr (.integer 1)] none)]⟩

/-- The same program, rearranged: its branch comes without an alternative, and the program and the
branch have fields that nobody asked for. -/
def Json.rearranged : Json :=
  .object
    [("version", .integer 2),
      ("statements", .array
        [.object
          [("value", .object
              [("node", .string "if"),
                ("value", .object
                  [("consequence", Block.toJson [.expr (.integer 1)]),
                    ("condition", (Expr.identifier "x").toJson)]),
                ("comment", .array [])]),
            ("node", .string "expression")]])]

theorem branching_loosens : branching.toJson.Loosens .rearranged := by
  refine @Json.Loosens.object _ _ [("version", .integer 2)] _
    (.keep (.array (.cons ?_ .nil)) .nil) (by simp) (.swap _ _ _)
  refine .object (.keep (.refl _) (.keep ?_ .nil)) (List.forall_mem_nil _) (.swap _ _ _)
  refine @Json.Loosens.object _ _ [("comment", .array [])] _
    (.keep (.refl _) (.keep ?_ .nil)) (by simp) (.refl _)
  exact .object (.keep (.refl _) (.keep (.refl _) (.drop .nil))) (List.forall_mem_nil _)
    (.swap _ _ _)

theorem ofJson?_tolerant_rearranged :
    Program.ofJson? .rearranged = some branching ∧
      Diagnostic.listOfJson? (Diagnostic.listToJson [⟨"expected )", ⟨⟨1, 12⟩, ⟨1, 4294967295⟩⟩⟩]) =
        some [⟨"expected )", ⟨⟨1, 12⟩, ⟨1, 4294967295⟩⟩⟩] :=
  ⟨ofJson?_tolerant.1 branching .rearranged branching_loosens,
    ofJson?_tolerant.2 _ _ (by simp [Span.Fits, Position.Fits]) (.refl _)⟩

end Monkey
