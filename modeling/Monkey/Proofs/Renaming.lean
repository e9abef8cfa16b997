import Mathlib.Data.List.Find
import Monkey.Eval
import Monkey.Proofs.Rewriting

/-!
# Renaming

A renaming gives other names to names, other places to scopes and other identities to objects, and
never the same to two of them. It keeps the names that evaluation knows by itself. Here is what it
does to syntax, to values and to the machine.
-/

namespace Monkey

/-! ## Names in syntax -/

/-- Gives every name another one and keeps everything else. -/
def renamer (r : String → String) : Rewriter Id := { Rewriter.keep with identifier := r }

section

variable (r : String → String)

def Expr.rename (e : Expr) : Expr := (renamer r).expr e

def Stmt.rename (s : Stmt) : Stmt := (renamer r).stmt s

def Block.rename (b : Block) : Block := (renamer r).stmts b

def Program.rename (p : Program) : Program := (renamer r).program p

theorem renamer_names (ns : List String) : (renamer r).names ns = ns.map r :=
  Rewriter.names_eq_map _ ns

theorem renamer_exprs (es : List Expr) : (renamer r).exprs es = es.map (Expr.rename r) :=
  Rewriter.exprs_eq_map _ es

theorem renamer_exprPairs (ps : List (Expr × Expr)) :
    (renamer r).exprPairs ps = ps.map (Prod.map (Expr.rename r) (Expr.rename r)) :=
  Rewriter.exprPairs_eq_map _ ps

theorem renamer_alternativeBlock (o : Option Block) :
    (renamer r).alternativeBlock o = o.map (Block.rename r) := by
  cases o <;> rfl

@[simp] theorem Expr.rename_identifier (n : String) :
    (Expr.identifier n).rename r = .identifier (r n) := rfl

@[simp] theorem Expr.rename_integer (n : Int64) : (Expr.integer n).rename r = .integer n := rfl

@[simp] theorem Expr.rename_boolean (b : Bool) : (Expr.boolean b).rename r = .boolean b := rfl

@[simp] theorem Expr.rename_string (text : String) : (Expr.string text).rename r = .string text :=
  rfl

@[simp] theorem Expr.rename_array (es : List Expr) :
    (Expr.array es).rename r = .array (es.map (Expr.rename r)) :=
  congrArg Expr.array (renamer_exprs r es)

@[simp] theorem Expr.rename_hash (ps : List (Expr × Expr)) :
    (Expr.hash ps).rename r = .hash (ps.map (Prod.map (Expr.rename r) (Expr.rename r))) :=
  congrArg Expr.hash (renamer_exprPairs r ps)

@[simp] theorem Expr.rename_unary (op : UnaryOp) (right : Expr) :
    (Expr.unary op right).rename r = .unary op (right.rename r) := rfl

@[simp] theorem Expr.rename_binary (left : Expr) (op : BinaryOp) (right : Expr) :
    (Expr.binary left op right).rename r = .binary (left.rename r) op (right.rename r) := rfl

@[simp] theorem Expr.rename_conditional (c : Expr) (ss : Block) (o : Option Block) :
    (Expr.conditional c ss o).rename r =
      .conditional (c.rename r) (Block.rename r ss) (o.map (Block.rename r)) :=
  congrArg (Expr.conditional (c.rename r) (Block.rename r ss)) (renamer_alternativeBlock r o)

@[simp] theorem Expr.rename_function (ps : List String) (b : Block) :
    (Expr.function ps b).rename r = .function (ps.map r) (Block.rename r b) :=
  congrArg (Expr.function · (Block.rename r b)) (renamer_names r ps)

@[simp] theorem Expr.rename_call (callee : Expr) (args : List Expr) :
    (Expr.call callee args).rename r = .call (callee.rename r) (args.map (Expr.rename r)) :=
  congrArg (Expr.call (callee.rename r)) (renamer_exprs r args)

@[simp] theorem Expr.rename_index (left index : Expr) :
    (Expr.index left index).rename r = .index (left.rename r) (index.rename r) := rfl

@[simp] theorem Stmt.rename_bind (n : String) (value : Expr) :
    (Stmt.bind n value).rename r = .bind (r n) (value.rename r) := rfl

@[simp] theorem Stmt.rename_ret (value : Expr) :
    (Stmt.ret value).rename r = .ret (value.rename r) := rfl

@[simp] theorem Stmt.rename_expr (value : Expr) :
    (Stmt.expr value).rename r = .expr (value.rename r) := rfl

@[simp] theorem Block.rename_nil : Block.rename r [] = [] := rfl

@[simp] theorem Block.rename_cons (s : Stmt) (b : Block) :
    Block.rename r (s :: b) = s.rename r :: Block.rename r b := rfl

end

mutual

theorem Expr.rename_id : ∀ e : Expr, e.rename id = e
  | .identifier _ | .integer _ | .boolean _ | .string _ => rfl
  | .array es => by
    rw [Expr.rename_array, Expr.map_rename_id es]
  | .hash ps => by
    rw [Expr.rename_hash, Expr.mapPairs_rename_id ps]
  | .unary op right => by
    rw [Expr.rename_unary, right.rename_id]
  | .binary left op right => by
    rw [Expr.rename_binary, left.rename_id, right.rename_id]
  | .conditional c ss o => by
    rw [Expr.rename_conditional, c.rename_id, Block.rename_id ss, Block.mapElse_rename_id o]
  | .function ps b => by
    rw [Expr.rename_function, List.map_id, Block.rename_id b]
  | .call callee args => by
    rw [Expr.rename_call, callee.rename_id, Expr.map_rename_id args]
  | .index left index => by
    rw [Expr.rename_index, left.rename_id, index.rename_id]

theorem Expr.map_rename_id : ∀ es : List Expr, es.map (Expr.rename id) = es
  | [] => rfl
  | e :: es => by
    rw [List.map_cons, e.rename_id, Expr.map_rename_id es]

theorem Expr.mapPairs_rename_id :
    ∀ ps : List (Expr × Expr), ps.map (Prod.map (Expr.rename id) (Expr.rename id)) = ps
  | [] => rfl
  | (key, value) :: ps => by
    rw [List.map_cons, Prod.map, key.rename_id, value.rename_id, Expr.mapPairs_rename_id ps]

theorem Stmt.rename_id : ∀ s : Stmt, s.rename id = s
  | .bind n value => by
    rw [Stmt.rename_bind, value.rename_id, id]
  | .ret value => by
    rw [Stmt.rename_ret, value.rename_id]
  | .expr value => by
    rw [Stmt.rename_expr, value.rename_id]

theorem Block.rename_id : ∀ b : List Stmt, Block.rename id b = b
  | [] => rfl
  | s :: b => by
    rw [Block.rename_cons, s.rename_id, Block.rename_id b]

theorem Block.mapElse_rename_id : ∀ o : Option (List Stmt), o.map (Block.rename id) = o
  | none => rfl
  | some b => by
    rw [Option.map_some, Block.rename_id b]

end

/-! ## Renamings -/

/-- The names that evaluation knows by itself. -/
def reservedNames : List String := "quote" :: "unquote" :: Builtin.all.map Builtin.name

structure Renaming where
  name : String → String
  scope : ScopeId → ScopeId
  identity : Identity → Identity
  name_injective : Function.Injective name
  scope_injective : Function.Injective scope
  identity_injective : Function.Injective identity
  keeps : ∀ n ∈ reservedNames, name n = n

namespace Renaming

/-- Gives other names only. -/
def ofName (r : String → String) (hr : Function.Injective r)
    (hkeeps : ∀ n ∈ reservedNames, r n = n) : Renaming :=
  ⟨r, id, id, hr, fun _ _ h => h, fun _ _ h => h, hkeeps⟩

/-- Changes nothing. -/
def identical : Renaming := ofName id (fun _ _ h => h) fun _ _ => rfl

variable (ρ : Renaming)

theorem name_eq_iff {n k : String} (hk : k ∈ reservedNames) : ρ.name n = k ↔ n = k := by
  rw [← ρ.name_injective.eq_iff (a := n), ρ.keeps k hk]

end Renaming

section

variable (ρ : Renaming)

theorem Expr.isName_rename {k : String} (hk : k ∈ reservedNames) (e : Expr) :
    (e.rename ρ.name).isName k = e.isName k := by
  cases e with
  | identifier n => simp [Expr.isName, ρ.name_eq_iff hk]
  | _ => simp [Expr.isName]

theorem Expr.unquoted?_rename (e : Expr) :
    (e.rename ρ.name).unquoted? = e.unquoted?.map (Expr.rename ρ.name) := by
  cases e with
  | call callee args =>
    have hname : (callee.rename ρ.name).isName "unquote" = callee.isName "unquote" :=
      callee.isName_rename ρ (by decide)
    match args with
    | [] => rfl
    | [argument] =>
      simp only [Expr.rename_call, List.map_cons, List.map_nil, Expr.unquoted?, hname]
      split <;> rfl
    | _ :: _ :: _ => rfl
  | _ => simp [Expr.unquoted?]

theorem Builtin.ofName?_rename (n : String) : Builtin.ofName? (ρ.name n) = Builtin.ofName? n := by
  have hname : ∀ b ∈ Builtin.all, (b.name = ρ.name n ↔ b.name = n) := by
    intro b hb
    have hk : b.name ∈ reservedNames :=
      List.mem_cons_of_mem _ (List.mem_cons_of_mem _ (List.mem_map_of_mem hb))
    rw [eq_comm, ρ.name_eq_iff hk, eq_comm]
  exact List.find?_congr fun b hb => decide_eq_decide.mpr (hname b hb)

/-! ## Values -/

mutual

def Value.rename : Value → Value
  | .integer n => .integer n
  | .boolean b => .boolean b
  | .string id text => .string (ρ.identity id) text
  | .array id elements => .array (ρ.identity id) (Value.renameList elements)
  | .hash id entries => .hash (ρ.identity id) (Value.renameEntries entries)
  | .null => .null
  | .returned v => .returned v.rename
  | .function id parameters body scope =>
    .function (ρ.identity id) (parameters.map ρ.name) (Block.rename ρ.name body) (ρ.scope scope)
  | .builtin b => .builtin b
  | .quote id node => .quote (ρ.identity id) (node.rename ρ.name)

def Value.renameList : List Value → List Value
  | [] => []
  | v :: vs => v.rename :: Value.renameList vs

def Value.renameEntries : List (Key × Value) → List (Key × Value)
  | [] => []
  | (k, v) :: entries => (k, v.rename) :: Value.renameEntries entries

end

theorem Value.renameList_eq_map (vs : List Value) :
    Value.renameList ρ vs = vs.map (Value.rename ρ) := by
  induction vs with
  | nil => rfl
  | cons v vs ih => rw [Value.renameList, ih, List.map_cons]

theorem Value.renameEntries_eq_map (entries : List (Key × Value)) :
    Value.renameEntries ρ entries = entries.map (Prod.map id (Value.rename ρ)) := by
  induction entries with
  | nil => rfl
  | cons e entries ih => rw [Value.renameEntries, ih, List.map_cons, Prod.map, id]

variable (v : Value)

@[simp] theorem Value.kind_rename : (v.rename ρ).kind = v.kind := by
  cases v <;> rfl

@[simp] theorem Value.truthy_rename : (v.rename ρ).truthy = v.truthy := by
  cases v <;> rfl

@[simp] theorem Value.isReturned_rename : (v.rename ρ).isReturned = v.isReturned := by
  cases v <;> rfl

@[simp] theorem Value.key?_rename : (v.rename ρ).key? = v.key? := by
  cases v <;> rfl

theorem Value.unwrapReturn_rename : (v.rename ρ).unwrapReturn = v.unwrapReturn.rename ρ := by
  cases v <;> rfl

theorem Renaming.beq_identity (i j : Identity) :
    (ρ.identity i == ρ.identity j) = (i == j) := by
  rw [Bool.eq_iff_iff, beq_iff_eq, beq_iff_eq, ρ.identity_injective.eq_iff]

theorem Value.identical_rename : ∀ a b : Value,
    (a.rename ρ).identical (b.rename ρ) = a.identical b
  | .integer _, b | .boolean _, b | .null, b | .builtin _, b => by
    cases b <;> rfl
  | .string i _, b => by
    cases b with
    | string j _ => exact ρ.beq_identity i j
    | _ => rfl
  | .array i _, b => by
    cases b with
    | array j _ => exact ρ.beq_identity i j
    | _ => rfl
  | .hash i _, b => by
    cases b with
    | hash j _ => exact ρ.beq_identity i j
    | _ => rfl
  | .function i _ _ _, b => by
    cases b with
    | function j _ _ _ => exact ρ.beq_identity i j
    | _ => rfl
  | .quote i _, b => by
    cases b with
    | quote j _ => exact ρ.beq_identity i j
    | _ => rfl
  | .returned a, b => by
    cases b with
    | returned b => exact Value.identical_rename a b
    | _ => rfl

theorem integerSyntax_rename (n : Int64) : (integerSyntax n).rename ρ.name = integerSyntax n := by
  unfold integerSyntax
  split
  · rfl
  · split <;> rfl

end

/-! ## Entries and bindings -/

theorem Entries.insert_map {α β : Type} (f : α → β) (k : Key) (v : α) (entries : List (Key × α)) :
    Entries.insert k (f v) (entries.map (Prod.map id f)) =
      (Entries.insert k v entries).map (Prod.map id f) := by
  induction entries with
  | nil => rfl
  | cons e entries ih =>
    simp only [List.map_cons, Prod.map, id, Entries.insert]
    split
    · rfl
    · split
      · rfl
      · exact congrArg ((e.1, f e.2) :: ·) ih

theorem Entries.find?_map {α β : Type} (f : α → β) (k : Key) (entries : List (Key × α)) :
    Entries.find? k (entries.map (Prod.map id f)) = (Entries.find? k entries).map f := by
  induction entries with
  | nil => rfl
  | cons e entries ih =>
    simp only [List.map_cons, Prod.map, id, Entries.find?]
    split
    · rfl
    · exact ih

section

variable (ρ : Renaming)

def Bindings.rename (bs : List (String × Value)) : List (String × Value) :=
  bs.map (Prod.map ρ.name (Value.rename ρ))

theorem Bindings.set_rename (name : String) (v : Value) (bs : List (String × Value)) :
    Bindings.set (ρ.name name) (v.rename ρ) (Bindings.rename ρ bs) =
      Bindings.rename ρ (Bindings.set name v bs) := by
  unfold Bindings.rename
  induction bs with
  | nil => rfl
  | cons b bs ih =>
    simp only [List.map_cons, Prod.map, Bindings.set, ρ.name_injective.eq_iff]
    split
    · rfl
    · exact congrArg ((ρ.name b.1, b.2.rename ρ) :: ·) ih

theorem Bindings.lookup_rename (name : String) (bs : List (String × Value)) :
    (Bindings.rename ρ bs).lookup (ρ.name name) = (bs.lookup name).map (Value.rename ρ) := by
  unfold Bindings.rename
  induction bs with
  | nil => rfl
  | cons b bs ih =>
    obtain ⟨n, v⟩ := b
    have hname : (ρ.name name == ρ.name n) = (name == n) := by
      rw [Bool.eq_iff_iff, beq_iff_eq, beq_iff_eq, ρ.name_injective.eq_iff]
    simp only [List.map_cons, Prod.map, List.lookup_cons, hname]
    cases name == n with
    | true => rfl
    | false => exact ih

/-! ## The machine -/

def Scope.rename (s : Scope) : Scope :=
  ⟨Bindings.rename ρ s.bindings, s.enclosing.map ρ.scope⟩

/-- At call depth `d`, the second machine holds what the first one holds, renamed, and maybe more.
What either makes next gets corresponding places and identities. -/
structure Machine.Renamed (d : Nat) (m m' : Machine) : Prop where
  scopes : ∀ i, m'.scopes[ρ.scope i]? = m.scopes[i]?.map (Scope.rename ρ)
  nextScope : ∀ k, ρ.scope (m.scopes.size + k) = m'.scopes.size + k
  nextIdentity : ∀ k, ρ.identity (m.fresh + k) = m'.fresh + k
  depth : m.depth = d ∧ m'.depth = d

variable {ρ} {d : Nat} {m m' : Machine}

namespace Machine.Renamed

theorem newScope (h : Renamed ρ d m m') : ρ.scope m.scopes.size = m'.scopes.size :=
  h.nextScope 0

theorem newIdentity (h : Renamed ρ d m m') : ρ.identity m.fresh = m'.fresh :=
  h.nextIdentity 0

theorem chain (h : Renamed ρ d m m') (i : ScopeId) :
    m'.chain (ρ.scope i) = (m.chain i).map ρ.scope := by
  unfold Machine.chain
  rw [h.scopes i]
  cases m.scopes[i]? <;> rfl

theorem local? (h : Renamed ρ d m m') (i : ScopeId) (name : String) :
    m'.local? (ρ.scope i) (ρ.name name) = (m.local? i name).map (Value.rename ρ) := by
  unfold Machine.local?
  rw [h.scopes i]
  cases m.scopes[i]? with
  | none => rfl
  | some s => exact Bindings.lookup_rename ρ name s.bindings

theorem lookup (h : Renamed ρ d m m') (i : ScopeId) (name : String) :
    m'.lookup (ρ.scope i) (ρ.name name) = (m.lookup i name).map (Value.rename ρ) := by
  unfold Machine.lookup
  rw [h.chain i, List.findSome?_map, List.map_findSome?]
  congr 1
  funext j
  exact h.local? j name

theorem define (h : Renamed ρ d m m') (i : ScopeId) (name : String) (v : Value) :
    Renamed ρ d (m.define i name v) (m'.define (ρ.scope i) (ρ.name name) (v.rename ρ)) := by
  refine ⟨fun j => ?_, ?_, h.nextIdentity, h.depth⟩
  · simp only [Machine.define, Array.getElem?_modify, ρ.scope_injective.eq_iff, h.scopes j]
    split
    · cases m.scopes[j]? with
      | none => rfl
      | some s => simp [Scope.rename, Bindings.set_rename]
    · rfl
  · simpa [Machine.define] using h.nextScope

theorem enclose (h : Renamed ρ d m m') (outer : ScopeId) :
    Renamed ρ d (m.enclose outer).2 (m'.enclose (ρ.scope outer)).2 := by
  refine ⟨fun j => ?_, fun k => ?_, h.nextIdentity, h.depth⟩
  · simp only [Machine.enclose, Array.getElem?_push, ← h.newScope, ρ.scope_injective.eq_iff,
      h.scopes j, h.chain]
    split <;> rfl
  · have hnext := h.nextScope (1 + k)
    simp only [Machine.enclose, Array.size_push]
    rw [Nat.add_assoc, Nat.add_assoc, hnext]

theorem useIdentity (h : Renamed ρ d m m') :
    Renamed ρ d { m with fresh := m.fresh + 1 } { m' with fresh := m'.fresh + 1 } := by
  refine ⟨h.scopes, h.nextScope, fun k => ?_, h.depth⟩
  have hnext := h.nextIdentity (1 + k)
  simp only
  rw [Nat.add_assoc, Nat.add_assoc, hnext]

theorem atDepth (h : Renamed ρ d m m') (k : Nat) :
    Renamed ρ k { m with depth := k } { m' with depth := k } :=
  ⟨h.scopes, h.nextScope, h.nextIdentity, rfl, rfl⟩

theorem names (h : Renamed ρ d m m') (i : ScopeId) :
    (m'.names (ρ.scope i)).Perm ((m.names i).map ρ.name) := by
  unfold Machine.names
  rw [h.scopes i]
  cases m.scopes[i]? with
  | none => exact .refl _
  | some s =>
    have hnames : (s.rename ρ).bindings.map (·.1) = (s.bindings.map (·.1)).map ρ.name := by
      simp [Scope.rename, Bindings.rename, Function.comp_def]
    simp only [Option.map_some, hnames]
    exact (List.mergeSort_perm _ _).trans ((List.mergeSort_perm _ _).map ρ.name).symm

end Machine.Renamed

theorem Machine.Renamed.scopes_eq {r : String → String} {hr : Function.Injective r}
    {hkeeps : ∀ n ∈ reservedNames, r n = n} (h : Renamed (.ofName r hr hkeeps) d m m') :
    m'.scopes = m.scopes.map (Scope.rename (.ofName r hr hkeeps)) := by
  apply Array.ext_getElem?
  intro i
  rw [Array.getElem?_map]
  exact h.scopes i

end

end Monkey
