import Monkey.Proofs.Nodes
import Monkey.Proofs.Rewriting

/-!
# Relabeling

A rewriter that gives other integers to integer literals and other names to names changes these and
nothing else. Doing so twice is the same as doing so once with the functions composed, and a
rewriter without hooks of its own changes nothing.
-/

namespace Monkey

/-- Another integer in place of a literal. -/
def Expr.mapInteger (f : Int64 → Int64) : Expr → Expr
  | .integer n => .integer (f n)
  | e => e

namespace Rewriter

section

variable {m : Type → Type} [Monad m]

/-- Gives other integers to integer literals, and other names to all names. -/
def relabeler (f : Int64 → Int64) (r : String → String) : Rewriter m where
  expression e := pure (e.mapInteger f)
  statement := pure
  block := pure
  identifier n := pure (r n)

theorem relabeler_id : (relabeler id id : Rewriter m) = keep := by
  have hexpression : ∀ e : Expr, e.mapInteger id = e := by
    intro e
    cases e <;> rfl
  simp only [relabeler, keep, hexpression, id]

end

/-! ## The same in every monad -/

section

variable {m : Type → Type} [Monad m] [LawfulMonad m]

theorem bind_eq_pure {α β : Type} {x : Id α} {y : m α} {f : α → Id β} {g : α → m β}
    (hxy : y = pure x.run) (hfg : ∀ a, g a = pure (f a).run) : y >>= g = pure (x >>= f).run := by
  rw [hxy, pure_bind, hfg]
  rfl

/-- Computing, and then doing nothing with the result. -/
def computing (m : Type → Type) [Monad m] [LawfulMonad m] : Coupling Id m where
  Holds x y := y = pure x.run
  pure _ := rfl
  bind := bind_eq_pure

end

end Rewriter

/-! ## Relabeled trees -/

section

variable (f : Int64 → Int64) (r : String → String)

def Expr.relabel (e : Expr) : Expr := (Rewriter.relabeler f r : Rewriter Id).expr e

def Stmt.relabel (s : Stmt) : Stmt := (Rewriter.relabeler f r : Rewriter Id).stmt s

def Program.relabel (p : Program) : Program := (Rewriter.relabeler f r : Rewriter Id).program p

theorem Expr.relabel_array (es : List Expr) :
    (Expr.array es).relabel f r = .array (es.map (Expr.relabel f r)) :=
  congrArg Expr.array (Rewriter.exprs_eq_map _ es)

theorem Expr.relabel_hash (ps : List (Expr × Expr)) :
    (Expr.hash ps).relabel f r = .hash (ps.map fun p => (p.1.relabel f r, p.2.relabel f r)) :=
  congrArg Expr.hash (Rewriter.exprPairs_eq_map _ ps)

theorem Expr.relabel_function (ps : List String) (b : Block) :
    (Expr.function ps b).relabel f r = .function (ps.map r) (b.map (Stmt.relabel f r)) :=
  congrArg₂ Expr.function (Rewriter.names_eq_map _ ps) (Rewriter.stmts_eq_map _ b)

theorem Expr.relabel_call (callee : Expr) (args : List Expr) :
    (Expr.call callee args).relabel f r =
      .call (callee.relabel f r) (args.map (Expr.relabel f r)) :=
  congrArg (Expr.call (callee.relabel f r)) (Rewriter.exprs_eq_map _ args)

theorem Expr.relabel_conditional (c : Expr) (b : Block) (o : Option Block) :
    (Expr.conditional c b o).relabel f r = .conditional (c.relabel f r)
      (b.map (Stmt.relabel f r)) (o.map (List.map (Stmt.relabel f r))) := by
  have hblock : ∀ b : Block, (Rewriter.relabeler f r : Rewriter Id).stmts b =
      b.map (Stmt.relabel f r) := Rewriter.stmts_eq_map _
  have halternative : (Rewriter.relabeler f r : Rewriter Id).alternativeBlock o =
      o.map (List.map (Stmt.relabel f r)) := by
    cases o with
    | none => rfl
    | some b => exact congrArg some (hblock b)
  exact congrArg₂ (Expr.conditional (c.relabel f r)) (hblock b) halternative

namespace Node

def relabel : Node → Node
  | expression e => expression (e.relabel f r)
  | statement s => statement (s.relabel f r)
  | block b => block (b.map (Stmt.relabel f r))
  | identifier n => identifier (r n)

/-- Names and integers change, and nothing else. -/
def Face.relabel : Face → Face
  | name n => name (r n)
  | integer n => integer (f n)
  | face => face

theorem face_relabel (n : Node) : (n.relabel f r).face = n.face.relabel f r := by
  cases n with
  | identifier _ => rfl
  | block b => simp [relabel, face, Face.relabel]
  | statement s => cases s <;> rfl
  | expression e =>
    cases e with
    | array es => simp [relabel, Expr.relabel_array, face, Face.relabel]
    | hash ps => simp [relabel, Expr.relabel_hash, face, Face.relabel]
    | conditional c b o => simp [relabel, Expr.relabel_conditional, face, Face.relabel]
    | function ps b => simp [relabel, Expr.relabel_function, face, Face.relabel]
    | call callee args => simp [relabel, Expr.relabel_call, face, Face.relabel]
    | _ => rfl

theorem children_relabel (n : Node) :
    (n.relabel f r).children = n.children.map (relabel f r) := by
  cases n with
  | identifier _ => rfl
  | block b => simp [relabel, children]
  | statement s => cases s <;> rfl
  | expression e =>
    cases e with
    | array es => simp [relabel, Expr.relabel_array, children]
    | hash ps => simp [relabel, Expr.relabel_hash, children, List.flatMap_map, List.map_flatMap]
    | conditional c b o => cases o <;> simp [relabel, Expr.relabel_conditional, children]
    | function ps b => simp [relabel, Expr.relabel_function, children]
    | call callee args => simp [relabel, Expr.relabel_call, children]
    | _ => rfl

theorem faces_relabel (n : Node) : (n.relabel f r).faces = n.faces.map (Face.relabel f r) := by
  induction n using Node.induction with
  | node n ih =>
    rw [faces_eq, faces_eq, children_relabel, face_relabel, List.flatMap_map, List.map_append,
      List.map_flatMap, List.map_singleton]
    congr 1
    exact List.flatMap_congr ih

end Node

theorem Program.eq_relabel_iff {p q : Program} :
    q = p.relabel f r ↔ q.faces = p.faces.map (Node.Face.relabel f r) := by
  have hblock : Node.block (p.relabel f r).statements = (Node.block p.statements).relabel f r :=
    congrArg Node.block (Rewriter.stmts_eq_map _ p.statements)
  have hfaces : (p.relabel f r).faces = p.faces.map (Node.Face.relabel f r) := by
    rw [faces, hblock, Node.faces_relabel]
    rfl
  rw [← hfaces, Program.faces_injective.eq_iff]

end

/-! ## Laws -/

theorem Node.Face.relabel_id (face : Face) : face.relabel id id = face := by
  cases face <;> rfl

theorem Node.Face.relabel_comp (f g : Int64 → Int64) (r s : String → String) (face : Face) :
    (face.relabel f r).relabel g s = face.relabel (g ∘ f) (s ∘ r) := by
  cases face <;> rfl

theorem Program.relabel_id (p : Program) : p.relabel id id = p := by
  rw [eq_comm, Program.eq_relabel_iff]
  exact (List.map_id'' Node.Face.relabel_id p.faces).symm

theorem Program.relabel_relabel (f g : Int64 → Int64) (r s : String → String) (p : Program) :
    (p.relabel f r).relabel g s = p.relabel (g ∘ f) (s ∘ r) := by
  have hfirst := (Program.eq_relabel_iff f r (p := p)).mp rfl
  have hsecond := (Program.eq_relabel_iff g s (p := p.relabel f r)).mp rfl
  rw [Program.eq_relabel_iff, hsecond, hfirst, List.map_map]
  exact List.map_congr_left fun face _ => face.relabel_comp f g r s

namespace Rewriter

variable {m : Type → Type} [Monad m] [LawfulMonad m]

theorem relabeler_program (f : Int64 → Int64) (r : String → String) (p : Program) :
    (relabeler f r : Rewriter m).program p = pure (p.relabel f r) := by
  have hhooks : Related (computing m) (relabeler f r) (relabeler f r) :=
    ⟨fun _ => rfl, fun _ => rfl, fun _ => rfl, fun _ => rfl⟩
  exact hhooks.program p

/-- Relabeling is functorial, and gives the only program that shows the relabeled integers and
names. -/
theorem relabeler_functorial (p : Program) :
    (keep : Rewriter m).program p = pure p ∧
      (∀ (f g : Int64 → Int64) (r s : String → String),
        ((relabeler f r).program p >>= (relabeler g s).program : m Program) =
          (relabeler (g ∘ f) (s ∘ r)).program p) ∧
      ∀ (f : Int64 → Int64) (r : String → String),
        ∃ q, (relabeler f r : Rewriter m).program p = pure q ∧
          ∀ q', q' = q ↔ q'.faces = p.faces.map (Node.Face.relabel f r) := by
  refine ⟨?_, fun f g r s => ?_, fun f r => ?_⟩
  -- The rewriter without hooks relabels everything to itself.
  · rw [← relabeler_id, relabeler_program, Program.relabel_id]
  · rw [relabeler_program, pure_bind, relabeler_program, relabeler_program,
      Program.relabel_relabel]
  · exact ⟨p.relabel f r, relabeler_program f r p, fun q' => Program.eq_relabel_iff f r⟩

/-- `let f = fn(x) { if (x) { [1, "1"] } else { return {2: -f} } }; f(true)[3]` -/
def everySlot (f x : String) (one two three : Int64) : Program :=
  ⟨[.bind f (.function [x] [.expr (.conditional (.identifier x)
      [.expr (.array [.integer one, .string "1"])]
      (some [.ret (.hash [(.integer two, .unary .minus (.identifier f))])]))]),
    .expr (.index (.call (.identifier f) [.boolean true]) (.integer three))]⟩

theorem relabeler_functorial_everySlot :
    ((relabeler (· + 1) (· ++ "_")).program (everySlot "f" "x" 1 2 3) >>=
        (relabeler (2 * ·) ("_" ++ ·)).program : Except String Program) =
      .ok (everySlot "_f_" "_x_" 4 6 8) := by
  rw [(relabeler_functorial (m := Except String) (everySlot "f" "x" 1 2 3)).2.1]
  rfl

end Rewriter

end Monkey
