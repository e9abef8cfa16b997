import Mathlib.Data.List.Basic
import Mathlib.Data.List.Induction
import Monkey.Syntax.Basic

/-!
# Nodes

A tree is made of expressions, statements, blocks and names. A node has children, in the order of
the text, and shows something of its own: an operator, a literal, how many children there are. What
the nodes show, one after the other in post-order, determines the tree.
-/

namespace Monkey

/-- A node of a tree. A name has a node of its own wherever it stands: in a `let`, among parameters
and in a reference. -/
inductive Node where
  | expression (e : Expr)
  | statement (s : Stmt)
  | block (b : Block)
  | identifier (name : String)

namespace Node

/-- The nodes right below, from left to right. -/
def children : Node → List Node
  | identifier _ => []
  | block b => b.map statement
  | statement (.bind name value) => [identifier name, expression value]
  | statement (.ret value) => [expression value]
  | statement (.expr value) => [expression value]
  | expression (.identifier name) => [identifier name]
  | expression (.integer _) => []
  | expression (.boolean _) => []
  | expression (.string _) => []
  | expression (.array elements) => elements.map expression
  | expression (.hash pairs) => pairs.flatMap fun p => [expression p.1, expression p.2]
  | expression (.unary _ right) => [expression right]
  | expression (.binary left _ right) => [expression left, expression right]
  | expression (.conditional condition consequence alternative) =>
    expression condition :: block consequence :: alternative.toList.map block
  | expression (.function parameters body) => parameters.map identifier ++ [block body]
  | expression (.call callee arguments) => expression callee :: arguments.map expression
  | expression (.index left index) => [expression left, expression index]

theorem sizeOf_lt_of_mem_children {c n : Node} (h : c ∈ n.children) : sizeOf c < sizeOf n := by
  cases n with
  | identifier _ => cases h
  | block b =>
    obtain ⟨s, hs, rfl⟩ := List.mem_map.mp h
    have hlt := List.sizeOf_lt_of_mem hs
    simp only [statement.sizeOf_spec, block.sizeOf_spec]
    omega
  | statement s => cases s <;> simp [children] at h <;> grind
  | expression e => cases e <;> simp [children] at h <;> grind [→ List.sizeOf_lt_of_mem]

@[elab_as_elim]
theorem induction {motive : Node → Prop} (n : Node)
    (node : ∀ n, (∀ c ∈ n.children, motive c) → motive n) : motive n :=
  node n fun c _ => induction c node
termination_by sizeOf n
decreasing_by exact sizeOf_lt_of_mem_children ‹_›

/-! ## Post-order -/

/-- The node and all nodes below it: children before their parent, and from left to right. -/
def postOrder (n : Node) : List Node :=
  (n.children.attach.flatMap fun c => c.1.postOrder) ++ [n]
termination_by sizeOf n
decreasing_by exact sizeOf_lt_of_mem_children c.2

theorem postOrder_eq (n : Node) : n.postOrder = n.children.flatMap postOrder ++ [n] := by
  rw [postOrder]
  congr 1
  conv_rhs => rw [← List.attach_map_subtype_val n.children, List.flatMap_map]

/-! ## What a node shows -/

/-- What there is to see at a node, the nodes below it aside. -/
inductive Face where
  | name (n : String)
  /-- An expression that is a name. The name is below it. -/
  | reference
  | integer (n : Int64)
  | boolean (b : Bool)
  | string (text : String)
  | array (length : Nat)
  | hash (length : Nat)
  | unary (op : UnaryOp)
  | binary (op : BinaryOp)
  | conditional (alternative : Bool)
  | function (parameters : Nat)
  | call (arguments : Nat)
  | index
  | bind
  | ret
  | expr
  | block (length : Nat)

def face : Node → Face
  | identifier n => .name n
  | block b => .block b.length
  | statement (.bind _ _) => .bind
  | statement (.ret _) => .ret
  | statement (.expr _) => .expr
  | expression (.identifier _) => .reference
  | expression (.integer n) => .integer n
  | expression (.boolean b) => .boolean b
  | expression (.string text) => .string text
  | expression (.array elements) => .array elements.length
  | expression (.hash pairs) => .hash pairs.length
  | expression (.unary op _) => .unary op
  | expression (.binary _ op _) => .binary op
  | expression (.conditional _ _ alternative) => .conditional alternative.isSome
  | expression (.function parameters _) => .function parameters.length
  | expression (.call _ arguments) => .call arguments.length
  | expression (.index _ _) => .index

/-- How many children a node has that shows this. -/
def Face.arity : Face → Nat
  | name _ | integer _ | boolean _ | string _ => 0
  | reference | unary _ | ret | expr => 1
  | binary _ | index | bind => 2
  | array length | block length => length
  | hash length => length + length
  | conditional alternative => if alternative then 3 else 2
  | function parameters => parameters + 1
  | call arguments => arguments + 1

theorem length_children (n : Node) : n.children.length = n.face.arity := by
  cases n with
  | identifier _ => rfl
  | block b => simp [children, face, Face.arity]
  | statement s => cases s <;> rfl
  | expression e =>
    cases e with
    | hash pairs =>
      induction pairs with
      | nil => rfl
      | cons p ps ih =>
        simp [children, face, Face.arity] at ih ⊢
        omega
    | conditional c b o => cases o <;> rfl
    | _ => simp [children, face, Face.arity]

theorem eq_of_flatMap_pairs {ps qs : List (Expr × Expr)}
    (h : (ps.flatMap fun p => [expression p.1, expression p.2]) =
      qs.flatMap fun p => [expression p.1, expression p.2]) : ps = qs := by
  induction ps generalizing qs with
  | nil =>
    cases qs with
    | nil => rfl
    | cons q qs => simp at h
  | cons p ps ih =>
    cases qs with
    | nil => simp at h
    | cons q qs =>
      simp only [List.flatMap_cons, List.cons_append, List.nil_append, List.cons.injEq,
        expression.injEq] at h
      rw [Prod.ext h.1 h.2.1, ih h.2.2]

theorem eq_of_face_of_children {n n' : Node} (hface : n.face = n'.face)
    (hchildren : n.children = n'.children) : n = n' := by
  have halternative : ∀ o o' : Option Block, o.toList = o'.toList → o = o' := by
    intro o o' h
    cases o <;> cases o' <;> simp_all
  unfold face at hface
  -- Nodes of different kinds do not show the same.
  split at hface <;> split at hface <;> simp at hface
  all_goals simp [children, List.map_inj_right] at hchildren ⊢
  case h_11 => exact eq_of_flatMap_pairs hchildren
  all_goals grind

/-- What all the nodes show, in post-order. -/
def faces (n : Node) : List Face := n.postOrder.map face

theorem faces_eq (n : Node) : n.faces = n.children.flatMap faces ++ [n.face] := by
  rw [faces, postOrder_eq, List.map_append, List.map_flatMap]
  rfl

/-- As many nodes as there are on the left can be told from what they show, starting at the end. -/
theorem eq_of_append_flatMap_faces {cs : List Node}
    (hcs : ∀ c ∈ cs, ∀ {c' : Node} {xs xs' : List Face}, xs ++ c.faces = xs' ++ c'.faces →
      xs = xs' ∧ c = c') :
    ∀ {cs' : List Node} {xs xs' : List Face}, cs.length = cs'.length →
      xs ++ cs.flatMap faces = xs' ++ cs'.flatMap faces → xs = xs' ∧ cs = cs' := by
  induction cs using List.reverseRecOn with
  | nil =>
    intro cs' xs xs' hlength h
    rw [List.length_nil, eq_comm, List.length_eq_zero_iff] at hlength
    subst hlength
    exact ⟨by simpa using h, rfl⟩
  | append_singleton cs c ih =>
    intro cs' xs xs' hlength h
    rcases List.eq_nil_or_concat' cs' with rfl | ⟨ds, d, rfl⟩
    · simp at hlength
    · simp only [List.flatMap_append, List.flatMap_singleton, ← List.append_assoc] at h
      obtain ⟨hrest, rfl⟩ := hcs c (by simp) h
      obtain ⟨hxs, rfl⟩ := ih (fun e he => hcs e (by simp [he])) (by simpa using hlength) hrest
      exact ⟨hxs, rfl⟩

theorem eq_of_append_faces (n : Node) : ∀ {n' : Node} {xs xs' : List Face},
    xs ++ n.faces = xs' ++ n'.faces → xs = xs' ∧ n = n' := by
  induction n using Node.induction with
  | node n ih =>
    intro n' xs xs' h
    rw [n.faces_eq, n'.faces_eq, ← List.append_assoc, ← List.append_assoc] at h
    obtain ⟨hbelow, hface⟩ := List.append_inj' h rfl
    have hface := List.singleton_inj.mp hface
    have hlength : n.children.length = n'.children.length := by
      rw [length_children, length_children, hface]
    obtain ⟨hxs, hchildren⟩ := eq_of_append_flatMap_faces ih hlength hbelow
    exact ⟨hxs, eq_of_face_of_children hface hchildren⟩

theorem faces_injective : Function.Injective faces := by
  intro n n' h
  have happend : [] ++ n.faces = [] ++ n'.faces := h
  exact (n.eq_of_append_faces happend).2

end Node

/-! ## Programs -/

namespace Program

/-- The nodes of all statements. A program is no node itself. -/
def postOrder (p : Program) : List Node :=
  p.statements.flatMap fun s => (Node.statement s).postOrder

/-- What the nodes of the program show, and how many statements there are. -/
def faces (p : Program) : List Node.Face := (Node.block p.statements).faces

theorem faces_injective : Function.Injective faces := by
  rintro ⟨ss⟩ ⟨ss'⟩ h
  exact congrArg Program.mk (Node.block.inj (Node.faces_injective h))

end Program

end Monkey
