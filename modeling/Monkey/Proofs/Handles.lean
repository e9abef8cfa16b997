import Monkey.Proofs.Scopes

/-!
# Handles of scopes

A host makes scopes, at the top or inside other ones, and holds handles of them. It copies handles,
binds names through them and runs programs. A definition is seen through a handle if its scope is
the nearest that binds the name, and through no other handle.
-/

namespace Monkey

/-- A machine, and the scopes that the host has handles of. Several handles may be of one scope. -/
structure Handles where
  machine : Machine
  held : List ScopeId

/-- What a host can do. A handle is named by its place among the handles. -/
inductive Action where
  | new
  | enclose (handle : Nat)
  | clone (handle : Nat)
  | define (handle : Nat) (name : String) (v : Value)
  | eval (handle : Nat) (limits : Limits) (p : Program)

namespace Handles

def empty : Handles := ⟨.empty, []⟩

def add (s : Handles) (made : ScopeId × Machine) : Handles := ⟨made.2, s.held ++ [made.1]⟩

/-- There is no result if there is no such handle. -/
def act (s : Handles) : Action → Option Handles
  | .new => some (s.add s.machine.addScope)
  | .enclose handle => s.held[handle]?.map fun outer => s.add (s.machine.enclose outer)
  | .clone handle => s.held[handle]?.map fun scope => s.add (scope, s.machine)
  | .define handle name v =>
    s.held[handle]?.map fun scope => { s with machine := s.machine.define scope name v }
  | .eval handle limits p =>
    s.held[handle]?.map fun scope => { s with machine := (p.eval limits scope).after s.machine }

def run (s : Handles) : List Action → Option Handles
  | [] => some s
  | action :: actions => (s.act action).bind fun s => s.run actions

def get? (s : Handles) (handle : Nat) (name : String) : Option Value :=
  s.held[handle]?.bind fun scope => s.machine.lookup scope name

/-- The value of a name in the scope of a handle, the scopes around it aside. -/
def own? (s : Handles) (handle : Nat) (name : String) : Option Value :=
  s.held[handle]?.bind fun scope => s.machine.local? scope name

def binder? (s : Handles) (handle : Nat) (name : String) : Option ScopeId :=
  s.held[handle]?.bind fun scope => s.machine.binder? name scope

def names (s : Handles) (handle : Nat) : List String :=
  (s.held[handle]?.map s.machine.names).getD []

/-! ## What actions keep -/

/-- The scopes are linked, and the handles are of scopes that there are. -/
structure Sound (s : Handles) : Prop where
  linked : s.machine.Linked
  held : ∀ {handle : Nat} {scope : ScopeId}, s.held[handle]? = some scope →
    scope < s.machine.scopes.size

/-- All handles are still of the scopes they were of, and these have the same scopes around them. -/
structure Before (s t : Handles) : Prop where
  held : ∀ {handle : Nat} {scope : ScopeId}, s.held[handle]? = some scope →
    t.held[handle]? = some scope
  frame : Machine.Frame (fun _ => True) s.machine t.machine

theorem Before.refl (s : Handles) : s.Before s := ⟨fun h => h, Machine.frame_refl _ _⟩

theorem Before.trans {s t u : Handles} (h : s.Before t) (h' : t.Before u) : s.Before u :=
  ⟨fun hs => h'.held (h.held hs), h.frame.trans h'.frame⟩

section

variable {s : Handles}

theorem before_add {made : ScopeId × Machine}
    (h : Machine.Frame (fun _ => True) s.machine made.2) : s.Before (s.add made) := by
  refine ⟨fun {handle scope} hs => ?_, h⟩
  have hlt := (List.getElem?_eq_some_iff.mp hs).1
  rw [Handles.add, List.getElem?_append_left hlt, hs]

theorem Sound.add (hs : s.Sound) {made : ScopeId × Machine}
    (hframe : Machine.Frame (fun _ => True) s.machine made.2) (hlinked : made.2.Linked)
    (hmade : made.1 < made.2.scopes.size) : (s.add made).Sound := by
  refine ⟨hlinked, fun {handle scope} h => ?_⟩
  rw [Handles.add, List.getElem?_append] at h
  split at h
  · exact Nat.lt_of_lt_of_le (hs.held h) hframe.size_le
  · rw [List.mem_singleton.mp (List.mem_of_getElem? h)]
    exact hmade

theorem Sound.withMachine (hs : s.Sound) {m : Machine} (hlinked : m.Linked)
    (hframe : Machine.Frame (fun _ => True) s.machine m) :
    { s with machine := m }.Sound ∧ s.Before { s with machine := m } :=
  ⟨⟨hlinked, fun h => Nat.lt_of_lt_of_le (hs.held h) hframe.size_le⟩, fun h => h, hframe⟩

theorem Sound.act (hs : s.Sound) {action : Action} {t : Handles} (h : s.act action = some t) :
    t.Sound ∧ s.Before t := by
  have hsame := Machine.frame_refl (fun _ => True) s.machine
  have henclose : ∀ outer, (s.add (s.machine.enclose outer)).Sound ∧
      s.Before (s.add (s.machine.enclose outer)) := fun outer =>
    ⟨hs.add (hsame.enclose outer) (hs.linked.enclose outer) (by simp [Machine.enclose]),
      before_add (hsame.enclose outer)⟩
  cases action with
  | new =>
    cases h
    rw [Machine.addScope_eq]
    exact henclose _
  | enclose handle =>
    obtain ⟨outer, -, rfl⟩ := Option.map_eq_some_iff.mp h
    exact henclose outer
  | clone handle =>
    obtain ⟨scope, hscope, rfl⟩ := Option.map_eq_some_iff.mp h
    exact ⟨hs.add hsame hs.linked (hs.held hscope), before_add hsame⟩
  | define handle name v =>
    obtain ⟨scope, -, rfl⟩ := Option.map_eq_some_iff.mp h
    exact hs.withMachine (hs.linked.define scope name v) (hsame.define (.inl trivial) name v)
  | eval handle limits p =>
    obtain ⟨scope, -, rfl⟩ := Option.map_eq_some_iff.mp h
    obtain ⟨hlinked, hframe⟩ := hs.linked.eval limits p scope
    exact hs.withMachine hlinked hframe

theorem Sound.run (actions : List Action) : ∀ {s t : Handles}, s.Sound → s.run actions = some t →
    t.Sound ∧ s.Before t := by
  induction actions with
  | nil =>
    intro s t hs h
    cases h
    exact ⟨hs, .refl s⟩
  | cons action actions ih =>
    intro s t hs h
    obtain ⟨s₁, haction, hactions⟩ := Option.bind_eq_some_iff.mp h
    obtain ⟨hs₁, hbefore⟩ := hs.act haction
    obtain ⟨ht, hafter⟩ := ih hs₁ hactions
    exact ⟨ht, hbefore.trans hafter⟩

theorem sound_empty : empty.Sound := ⟨Machine.linked_empty, by simp [empty]⟩

end

/-! ## What handles show -/

/-- What holds of the handles after any actions. -/
structure Lawful (s : Handles) : Prop where
  /-- Nothing goes outward from scope to scope forever. -/
  acyclic : WellFounded fun outer scope => s.machine.outer? scope = some outer
  chain : ∀ scope, (s.machine.chain scope).Nodup
  /-- Every look-up ends, and what it ends with is the value. -/
  finds : ∀ name scope answer,
    s.machine.Finds name scope answer ↔ answer = s.machine.lookup scope name
  /-- A definition is seen where its scope is the nearest that now binds the name. -/
  define : ∀ {e name v s'}, s.act (.define e name v) = some s' → ∀ handle n,
    s'.get? handle n =
      if n = name ∧ s'.binder? handle name = s.held[e]? then some v else s.get? handle n
  /-- A definition adds a name to no other scope, and at most its own. -/
  names : ∀ {e name v s'}, s.act (.define e name v) = some s' → ∀ handle,
    if s.held[handle]? = s.held[e]? ∧ name ∉ s.names handle then
      (s'.names handle).Perm (name :: s.names handle)
    else s'.names handle = s.names handle
  /-- A copy of a handle is of the same scope, and shows the same whatever happens. -/
  clone : ∀ {handle s'}, s.act (.clone handle) = some s' → ∀ actions t,
    s'.run actions = some t → t.held[s.held.length]? = t.held[handle]? ∧
      ∀ name, t.get? s.held.length name = t.get? handle name
  /-- A scope inside another one is a new one. It shows what the other one does, but for the names
  that it binds itself. -/
  enclose : ∀ {handle s'}, s.act (.enclose handle) = some s' → ∀ actions t,
    s'.run actions = some t → t.held[s.held.length]? ≠ t.held[handle]? ∧
      ∀ name, t.get? s.held.length name = (t.own? s.held.length name).or (t.get? handle name)

section

variable {s : Handles} (hs : s.Sound)

include hs

theorem Sound.get?_define {e : Nat} {name : String} {v : Value} {s' : Handles}
    (h : s.act (.define e name v) = some s') (handle : Nat) (n : String) :
    s'.get? handle n =
      if n = name ∧ s'.binder? handle name = s.held[e]? then some v else s.get? handle n := by
  obtain ⟨scope, hscope, rfl⟩ := Option.map_eq_some_iff.mp h
  unfold Handles.get? Handles.binder?
  cases hhandle : s.held[handle]? with
  | none => simp [hscope]
  | some i =>
    simp only [Option.bind_some, hscope]
    exact s.machine.lookup_after_define (hs.held hscope) name v i n

theorem Sound.names_define {e : Nat} {name : String} {v : Value} {s' : Handles}
    (h : s.act (.define e name v) = some s') (handle : Nat) :
    if s.held[handle]? = s.held[e]? ∧ name ∉ s.names handle then
      (s'.names handle).Perm (name :: s.names handle)
    else s'.names handle = s.names handle := by
  obtain ⟨scope, hscope, rfl⟩ := Option.map_eq_some_iff.mp h
  unfold Handles.names
  cases hhandle : s.held[handle]? with
  | none => simp [hscope]
  | some i =>
    simp only [Option.map_some, Option.getD_some, hscope, Option.some.injEq]
    exact s.machine.names_after_define (hs.held hscope) name v i

theorem Sound.clone_same {handle : Nat} {s' : Handles} (h : s.act (.clone handle) = some s')
    {actions : List Action} {t : Handles} (ht : s'.run actions = some t) :
    t.held[s.held.length]? = t.held[handle]? := by
  obtain ⟨hs', hbefore⟩ := hs.act h
  obtain ⟨-, hafter⟩ := hs'.run actions ht
  obtain ⟨scope, hscope, rfl⟩ := Option.map_eq_some_iff.mp h
  have hnew : (s.add (scope, s.machine)).held[s.held.length]? = some scope := by
    simp [Handles.add]
  rw [hafter.held hnew, hafter.held (hbefore.held hscope)]

theorem Sound.enclose_new {handle : Nat} {s' : Handles} (h : s.act (.enclose handle) = some s')
    {actions : List Action} {t : Handles} (ht : s'.run actions = some t) :
    ∃ outer inner, t.held[handle]? = some outer ∧ t.held[s.held.length]? = some inner ∧
      outer < inner ∧ t.machine.chain inner = inner :: t.machine.chain outer := by
  obtain ⟨hs', hbefore⟩ := hs.act h
  obtain ⟨-, hafter⟩ := hs'.run actions ht
  obtain ⟨outer, houter, rfl⟩ := Option.map_eq_some_iff.mp h
  have hnew : (s.add (s.machine.enclose outer)).held[s.held.length]? =
      some s.machine.scopes.size := by
    simp [Handles.add, Machine.enclose]
  refine ⟨outer, s.machine.scopes.size, hafter.held (hbefore.held houter), hafter.held hnew,
    hs.held houter, ?_⟩
  have hinner := hafter.frame.chain_eq (hs'.held hnew)
  have hchain := (hbefore.trans hafter).frame.chain_eq (hs.held houter)
  rw [hinner, hchain]
  exact s.machine.chain_new outer

theorem Sound.lawful : s.Lawful where
  acyclic := hs.linked.outer?_wellFounded
  chain := hs.linked.chain_nodup
  finds := hs.linked.finds_iff
  define := hs.get?_define
  names := hs.names_define
  clone h actions t ht := by
    have hsame := hs.clone_same h ht
    refine ⟨hsame, fun name => ?_⟩
    rw [Handles.get?, Handles.get?, hsame]
  enclose h actions t ht := by
    obtain ⟨outer, inner, houter, hinner, hlt, hchain⟩ := hs.enclose_new h ht
    rw [houter, hinner]
    refine ⟨fun heq => Nat.ne_of_gt hlt (Option.some.inj heq), fun name => ?_⟩
    simp only [Handles.get?, Handles.own?, houter, hinner, Option.bind_some, Machine.lookup,
      hchain, List.findSome?_cons]
    cases t.machine.local? inner name <;> rfl

end

/-- A definition shows through just those handles from which its scope is the nearest that binds the
name. -/
theorem run_lawful {actions : List Action} {s : Handles} (h : empty.run actions = some s) :
    s.Lawful :=
  (sound_empty.run actions h).1.lawful

/-- A scope, another one inside it and one inside that, a copy of the first handle, and `x` bound in
the two outer scopes. -/
def nesting : List Action :=
  [.new, .enclose 0, .enclose 1, .clone 0, .define 0 "x" (.integer 1), .define 1 "x" (.integer 2)]

def nested : Handles := (empty.run nesting).getD empty

/-- Then `x` is bound again, through the copy. -/
def rebound : Handles := (nested.act (.define 3 "x" (.integer 3))).getD empty

theorem run_lawful_nested :
    empty.run nesting = some nested ∧ nested.Lawful ∧
      nested.act (.define 3 "x" (.integer 3)) = some rebound ∧
      rebound.get? 0 "x" = some (.integer 3) ∧
      nested.get? 2 "x" = some (.integer 2) ∧ rebound.get? 2 "x" = some (.integer 2) := by
  have hrun : empty.run nesting = some nested := rfl
  have hact : nested.act (.define 3 "x" (.integer 3)) = some rebound := rfl
  have hlawful := run_lawful hrun
  refine ⟨hrun, hlawful, hact, ?_, rfl, ?_⟩
  · rw [hlawful.define hact, if_pos ⟨rfl, rfl⟩]
  · rw [hlawful.define hact, if_neg]
    · rfl
    · rintro ⟨-, hbinder⟩
      cases hbinder

end Handles

end Monkey
