import Monkey.Proofs.Conformity
import Monkey.Proofs.Sessions

/-!
# One heap for a whole session

Nothing changes an object once it is made. So all the values of a session, those of different times
included, agree with one list of objects, in which each object stands at its identity.
-/

namespace Monkey

/-! ## Values and objects -/

/-- The identity and the contents of an object. The other values have none. -/
def Value.object? : Value → Option (Identity × Object)
  | .string id text => some (id, .string text)
  | .array id elements => some (id, .array elements)
  | .hash id entries => some (id, .hash entries)
  | .function id parameters body scope => some (id, .function parameters body scope)
  | .quote id node => some (id, .quote node)
  | .integer _ | .boolean _ | .null | .returned _ | .builtin _ => none

@[simp] theorem Object.object?_toValue (o : Object) (id : Identity) :
    (o.toValue id).object? = some (id, o) := by
  cases o <;> rfl

theorem Value.IsPlain.object? {v : Value} (h : v.IsPlain) : v.object? = none := by
  cases v with
  | integer _ | boolean _ | null | builtin _ => rfl
  | _ => cases h

/-- What has been made so far. -/
structure Heap where
  /-- How many scopes there are. -/
  scopes : Nat
  /-- The objects, each at its identity. -/
  objects : List Object

/-- The value itself, its parts aside, is the object that stands at its identity. -/
def Value.Agrees (heap : Heap) (v : Value) : Prop :=
  ∀ id o, v.object? = some (id, o) → heap.objects[id]? = some o

/-- The value and all its parts are in the heap. -/
def Value.In (heap : Heap) (v : Value) : Prop := v.All (Value.Agrees heap)

namespace Heap

/-- The second heap has all that the first one has, and maybe more. -/
structure Le (heap heap' : Heap) : Prop where
  scopes : heap.scopes ≤ heap'.scopes
  objects : heap.objects <+: heap'.objects

theorem Le.refl (heap : Heap) : heap.Le heap := ⟨Nat.le_refl _, List.prefix_refl _⟩

theorem Le.trans {a b c : Heap} (h : a.Le b) (h' : b.Le c) : a.Le c :=
  ⟨Nat.le_trans h.scopes h'.scopes, h.objects.trans h'.objects⟩

/-- A new object comes after all others. -/
def add (heap : Heap) (o : Object) : Heap := { heap with objects := heap.objects ++ [o] }

theorem le_add (heap : Heap) (o : Object) : heap.Le (heap.add o) :=
  ⟨Nat.le_refl _, List.prefix_append _ _⟩

end Heap

section

variable {heap heap' : Heap} {v : Value}

theorem Value.Agrees.later (h : v.Agrees heap) (hle : heap.Le heap') : v.Agrees heap' := by
  intro id o ho
  obtain ⟨more, hmore⟩ := hle.objects
  have hat := h id o ho
  have hlt := (List.getElem?_eq_some_iff.mp hat).1
  rw [← hmore, List.getElem?_append_left hlt, hat]

theorem Value.IsPlain.agrees (h : v.IsPlain) : v.Agrees heap := by
  intro id o ho
  simp [h.object?] at ho

theorem Value.agrees_returned (heap : Heap) (v : Value) : (Value.returned v).Agrees heap := by
  intro id o ho
  simp [Value.object?] at ho

theorem Object.agrees_add (heap : Heap) (o : Object) :
    (o.toValue heap.objects.length).Agrees (heap.add o) := by
  intro id o' ho
  simp only [Object.object?_toValue, Option.some.injEq, Prod.mk.injEq] at ho
  obtain ⟨rfl, rfl⟩ := ho
  simp [Heap.add]

/-! ## The regime -/

theorem Heap.exists_newScope {n : Nat} {i : Identity}
    (h : heap.scopes = n ∧ heap.objects.length = i) :
    ∃ heap' : Heap, heap.Le heap' ∧ (heap'.scopes = n + 1 ∧ heap'.objects.length = i) ∧ True ∧
      ∀ s : ScopeId, True → True ∨ s = n := by
  obtain ⟨rfl, rfl⟩ := h
  exact ⟨{ heap with scopes := heap.scopes + 1 }, ⟨Nat.le_succ _, List.prefix_refl _⟩, ⟨rfl, rfl⟩,
    trivial, fun _ _ => .inl trivial⟩

theorem Heap.exists_newObject {n : Nat} {i : Identity} {o : Object}
    (h : heap.scopes = n ∧ heap.objects.length = i) :
    ∃ heap' : Heap, heap.Le heap' ∧ (heap'.scopes = n ∧ heap'.objects.length = i + 1) ∧
      (o.toValue i).Agrees heap' ∧ ∀ _ : ScopeId, True → True := by
  obtain ⟨rfl, rfl⟩ := h
  exact ⟨heap.add o, heap.le_add o, ⟨rfl, by simp [Heap.add]⟩, o.agrees_add heap,
    fun _ _ => trivial⟩

/-- Every value is made of the objects that there are. -/
def Regime.objects : Regime where
  Stage := Heap
  later := Heap.Le
  node heap v := v.Agrees heap
  scope _ _ := True
  extent heap n i := heap.scopes = n ∧ heap.objects.length = i
  confines := False
  later_refl := Heap.Le.refl
  later_trans := Heap.Le.trans
  node_later hle h := h.later hle
  scope_later _ _ := trivial
  plain h := h.agrees
  returned _ := Value.agrees_returned
  function _ := ⟨trivial, False.elim⟩
  quote _ h := h.elim
  newScope := Heap.exists_newScope
  newObject h _ := Heap.exists_newObject h

theorem Value.In.later (h : v.In heap) (hle : heap.Le heap') : v.In heap' :=
  Regime.value.later (R := Regime.objects) h hle

/-- Whatever is bound on the machine is in the heap, which has as many scopes and objects as the
machine. -/
structure Machine.Has (heap : Heap) (m : Machine) : Prop where
  bindings : ∀ {s : ScopeId} {sc : Scope}, m.scopes[s]? = some sc → ∀ b ∈ sc.bindings, b.2.In heap
  scopes : heap.scopes = m.scopes.size
  objects : heap.objects.length = m.fresh

theorem Machine.Has.at {m : Machine} (h : m.Has heap) : Regime.objects.At heap m.depth m :=
  ⟨fun _ hsc => h.bindings hsc, fun _ _ _ _ => trivial, ⟨h.scopes, h.objects⟩, rfl⟩

theorem Regime.At.has {m : Machine} {d : Nat} (h : Regime.objects.At heap d m) : m.Has heap :=
  ⟨fun hsc => h.bindings trivial hsc, h.extent.1, h.extent.2⟩

end

/-! ## Sessions under a watch -/

def Event.In (heap : Heap) : Event → Prop
  | .begins => True
  | .uses _ v => v.In heap

namespace Session

/-- At every event of the session, the property holds of the event and of the machine at that
moment. An input starts on the machine that those before it left. -/
def AtAllTimes (P : Event → Machine → Prop) : Session → List String → Prop
  | _, [] => True
  | s, source :: sources =>
    ((parse source).errors.isEmpty → Monkey.AtAllTimes P
      (fun watch => (parse source).program.watched watch s.limits s.scope) s.machine) ∧
        AtAllTimes P (s.eval source).2 sources

theorem AtAllTimes.mono {P P' : Event → Machine → Prop} (hP : ∀ event m, P event m → P' event m)
    (sources : List String) :
    ∀ {s : Session}, s.AtAllTimes P sources → s.AtAllTimes P' sources := by
  induction sources with
  | nil => exact fun _ => trivial
  | cons source sources ih => exact fun h => ⟨fun hparsed => (h.1 hparsed).mono hP, ih h.2⟩

/-- What is met in a session that ends with the heap: everything is in a part of it, which has as
many objects as there are at that moment. -/
def Meets (heap : Heap) (event : Event) (m : Machine) : Prop :=
  ∃ made : Heap, made.Le heap ∧ m.Has made ∧ event.In made

theorem Meets.later {heap heap' : Heap} (hle : heap.Le heap') {event : Event} {m : Machine}
    (h : Meets heap event m) : Meets heap' event m := by
  obtain ⟨made, hmade, hm, hevent⟩ := h
  exact ⟨made, hmade.trans hle, hm, hevent⟩

theorem passes_of_meets {heap : Heap} {watch : Watch}
    (h : ∀ event m, Meets heap event m → watch event m = .ok () m) (limit d : Nat) :
    Regime.objects.Passes heap watch limit d := by
  have hignores : ∀ k, Regime.objects.Ignores heap watch k := by
    intro k made m hmade hm
    refine ⟨h .begins m ⟨made, hmade, hm.has, trivial⟩, fun use v hv => ?_⟩
    exact h (.uses use v) m ⟨made, hmade, hm.has, hv⟩
  exact ⟨hignores d, fun k _ => hignores k⟩

theorem eval_heap {s : Session} {heap : Heap} (hs : s.machine.Has heap) (source : String) :
    ∃ heap' : Heap, heap.Le heap' ∧ (s.eval source).2.machine.Has heap' ∧
      (∀ v, (s.eval source).1 = .ok v → v.In heap') ∧
      ((parse source).errors.isEmpty → Monkey.AtAllTimes (Meets heap')
        (fun watch => (parse source).program.watched watch s.limits s.scope) s.machine) := by
  have hfollows : Regime.objects.Follows s.limits.calls heap s.machine.depth Regime.objects.value
      fun watch => (parse source).program.watched watch s.limits s.scope :=
    (parse source).program.watched_follows False.elim trivial
  -- The last stage of the run is one heap for all that a watch is told of.
  obtain ⟨heap', hle, hidle, hsame⟩ := hfollows s.machine hs.at
  have hends : Regime.objects.EndsAt heap' s.machine.depth Regime.objects.value
      ((parse source).program.eval s.limits s.scope s.machine) := hidle
  unfold Session.eval
  simp only
  split
  · have hmet : Monkey.AtAllTimes (Meets heap')
        (fun watch => (parse source).program.watched watch s.limits s.scope) s.machine :=
      fun watch hwatch => hsame watch (passes_of_meets hwatch _ _)
    unfold Session.evalProgram EStateM.run
    cases hresult : (parse source).program.eval s.limits s.scope s.machine with
    | ok v m =>
      rw [hresult] at hends
      refine ⟨heap', hle, hends.1.has, ?_, fun _ => hmet⟩
      rintro u ⟨⟩
      exact hends.2
    | error e m =>
      rw [hresult] at hends
      refine ⟨heap', hle, Regime.At.has hends, ?_, fun _ => hmet⟩
      rintro u ⟨⟩
  · rename_i hparsed
    refine ⟨heap, .refl heap, hs, ?_, fun h => absurd h hparsed⟩
    rintro u ⟨⟩

theorem evalAll_heap (sources : List String) : ∀ {s : Session} {heap : Heap}, s.machine.Has heap →
    ∃ heap' : Heap, heap.Le heap' ∧ (s.evalAll sources).2.machine.Has heap' ∧
      (∀ v, .ok v ∈ (s.evalAll sources).1 → v.In heap') ∧ s.AtAllTimes (Meets heap') sources := by
  induction sources with
  | nil =>
    intro s heap hs
    exact ⟨heap, .refl heap, hs, by simp [evalAll], trivial⟩
  | cons source sources ih =>
    intro s heap hs
    obtain ⟨heap₁, hle₁, hs₁, hanswer, hmet⟩ := eval_heap hs source
    obtain ⟨heap₂, hle₂, hs₂, hanswers, hrest⟩ := ih hs₁
    -- A heap only grows, so what the first input met is still there in the end.
    refine ⟨heap₂, hle₁.trans hle₂, hs₂, fun v hv => ?_, ?_, hrest⟩
    · rcases List.mem_cons.mp hv with hv | hv
      · exact (hanswer v hv.symm).later hle₂
      · exact hanswers v hv
    · exact fun hparsed => (hmet hparsed).mono fun _ _ h => h.later hle₂

theorem new_has (limits : Limits) : (Session.new limits).machine.Has ⟨1, []⟩ := by
  refine ⟨fun {s sc} hsc b hb => ?_, rfl, rfl⟩
  have hscopes : (Session.new limits).machine.scopes = #[].push ⟨[], []⟩ := rfl
  rw [hscopes, Array.getElem?_push] at hsc
  split at hsc
  · cases hsc
    simp at hb
  · simp at hsc

end Session

end Monkey
