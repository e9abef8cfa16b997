import Monkey.Proofs.Equivariance
import Monkey.Proofs.Frame
import Monkey.Proofs.References
import Monkey.Value.Printer

/-!
# Calls have no memory

A call leaves all scopes as they are and adds new ones behind them. So calling the same value with
the same arguments later on gives the same result, whatever was called in between; only new objects
and new scopes come out with other identities and at other places.
-/

namespace Monkey

/-! ## Machines that grow -/

/-- The second machine has all scopes of the first one, unchanged, and maybe more. -/
structure Machine.Extends (m m' : Machine) : Prop where
  scopes : ∀ {i : ScopeId} {sc : Scope}, m.scopes[i]? = some sc → m'.scopes[i]? = some sc
  size : m.scopes.size ≤ m'.scopes.size
  fresh : m.fresh ≤ m'.fresh
  depth : m'.depth = m.depth

theorem Machine.Extends.refl (m : Machine) : m.Extends m :=
  ⟨fun h => h, Nat.le_refl _, Nat.le_refl _, rfl⟩

theorem Machine.Extends.trans {m m₁ m₂ : Machine} (h : m.Extends m₁) (h' : m₁.Extends m₂) :
    m.Extends m₂ :=
  ⟨fun hsc => h'.scopes (h.scopes hsc), Nat.le_trans h.size h'.size,
    Nat.le_trans h.fresh h'.fresh, h'.depth.trans h.depth⟩

theorem Value.apply_extends (limits : Limits) (f : Value) (args : List Value) (m : Machine) :
    m.Extends ((f.apply limits args).after m) := by
  have hframe : Machine.Frame (fun _ => False) m ((f.apply limits args).after m) :=
    Value.apply_frame limits f args m
  have hfollows : Regime.any.Follows limits.calls m.fresh m.depth Regime.any.value
      fun watch => f.applyWatched watch limits args :=
    Value.applyWatched_follows (Regime.value_any _ f) fun a _ => Regime.value_any _ a
  obtain ⟨w, hgrows, hafter⟩ := hfollows.after (Regime.at_any m)
  -- A call may write to none of the scopes there are, so all of them are as they were.
  refine ⟨fun hsc => ?_, hframe.size_le, ?_, hafter.depth⟩
  · obtain ⟨sc', hsc', henclosing, -, hbindings⟩ := hframe _ _ hsc
    cases sc'
    cases henclosing
    cases hbindings not_false
    exact hsc'
  · have hw : w = ((f.apply limits args).after m).fresh := hafter.extent
    rw [← hw]
    exact hgrows

/-- The machine after a row of calls. Calls that fail are part of the row. -/
def Machine.afterCalls (limits : Limits) : List (Value × List Value) → Machine → Machine
  | [], m => m
  | (f, args) :: calls, m => afterCalls limits calls ((f.apply limits args).after m)

theorem Machine.extends_afterCalls (limits : Limits) :
    ∀ (calls : List (Value × List Value)) (m : Machine), m.Extends (m.afterCalls limits calls)
  | [], m => .refl m
  | (f, args) :: calls, m =>
    (f.apply_extends limits args m).trans (Machine.extends_afterCalls limits calls _)

/-! ## Renamings that keep what there is -/

/-- The renaming keeps all names, and the scopes and objects of the machine. -/
structure Renaming.Keeps (ρ : Renaming) (m : Machine) : Prop where
  name : ρ.name = id
  scope : ∀ s < m.scopes.size, ρ.scope s = s
  identity : ∀ i < m.fresh, ρ.identity i = i

section

variable {ρ : Renaming} {m : Machine}

mutual

theorem Value.Within.rename_eq (hρ : ρ.Keeps m) : ∀ {v : Value}, v.Within m → v.rename ρ = v
  | .integer _, _ | .boolean _, _ | .null, _ | .builtin _, _ => rfl
  | .string id _, h => by
    rw [Value.rename, hρ.identity id h]
  | .array id vs, h => by
    rw [Value.rename, hρ.identity id h.1, Value.Within.renameList_eq hρ h.2]
  | .hash id entries, h => by
    rw [Value.rename, hρ.identity id h.1, Value.Within.renameEntries_eq hρ h.2]
  | .returned v, h => by
    rw [Value.rename, Value.Within.rename_eq hρ h.2]
  | .function id ps b s, h => by
    rw [Value.rename, hρ.identity id h.1, hρ.scope s h.2, hρ.name, List.map_id, Block.rename_id]
  | .quote id e, h => by
    rw [Value.rename, hρ.identity id h, hρ.name, Expr.rename_id]

theorem Value.Within.renameList_eq (hρ : ρ.Keeps m) :
    ∀ {vs : List Value}, Value.ListAll (Value.Refers m.extent) vs → Value.renameList ρ vs = vs
  | [], _ => rfl
  | v :: vs, h => by
    rw [Value.renameList, Value.Within.rename_eq hρ h.1, Value.Within.renameList_eq hρ h.2]

theorem Value.Within.renameEntries_eq (hρ : ρ.Keeps m) : ∀ {entries : List (Key × Value)},
    Value.EntriesAll (Value.Refers m.extent) entries → Value.renameEntries ρ entries = entries
  | [], _ => rfl
  | (k, v) :: entries, h => by
    rw [Value.renameEntries, Value.Within.rename_eq hρ h.1, Value.Within.renameEntries_eq hρ h.2]

end

mutual

theorem Value.render_rename (hname : ρ.name = id) : ∀ v : Value, (v.rename ρ).render = v.render
  | .integer _ | .boolean _ | .null | .builtin _ | .string _ _ => rfl
  | .array _ vs => by
    rw [Value.rename, Value.render, Value.render, Value.renderList_rename hname vs]
  | .hash _ entries => by
    rw [Value.rename, Value.render, Value.render, Value.renderEntries_rename hname entries]
  | .returned v => by
    rw [Value.rename, Value.render, Value.render, v.render_rename hname]
  | .function _ ps b _ => by
    rw [Value.rename, Value.render, Value.render, hname, List.map_id, Block.rename_id]
  | .quote _ e => by
    rw [Value.rename, Value.render, Value.render, hname, Expr.rename_id]

theorem Value.renderList_rename (hname : ρ.name = id) :
    ∀ vs : List Value, Value.renderList (Value.renameList ρ vs) = Value.renderList vs
  | [] => rfl
  | v :: vs => by
    rw [Value.renameList, Value.renderList, Value.renderList, v.render_rename hname,
      Value.renderList_rename hname vs]

theorem Value.renderEntries_rename (hname : ρ.name = id) : ∀ entries : List (Key × Value),
    Value.renderEntries (Value.renameEntries ρ entries) = Value.renderEntries entries
  | [] => rfl
  | (k, v) :: entries => by
    rw [Value.renameEntries, Value.renderEntries, Value.renderEntries, v.render_rename hname,
      Value.renderEntries_rename hname entries]

end

theorem Machine.Closed.rename_scope (hm : m.Closed) (hρ : ρ.Keeps m) {i : ScopeId} {sc : Scope}
    (hsc : m.scopes[i]? = some sc) : sc.rename ρ = sc := by
  have hi : i < m.extent.scopes := (Array.getElem?_eq_some_iff.mp hsc).1
  have hbindings : Bindings.rename ρ sc.bindings = sc.bindings := by
    refine (List.map_congr_left fun b hb => ?_).trans (List.map_id _)
    rw [Prod.map, hρ.name, Value.Within.rename_eq hρ (hm.bindings hi hsc b hb)]
    rfl
  have henclosing : sc.enclosing.map ρ.scope = sc.enclosing :=
    (List.map_congr_left fun j hj => hρ.scope j (hm.enclosing hi hsc j hj)).trans (List.map_id _)
  rw [Scope.rename, hbindings, henclosing]

end

/-! ## Making room -/

/-- Leaves the first `n` numbers alone and moves the others up by `k`. -/
def moveUp (n k i : Nat) : Nat := if i < n then i else i + k

theorem moveUp_injective (n k : Nat) : Function.Injective (moveUp n k) := by
  intro i j h
  unfold moveUp at h
  split at h <;> split at h <;> omega

theorem moveUp_of_lt {n k i : Nat} (h : i < n) : moveUp n k i = i := if_pos h

theorem moveUp_add (n k j : Nat) : moveUp n k (n + j) = n + k + j := by
  unfold moveUp
  split <;> omega

theorem reservedNames_id : ∀ n ∈ reservedNames, id n = n := fun _ _ => rfl

/-- Moves new scopes and objects of `m` to where those of `m'` go. -/
def Renaming.between (m m' : Machine) : Renaming where
  name := id
  scope := moveUp m.scopes.size (m'.scopes.size - m.scopes.size)
  identity := moveUp m.fresh (m'.fresh - m.fresh)
  name_injective := Function.injective_id
  scope_injective := moveUp_injective _ _
  identity_injective := moveUp_injective _ _
  keeps := reservedNames_id

theorem Renaming.between_keeps (m m' : Machine) : (Renaming.between m m').Keeps m :=
  ⟨rfl, fun _ hs => moveUp_of_lt hs, fun _ hi => moveUp_of_lt hi⟩

theorem Machine.Closed.renamed {m m' : Machine} (hm : m.Closed) (h : m.Extends m') :
    Machine.Renamed (.between m m') m.depth m m' := by
  have hkeeps := Renaming.between_keeps m m'
  have hsize := h.size
  refine ⟨fun i => ?_, fun k => ?_, fun k => ?_, rfl, h.depth⟩
  · by_cases hi : i < m.scopes.size
    · have hsc := Array.getElem?_eq_getElem hi
      rw [hkeeps.scope i hi, hsc, h.scopes hsc, Option.map_some, hm.rename_scope hkeeps hsc]
    · have hplace : (Renaming.between m m').scope i = i + (m'.scopes.size - m.scopes.size) :=
        if_neg hi
      have hle := Nat.not_lt.mp hi
      rw [hplace, Array.getElem?_eq_none (by omega), Array.getElem?_eq_none (by omega)]
      rfl
  · exact (moveUp_add _ _ k).trans (congrArg (· + k) (Nat.add_sub_of_le h.size))
  · exact (moveUp_add _ _ k).trans (congrArg (· + k) (Nat.add_sub_of_le h.fresh))

/-! ## Calls -/

theorem Stop.rename_id (e : Stop) : e.rename id = e := by
  cases e with
  | exhausted => rfl
  | error e => cases e <;> rfl

/-- Both stop with the same error, or both give values of the same kind and with the same text. Up
to the renaming the values are the same, and so are the machines. -/
inductive SameOutcome (ρ : Renaming) (d : Nat) :
    EStateM.Result Stop Machine Value → EStateM.Result Stop Machine Value → Prop
  | error {e : Stop} {m m' : Machine} : Machine.Renamed ρ d m m' →
    SameOutcome ρ d (.error e m) (.error e m')
  | value {v v' : Value} {m m' : Machine} : v'.kind = v.kind → v'.render = v.render →
    v' = v.rename ρ → Machine.Renamed ρ d m m' → SameOutcome ρ d (.ok v m) (.ok v' m')

theorem Value.apply_sameOutcome {ρ : Renaming} {m m' : Machine} (hρ : ρ.Keeps m)
    (hm : Machine.Renamed ρ m.depth m m') {f : Value} (hf : f.Within m) {args : List Value}
    (hargs : ∀ a ∈ args, a.Within m) (limits : Limits) :
    SameOutcome ρ m.depth (f.apply limits args m) (f.apply limits args m') := by
  have hmatches := f.apply_rename ρ limits m.depth args m m' hm
  have hargs' : args.map (Value.rename ρ) = args :=
    (List.map_congr_left fun a ha => Value.Within.rename_eq hρ (hargs a ha)).trans (List.map_id _)
  rw [Value.Within.rename_eq hρ hf, hargs'] at hmatches
  generalize f.apply limits args m = r at hmatches ⊢
  generalize f.apply limits args m' = r' at hmatches ⊢
  cases hmatches with
  | ok hrenamed =>
    exact .value (Value.kind_rename ρ _) (Value.render_rename hρ.name _) rfl hrenamed
  | stop he hrenamed =>
    have hsame := he.trans (congrArg (Stop.rename · _) hρ.name)
    rw [Stop.rename_id] at hsame
    rw [hsame]
    exact .error hrenamed
  | cutOff he => exact he.elim

/-- Before and after any calls, a call has the same outcome, up to places of scopes and identities.
-/
theorem Value.apply_afterCalls {m : Machine} (hm : m.Reachable) {f : Value} (hf : f.Within m)
    {args : List Value} (hargs : ∀ a ∈ args, a.Within m) (limits : Limits)
    (calls : List (Value × List Value)) :
    ∃ ρ : Renaming, ρ.Keeps m ∧
      SameOutcome ρ m.depth (f.apply limits args m)
        (f.apply limits args (m.afterCalls limits calls)) := by
  have hkeeps := Renaming.between_keeps m (m.afterCalls limits calls)
  have hrenamed := hm.closed.renamed (m.extends_afterCalls limits calls)
  exact ⟨_, hkeeps, Value.apply_sameOutcome hkeeps hrenamed hf hargs limits⟩

/-- A function that makes functions, and where it was made. -/
def keeper : Value := .function 0 ["x"] [.expr (.function [] [.expr (.identifier "x")])] 0

/-- After `let keep = fn(x) { fn() { x } }`. -/
def keeperMachine : Machine :=
  ((⟨[.bind "keep" (.function ["x"] [.expr (.function [] [.expr (.identifier "x")])])]⟩ :
    Program).eval ⟨1, 0⟩ 0).after Machine.empty.addScope.2

theorem Value.apply_afterCalls_keeper :
    keeperMachine.Reachable ∧ keeperMachine.lookup 0 "keep" = some keeper ∧
      keeper.Within keeperMachine ∧
      (∃ m, keeper.apply ⟨1, 0⟩ [.integer 5] keeperMachine =
        .ok (.function 1 [] [.expr (.identifier "x")] 1) m) ∧
      (∃ m, keeper.apply ⟨1, 0⟩ [.integer 5]
          (keeperMachine.afterCalls ⟨1, 0⟩ [(keeper, []), (keeper, [.integer 7])]) =
        .ok (.function 2 [] [.expr (.identifier "x")] 2) m) ∧
      ∃ ρ : Renaming, ρ.Keeps keeperMachine ∧
        SameOutcome ρ keeperMachine.depth (keeper.apply ⟨1, 0⟩ [.integer 5] keeperMachine)
          (keeper.apply ⟨1, 0⟩ [.integer 5]
            (keeperMachine.afterCalls ⟨1, 0⟩ [(keeper, []), (keeper, [.integer 7])])) := by
  have hm : keeperMachine.Reachable := .program (.addScope .empty) (by decide)
  have hf : keeper.Within keeperMachine := ⟨Nat.zero_lt_one, Nat.zero_lt_one⟩
  have hargs : ∀ a ∈ [Value.integer 5], a.Within keeperMachine := by
    intro a ha
    rw [List.mem_singleton.mp ha]
    trivial
  exact ⟨hm, rfl, hf, ⟨_, rfl⟩, ⟨_, rfl⟩, Value.apply_afterCalls hm hf hargs ⟨1, 0⟩ _⟩

end Monkey
