import Monkey.Proofs.Collection
import Monkey.Proofs.Equivariance
import Monkey.Proofs.Termination

/-!
# Quotes stay clean

A quote is clean if it holds no call of `unquote`. As long as all quotes are clean that can be
reached from what is held on to, an evaluation makes no other ones: what it gives is clean, and so
is all that can be reached afterwards. What cannot be reached may be of any kind.
-/

namespace Monkey

/-- All quotes that can be reached from the places are clean. -/
def Machine.Clean (m : Machine) (held : Place → Prop) : Prop :=
  ∀ id e, m.Keeps held (.value (.quote id e)) → e.UnquoteFree

section

variable {m : Machine} {held : Place → Prop}

mutual

theorem Machine.Clean.value (h : m.Clean held) :
    ∀ {v : Value}, m.Keeps held (.value (v.rename (m.collecting held))) →
      v.Holds endingDiscipline.value
  | .integer _, _ | .boolean _, _ | .string _ _, _ | .null, _ | .builtin _, _
  | .function _ _ _ _, _ => trivial
  | .quote id node, hkept => by
    have hclean := h _ _ hkept
    rwa [← node.rename_id]
  | .array _ vs, hkept => Machine.Clean.values h vs fun _ hv => hkept.step (.element hv)
  | .hash _ entries, hkept =>
    Machine.Clean.entries h entries fun _ _ hv => hkept.step (.entry hv)
  | .returned v, hkept => Machine.Clean.value (v := v) h (hkept.step .returned)

theorem Machine.Clean.values (h : m.Clean held) :
    ∀ vs : List Value,
      (∀ v ∈ Value.renameList (m.collecting held) vs, m.Keeps held (.value v)) →
        Value.ListHolds endingDiscipline.value vs
  | [], _ => trivial
  | _ :: vs, hkept =>
    ⟨Machine.Clean.value h (hkept _ List.mem_cons_self),
      Machine.Clean.values h vs fun v hv => hkept v (List.mem_cons_of_mem _ hv)⟩

theorem Machine.Clean.entries (h : m.Clean held) :
    ∀ entries : List (Key × Value),
      (∀ k v, (k, v) ∈ Value.renameEntries (m.collecting held) entries →
        m.Keeps held (.value v)) → Value.EntriesHold endingDiscipline.value entries
  | [], _ => trivial
  | (_, _) :: entries, hkept =>
    ⟨Machine.Clean.value h (hkept _ _ List.mem_cons_self),
      Machine.Clean.entries h entries fun k v hv => hkept k v (List.mem_cons_of_mem _ hv)⟩

end

theorem Machine.Clean.place (h : m.Clean held) {a : Place}
    (ha : m.Keeps held (a.rename (m.collecting held))) : a.Holds endingDiscipline.value := by
  cases a with
  | scope s => trivial
  | value v => exact h.value ha

theorem Machine.Clean.collected (h : m.Clean held) {m₀ : Machine} {d : Nat}
    (hm : Machine.Renamed (m.collecting held) d m₀ m) : m₀.Holds endingDiscipline.value := by
  intro i sc hsc b hb
  have hs : m.scopes[m.liveScope held i]? = some (sc.rename (m.collecting held)) := by
    have hscopes := hm.scopes i
    rwa [hsc] at hscopes
  have hkept := m.keeps_liveScope (Array.getElem?_eq_some_iff.mp hs).1
  have hbinding : (b.1, b.2.rename (m.collecting held)) ∈
      (sc.rename (m.collecting held)).bindings :=
    List.mem_map_of_mem (f := Prod.map _ (Value.rename (m.collecting held))) hb
  exact h.value (hkept.step (.binding hs hbinding))

theorem Machine.Renamed.unquoteFree {m₀ m' : Machine} {d : Nat}
    (hm : Machine.Renamed (m.collecting held) d m₀ m') (hvalues : m₀.Holds endingDiscipline.value)
    {a : Place} (ha : a.Holds endingDiscipline.value) {i : Identity} {e : Expr}
    (hreaches : m'.Reaches (a.rename (m.collecting held)) (.value (.quote i e))) :
    e.UnquoteFree := by
  obtain ⟨b, hb, heq⟩ := hm.reaches hreaches
  have hholds := hb.holds hvalues ha
  cases b with
  | scope s => cases heq
  | value v =>
    cases v with
    | quote j node =>
      cases heq
      change (node.rename id).UnquoteFree
      rw [node.rename_id]
      exact hholds
    | _ => cases heq

theorem Expr.eval_collected {m₀ : Machine} (hm : Machine.Renamed (m.collecting held) m.depth m₀ m)
    (limits : Limits) (e : Expr) (i : ScopeId) :
    (Simulation.ofRenaming (m.collecting held)).Matches m.depth (Value.rename (m.collecting held))
      (e.eval limits i m₀) (e.eval limits (m.liveScope held i) m) := by
  have hsame := Expr.evalWith_simulates (levels_rename (m.collecting held) limits m.depth) e i
    m₀ m hm
  have hname : e.rename (Simulation.ofRenaming (m.collecting held)).ρ.name = e := e.rename_id
  rw [hname] at hsame
  exact hsame

theorem Expr.eval_clean (hm : m.Clean held) {env : ScopeId} (henv : held (.scope env))
    (limits : Limits) (e : Expr) :
    ((e.eval limits env).after m).Clean held ∧
      ∀ v m', e.eval limits env m = .ok v m' → m'.Clean (· = .value v) := by
  obtain ⟨i, rfl⟩ : ∃ i, m.liveScope held i = env :=
    m.exists_liveScope held (.inl ⟨_, henv, .start⟩)
  -- Evaluate without the scopes that cannot be reached: there, all values are clean.
  obtain ⟨m₀, hrenamed⟩ := m.exists_collected held
  have hends : endingDiscipline.Ends m.depth (Value.Holds endingDiscipline.value)
      (e.eval limits i m₀) :=
    Expr.evalWith_ensures (levels_respect (endingDiscipline_admits _ _) m.depth) e i
      e.everywhere_any trivial m₀
      ⟨trivial, hm.collected hrenamed, hrenamed.depth.1⟩
  have hmatches := Expr.eval_collected hrenamed limits e i
  have hheld : ∀ {m₁ m' : Machine}, Machine.Renamed (m.collecting held) m.depth m₁ m' →
      m₁.Holds endingDiscipline.value → m'.Clean held := by
    rintro m₁ m' hrenamed hvalues j node ⟨a, ha, hreaches⟩
    have hkept : m.Keeps held a := ⟨a, ha, .start⟩
    obtain ⟨b, rfl⟩ := hkept.exists_place
    exact hrenamed.unquoteFree hvalues (hm.place hkept) hreaches
  unfold Eval.after
  generalize e.eval limits i m₀ = r₀ at hends hmatches
  generalize e.eval limits (m.liveScope held i) m = r at hmatches
  cases hmatches with
  | ok hrenamed' =>
    refine ⟨hheld hrenamed' hends.1.values, ?_⟩
    rintro v m' ⟨⟩ j node ⟨a, rfl, hreaches⟩
    exact hrenamed'.unquoteFree (a := .value _) hends.1.values hends.2 hreaches
  | stop _ hrenamed' => exact ⟨hheld hrenamed' hends.1.values, nofun⟩
  | cutOff hcut => exact hcut.elim

end

/-! ## Quoting -/

/-- Quoting gives a clean quote and leaves all quotes clean that can be reached, also when it fails.
-/
theorem quote_leavesClean (limits : Limits) (node : Expr) {m : Machine} {held : Place → Prop}
    (hm : m.Clean held) {env : ScopeId} (henv : held (.scope env)) :
    (∀ v m', (Expr.call (.identifier "quote") [node]).eval limits env m = .ok v m' →
      ∃ i e, v = .quote i e ∧ e.UnquoteFree) ∧
    (((Expr.call (.identifier "quote") [node]).eval limits env).after m).Clean held ∧
    (node.UnquoteFree → (Expr.call (.identifier "quote") [node]).eval limits env m =
      .ok (.quote m.fresh node) { m with fresh := m.fresh + 1 }) := by
  obtain ⟨inner, hquote⟩ := Expr.eval_quote limits node env
  obtain ⟨hafter, hanswer⟩ := Expr.eval_clean hm henv limits (.call (.identifier "quote") [node])
  refine ⟨fun v m' hrun => ?_, hafter, fun hfree => ?_⟩
  · have hclean := hanswer v m' hrun
    rw [hquote] at hrun
    change EStateM.bind _ _ m = _ at hrun
    unfold EStateM.bind at hrun
    split at hrun
    · cases hrun
      exact ⟨_, _, rfl, hclean _ _ ⟨_, rfl, .start⟩⟩
    · cases hrun
  · rw [hquote, unquoter_expr_eq _ node hfree]
    rfl

/-- In one scope `q` stands for the quoted name `unquote`. In the other one, which cannot be reached
from there, `q` stands for a quote that is not clean. -/
def quotedName : Machine :=
  ⟨#[⟨[("q", .quote 0 (.identifier "unquote"))], []⟩,
    ⟨[("q", .quote 1 (.call (.identifier "unquote") [.integer 1]))], []⟩], 2, 0⟩

theorem reaches_quotedName {a : Place} (h : quotedName.Reaches (.scope 0) a) :
    a = .scope 0 ∨ a = .value (.quote 0 (.identifier "unquote")) := by
  induction h with
  | start => exact .inl rfl
  | step _ hleads ih =>
    rcases ih with rfl | rfl
    · cases hleads with
      | binding hs hb =>
        cases hs
        rcases List.mem_singleton.mp hb with ⟨rfl, rfl⟩
        exact .inr rfl
      | enclosing hj =>
        rcases List.mem_singleton.mp hj with rfl
        exact .inl rfl
    · cases hleads

/-- In `unquote(q)(1 + 1)` the callee becomes `unquote`, so there is a new call to replace. -/
theorem quote_leavesClean_newCall :
    quotedName.Clean (· = .scope 0) ∧
      (Expr.call (.identifier "quote") [.call (.call (.identifier "unquote") [.identifier "q"])
        [.binary (.integer 1) .plus (.integer 1)]]).eval ⟨1, 0⟩ 0 quotedName =
          .ok (.quote 2 (.integer 2)) { quotedName with fresh := 3 } ∧
      Machine.Clean { quotedName with fresh := 3 } (· = .scope 0) := by
  have hclean : quotedName.Clean (· = .scope 0) := by
    rintro i e ⟨a, rfl, hreaches⟩
    rcases reaches_quotedName hreaches with h | h
    · cases h
    · cases h
      exact ⟨rfl, trivial⟩
  obtain ⟨-, hafter, -⟩ := quote_leavesClean ⟨1, 0⟩
    (.call (.call (.identifier "unquote") [.identifier "q"])
      [.binary (.integer 1) .plus (.integer 1)]) hclean rfl
  exact ⟨hclean, rfl, hafter⟩

end Monkey
