import Mathlib.Data.List.Induction
import Monkey.Proofs.KeyOrder
import Monkey.Proofs.Splitting
import Monkey.Value.Equality

/-!
# Hash literals

A hash literal is a finite map. Its entries are in the order of their keys, one for each key that
was evaluated, and the value of a key is that of the last pair with this key. Keys are equal if
their contents are. A key of another type ends the evaluation before its value is looked at.
-/

namespace Monkey

/-! ## Adding an entry -/

namespace Entries

variable {α : Type}

def keys (entries : List (Key × α)) : List Key := entries.map (·.1)

theorem mem_keys_insert (k l : Key) (v : α) (entries : List (Key × α)) :
    l ∈ keys (insert k v entries) ↔ l = k ∨ l ∈ keys entries := by
  unfold keys
  induction entries with
  | nil => simp [insert]
  | cons e entries ih =>
    unfold insert
    split
    · rename_i hk
      simp [hk]
    · split
      · simp
      · simp only [List.map_cons, List.mem_cons, ih]
        exact or_left_comm

theorem keys_insert_ascend (k : Key) (v : α) {entries : List (Key × α)}
    (h : (keys entries).Pairwise (· < ·)) : (keys (insert k v entries)).Pairwise (· < ·) := by
  induction entries with
  | nil => exact List.pairwise_singleton _ _
  | cons e entries ih =>
    obtain ⟨l, w⟩ := e
    obtain ⟨hfirst, hrest⟩ := List.pairwise_cons.mp h
    unfold insert
    split
    · rename_i hk
      subst hk
      exact h
    · rename_i hk
      split
      · rename_i hbefore
        -- The new key comes before this one, and so before all that follow.
        have hlt : k < l := (Key.before_iff_lt k l).mp hbefore
        refine List.pairwise_cons.mpr ⟨List.forall_mem_cons.mpr ⟨hlt, fun m hm => ?_⟩, h⟩
        exact hlt.trans (hfirst m hm)
      · rename_i hbefore
        rw [Key.before_iff_lt, not_lt] at hbefore
        -- The new key goes further back. Whatever follows then, it is behind this one.
        have hlt : l < k := lt_of_le_of_ne hbefore (Ne.symm hk)
        refine List.pairwise_cons.mpr ⟨fun m hm => ?_, ih hrest⟩
        rcases (mem_keys_insert k m v entries).mp hm with rfl | hm
        · exact hlt
        · exact hfirst m hm

end Entries

/-! ## Values as keys -/

namespace Value

/-- The type of the value is one of those that keys have. -/
def CanBeKey (v : Value) : Prop := v.kind = .integer ∨ v.kind = .boolean ∨ v.kind = .string

instance (v : Value) : Decidable v.CanBeKey := inferInstanceAs (Decidable (_ ∨ _ ∨ _))

theorem canBeKey_iff {v : Value} : v.CanBeKey ↔ ∃ k, v.key? = some k := by
  cases v <;> simp [CanBeKey, kind, key?]

theorem equal_iff_key? {v w : Value} {k : Key} (h : w.key? = some k) :
    v.equal w ↔ v.key? = some k := by
  cases w <;> cases h <;> cases v <;> simp [equal, key?]

theorem kind_of_equal {v w : Value} (h : v.equal w) : v.kind = w.kind := by
  cases v <;> cases w <;> first | rfl | simp [equal] at h

end Value

/-! ## Adding pairs one after the other -/

namespace Entries

/-- Adds a pair, if its first part can be a key. -/
def add (entries : List (Key × Value)) (pair : Value × Value) : List (Key × Value) :=
  match pair.1.key? with
  | some k => insert k pair.2 entries
  | none => entries

def ofPairs (pairs : List (Value × Value)) : List (Key × Value) := pairs.foldl add []

theorem ofPairs_concat (pairs : List (Value × Value)) (pair : Value × Value) :
    ofPairs (pairs ++ [pair]) = add (ofPairs pairs) pair := by
  simp [ofPairs]

theorem keys_ofPairs_ascend (pairs : List (Value × Value)) :
    (keys (ofPairs pairs)).Pairwise (· < ·) := by
  induction pairs using List.reverseRecOn with
  | nil => exact .nil
  | append_singleton pairs pair ih =>
    rw [ofPairs_concat, add]
    split
    · exact keys_insert_ascend _ _ ih
    · exact ih

theorem mem_keys_ofPairs (k : Key) (pairs : List (Value × Value)) :
    k ∈ keys (ofPairs pairs) ↔ ∃ p ∈ pairs, p.1.key? = some k := by
  induction pairs using List.reverseRecOn with
  | nil => simp [ofPairs, keys]
  | append_singleton pairs pair ih =>
    rw [ofPairs_concat, add]
    split
    · rename_i l hl
      rw [mem_keys_insert, ih]
      simp [hl, or_and_right, exists_or, eq_comm, or_comm]
    · rename_i hl
      rw [ih]
      simp [hl, or_and_right, exists_or]

theorem find?_ofPairs (k : Key) (pairs : List (Value × Value)) :
    find? k (ofPairs pairs) = (pairs.reverse.find? fun p => p.1.key? = some k).map (·.2) := by
  -- The last pair is added last and looked at first, so the induction goes from the end.
  induction pairs using List.reverseRecOn with
  | nil => rfl
  | append_singleton pairs pair ih =>
    rw [ofPairs_concat, add, List.reverse_concat, List.find?_cons]
    split
    · rename_i l hl
      rw [find?_insert, ih, hl]
      by_cases hk : k = l
      · simp [hk]
      · simp [hk, Ne.symm hk]
    · rename_i hl
      simp [hl, ih]

end Entries

/-! ## Evaluating pairs -/

/-- Evaluated from `m`, one pair after the other and each key before its value, the pairs have these
values, and leave `m'`. -/
inductive PairsHave (limits : Limits) (env : ScopeId) :
    List (Expr × Expr) → Machine → List (Value × Value) → Machine → Prop
  | nil {m : Machine} : PairsHave limits env [] m [] m
  | cons {key value : Expr} {pairs : List (Expr × Expr)} {m m₁ m₂ m' : Machine} {k v : Value}
    {vs : List (Value × Value)} :
    key.eval limits env m = .ok k m₁ → value.eval limits env m₁ = .ok v m₂ →
      PairsHave limits env pairs m₂ vs m' →
        PairsHave limits env ((key, value) :: pairs) m ((k, v) :: vs) m'

section

variable {limits : Limits} {env : ScopeId} {pairs : List (Expr × Expr)} {m m' : Machine}
  {vs : List (Value × Value)}

theorem PairsHave.evalPairsWith (h : PairsHave limits env pairs m vs m')
    (hkeys : ∀ p ∈ vs, p.1.CanBeKey) (others : List (Expr × Expr))
    (entries : List (Key × Value)) :
    Expr.evalPairsWith .idle limits.calls (levels .idle limits) (pairs ++ others) entries env m =
      Expr.evalPairsWith .idle limits.calls (levels .idle limits) others
        (vs.foldl Entries.add entries) env m' := by
  induction h generalizing entries with
  | nil => rfl
  | cons hkey hvalue _ ih =>
    obtain ⟨hk, hkeys⟩ := List.forall_mem_cons.mp hkeys
    obtain ⟨k, hk⟩ := Value.canBeKey_iff.mp hk
    rw [Expr.eval, Expr.watched] at hkey hvalue
    rw [List.cons_append, Expr.evalPairsWith_cons, Eval.bind_of_ok hkey, hk, Option.elim_some,
      Eval.bind_of_ok hvalue, ih hkeys, List.foldl_cons, Entries.add, hk]

theorem PairsHave.eval_hash (h : PairsHave limits env pairs m vs m')
    (hkeys : ∀ p ∈ vs, p.1.CanBeKey) :
    (Expr.hash pairs).eval limits env m =
      .ok (.hash m'.fresh (Entries.ofPairs vs)) { m' with fresh := m'.fresh + 1 } := by
  have hpairs : Expr.evalPairsWith .idle limits.calls (levels .idle limits) pairs [] env m =
      .ok (Entries.ofPairs vs) m' := by
    have hall := h.evalPairsWith hkeys [] []
    rw [List.append_nil] at hall
    exact hall
  rw [Expr.eval, Expr.watched, Expr.evalWith_hash, Eval.bind_of_ok hpairs]
  rfl

theorem PairsHave.eval_hash_unusable (h : PairsHave limits env pairs m vs m')
    (hkeys : ∀ p ∈ vs, p.1.CanBeKey) {key : Expr} {k : Value} {m₁ : Machine}
    (hkey : key.eval limits env m' = .ok k m₁) (hk : ¬ k.CanBeKey) (value : Expr)
    (others : List (Expr × Expr)) :
    (Expr.hash (pairs ++ (key, value) :: others)).eval limits env m =
      .error (.error (.unusableHashKey k.kind)) m₁ := by
  have hnone : k.key? = none := by
    rw [Value.canBeKey_iff, not_exists] at hk
    exact Option.eq_none_iff_forall_ne_some.mpr hk
  rw [Expr.eval, Expr.watched] at hkey
  have hpairs : Expr.evalPairsWith .idle limits.calls (levels .idle limits)
      (pairs ++ (key, value) :: others) [] env m =
        .error (.error (.unusableHashKey k.kind)) m₁ := by
    rw [h.evalPairsWith hkeys, Expr.evalPairsWith_cons, Eval.bind_of_ok hkey, hnone]
    rfl
  rw [Expr.eval, Expr.watched, Expr.evalWith_hash, Eval.bind_of_error hpairs]

/-- A hash literal maps each key to its last value, and fails at a key that cannot be used. -/
theorem hash_lastWins (h : PairsHave limits env pairs m vs m') (hkeys : ∀ p ∈ vs, p.1.CanBeKey) :
    (∃ entries,
      (Expr.hash pairs).eval limits env m =
        .ok (.hash m'.fresh entries) { m' with fresh := m'.fresh + 1 } ∧
      (Entries.keys entries).Pairwise (· < ·) ∧
      (∀ k, k ∈ Entries.keys entries ↔ ∃ p ∈ vs, p.1.key? = some k) ∧
      ∀ id k, k.CanBeKey →
        indexInto (.hash id entries) k =
          .ok (((vs.reverse.find? fun p => p.1.equal k).map (·.2)).getD .null) ∧
        ∀ p ∈ vs, p.1.equal k → p.1.kind = k.kind) ∧
    ∀ key value others k m₁, key.eval limits env m' = .ok k m₁ → ¬ k.CanBeKey →
      (Expr.hash (pairs ++ (key, value) :: others)).eval limits env m =
        .error (.error (.unusableHashKey k.kind)) m₁ := by
  refine ⟨⟨Entries.ofPairs vs, h.eval_hash hkeys, Entries.keys_ofPairs_ascend vs,
    fun k => Entries.mem_keys_ofPairs k vs, ?_⟩, ?_⟩
  · intro id k hk
    obtain ⟨l, hl⟩ := Value.canBeKey_iff.mp hk
    -- Values that can be keys are equal if and only if they are the same key.
    have hsame : (fun p : Value × Value => p.1.equal k) = fun p => decide (p.1.key? = some l) := by
      funext p
      rw [Bool.eq_iff_iff, Value.equal_iff_key? hl, decide_eq_true_iff]
    refine ⟨?_, fun p _ hequal => ?_⟩
    · rw [indexInto, hl, hsame]
      simp only [Entries.find?_ofPairs]
    · exact Value.kind_of_equal hequal
  · intro key value others k m₁ hkey hk
    exact h.eval_hash_unusable hkeys hkey hk value others

end

/-- `"z": 1, true: 2, "é": 3, 7: 4, "z": 5, false: 6` -/
def mixedPairs : List (Expr × Expr) :=
  [(.string "z", .integer 1), (.boolean true, .integer 2), (.string "é", .integer 3),
    (.integer 7, .integer 4), (.string "z", .integer 5), (.boolean false, .integer 6)]

/-- Each string is a new one, so the two keys `"z"` are not identical. -/
def mixedValues : List (Value × Value) :=
  [(.string 0 "z", .integer 1), (.boolean true, .integer 2), (.string 1 "é", .integer 3),
    (.integer 7, .integer 4), (.string 2 "z", .integer 5), (.boolean false, .integer 6)]

/-- The first key `"z"` has its value replaced, and the name after the array is not looked up. -/
theorem hash_lastWins_mixedPairs :
    (∃ id entries m', (Expr.hash mixedPairs).eval ⟨1, 0⟩ 0 (Session.new ⟨1, 0⟩).machine =
        .ok (.hash id entries) m' ∧
      Entries.keys entries =
        [.integer 7, .boolean false, .boolean true, .string "z", .string "é"] ∧
      (Entries.keys entries).Pairwise (· < ·) ∧
      indexInto (.hash id entries) (.string 9 "z") = .ok (.integer 5) ∧
      indexInto (.hash id entries) (.integer 1) = .ok .null) ∧
    ∃ m', (Expr.hash (mixedPairs ++ [(.array [], .identifier "x")])).eval ⟨1, 0⟩ 0
        (Session.new ⟨1, 0⟩).machine = .error (.error (.unusableHashKey .array)) m' := by
  have hvalues : PairsHave ⟨1, 0⟩ 0 mixedPairs (Session.new ⟨1, 0⟩).machine mixedValues
      { (Session.new ⟨1, 0⟩).machine with fresh := 3 } :=
    .cons rfl rfl (.cons rfl rfl (.cons rfl rfl (.cons rfl rfl (.cons rfl rfl (.cons rfl rfl
      .nil)))))
  obtain ⟨⟨entries, heval, hascend, -, hindex⟩, hunusable⟩ := hash_lastWins hvalues (by decide)
  have hentries : entries = [(.integer 7, .integer 4), (.boolean false, .integer 6),
      (.boolean true, .integer 2), (.string "z", .integer 5), (.string "é", .integer 3)] := by
    cases heval
    rfl
  refine ⟨⟨3, entries, _, heval, by rw [hentries]; rfl, hascend, ?_, ?_⟩, ?_⟩
  · exact (hindex 3 (.string 9 "z") (by decide)).1
  · exact (hindex 3 (.integer 1) (by decide)).1
  · exact ⟨_, hunusable (.array []) (.identifier "x") [] (.array 3 []) _ rfl (by decide)⟩

end Monkey
