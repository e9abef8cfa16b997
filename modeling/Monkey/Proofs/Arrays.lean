import Monkey.Proofs.Identity

/-!
# Arrays as lists

Arrays are never changed: `push` and `rest` make new ones. What `len` and the index operator show of
a new array is settled by the old one, at every index of 64 bits, and the elements are the very
same. An array can be taken apart with `first` and `rest` and put together again with `push`.
-/

namespace Monkey

/-! ## Counting and indexing -/

/-- The list is not too long to be counted in 64 bits. No array in memory is. -/
def Countable {α : Type} (xs : List α) : Prop := (xs.length : Int) ≤ Integer.greatest

theorem Countable.toInt_length {α : Type} {xs : List α} (h : Countable xs) :
    (Int64.ofNat xs.length).toInt = xs.length := by
  unfold Countable Integer.greatest at h
  exact Int64.toInt_ofNat_of_lt (by omega)

theorem Countable.length_eq_zero_iff {α : Type} {xs : List α} (h : Countable xs) :
    Int64.ofNat xs.length = 0 ↔ xs = [] := by
  have hlength := h.toInt_length
  rw [← Int64.toInt_inj, hlength, Int64.toInt_zero]
  simp

theorem ofNat_length_cons {α : Type} (x : α) (xs : List α) :
    Int64.ofNat (x :: xs).length - 1 = Int64.ofNat xs.length := by
  rw [List.length_cons, Int64.ofNat_add]
  simp

theorem Countable.tail {α : Type} {x : α} {xs : List α} (h : Countable (x :: xs)) :
    Countable xs := by
  unfold Countable at h ⊢
  rw [List.length_cons] at h
  omega

theorem index_cases (i : Int64) : i.toInt < 0 ∨ ∃ k : Nat, i.toInt = k := by
  by_cases hi : i.toInt < 0
  · exact .inl hi
  · exact .inr ⟨i.toInt.toNat, by omega⟩

section

variable {xs : List Value} {i : Int64}

theorem elementAt_of_neg (hi : i.toInt < 0) : elementAt xs i = .null := if_pos hi

theorem elementAt_of_eq {k : Nat} (hi : i.toInt = k) : elementAt xs i = xs[k]?.getD .null := by
  unfold elementAt
  rw [if_neg (by omega), hi, Int.toNat_natCast]

theorem elementAt_outside (hi : i.toInt < 0 ∨ xs.length ≤ i.toInt) : elementAt xs i = .null := by
  obtain hneg | ⟨k, hk⟩ := index_cases i
  · exact elementAt_of_neg hneg
  · rw [elementAt_of_eq hk, List.getElem?_eq_none (by omega)]
    rfl

theorem elementAt_concat (v : Value) :
    elementAt (xs ++ [v]) i = if i.toInt = xs.length then v else elementAt xs i := by
  obtain hneg | ⟨k, hk⟩ := index_cases i
  · rw [elementAt_of_neg hneg, elementAt_of_neg hneg, if_neg (by omega)]
  · rw [elementAt_of_eq hk, elementAt_of_eq hk]
    by_cases hlast : k = xs.length
    · rw [if_pos (by omega), hlast]
      simp
    · rw [if_neg (by omega), List.getElem?_append]
      split
      · rfl
      · rw [List.getElem?_eq_none (by simp; omega), List.getElem?_eq_none (by omega)]

theorem elementAt_cons (x : Value) {j : Int64} (hi : 0 ≤ i.toInt) (hj : j.toInt = i.toInt + 1) :
    elementAt (x :: xs) j = elementAt xs i := by
  obtain hneg | ⟨k, hk⟩ := index_cases i
  · omega
  · rw [elementAt_of_eq hk, elementAt_of_eq (by omega : j.toInt = (k + 1 : Nat)),
      List.getElem?_cons_succ]

theorem elementAt_last (x : Value) (h : Countable xs) :
    elementAt (x :: xs) (Int64.ofNat xs.length) = (x :: xs).getLast?.getD .null := by
  rw [elementAt_of_eq h.toInt_length, List.getLast?_eq_getElem?, List.length_cons,
    Nat.add_sub_cancel]

end

/-! ## Taking apart and putting together -/

/-- Takes the first element off an array and pushes it onto another one, so many times. -/
def refill : Nat → Value → Value → Eval Value
  | 0, _, filled => pure filled
  | turns + 1, array, filled => do
    let x ← Builtin.first.apply [array]
    let filled ← Builtin.push.apply [filled, x]
    let array ← Builtin.rest.apply [array]
    refill turns array filled

theorem refill_eq (xs : List Value) : ∀ (i j : Identity) (ys : List Value) (m : Machine),
    ∃ k n, refill xs.length (.array i xs) (.array j ys) m =
      .ok (.array k (ys ++ xs)) { m with fresh := n } := by
  induction xs with
  | nil => exact fun i j ys m => ⟨j, m.fresh, by simp [refill]; rfl⟩
  | cons x xs ih =>
    intro i j ys m
    obtain ⟨k, n, hrest⟩ := ih (m.fresh + 1) m.fresh (ys ++ [x]) { m with fresh := m.fresh + 2 }
    refine ⟨k, n, ?_⟩
    rw [List.append_assoc] at hrest
    exact hrest

/-! ## The laws -/

/-- What the builtins and the index operator show of an array with these elements, where `len` gives
`n`. The machine changes in nothing but the next identity, so whatever is bound stays what it is. -/
structure ArrayLaws (m : Machine) (array : Value) (xs : List Value) (n : Int64) : Prop where
  len : Builtin.len.apply [array] m = .ok (.integer n) m
  len_exact : Countable xs → n.toInt = xs.length
  inside : ∀ {i : Int64} {k : Nat} {x : Value}, i.toInt = k → xs[k]? = some x →
    indexInto array (.integer i) = .ok x
  outside : ∀ {i : Int64}, i.toInt < 0 ∨ xs.length ≤ i.toInt →
    indexInto array (.integer i) = .ok .null
  /-- Behind the elements comes the new one, and otherwise the very values that were there. -/
  push : ∀ v, ∃ pushed, Builtin.push.apply [array, v] m =
      .ok pushed { m with fresh := m.fresh + 1 } ∧
    (∀ m', Builtin.len.apply [pushed] m' = .ok (.integer (n + 1)) m') ∧
    ∀ i : Int64, indexInto pushed (.integer i) =
      if i.toInt = xs.length then .ok v else indexInto array (.integer i)
  first : xs ≠ [] → ∃ x, indexInto array (.integer 0) = .ok x ∧
    Builtin.first.apply [array] m = .ok x m
  last : xs ≠ [] → Countable xs → ∃ x, indexInto array (.integer (n - 1)) = .ok x ∧
    Builtin.last.apply [array] m = .ok x m
  rest : xs ≠ [] → ∃ rest, Builtin.rest.apply [array] m =
      .ok rest { m with fresh := m.fresh + 1 } ∧
    (∀ m', Builtin.len.apply [rest] m' = .ok (.integer (n - 1)) m') ∧
    (∀ i j : Int64, 0 ≤ i.toInt → j.toInt = i.toInt + 1 →
      indexInto rest (.integer i) = indexInto array (.integer j)) ∧
    (Countable xs → indexInto rest (.integer Int64.maxValue) = .ok .null)
  /-- Taken apart and put together again, it is equal to what it was. -/
  refill : ∀ id, ∃ filled next, refill xs.length array (.array id []) m =
    .ok filled { m with fresh := next } ∧ filled.equal array = true

theorem array_laws (m : Machine) (id : Identity) (xs : List Value) :
    ArrayLaws m (.array id xs) xs (Int64.ofNat xs.length) where
  len := rfl
  len_exact h := h.toInt_length
  inside {i k x} hi hx := by
    rw [indexInto, elementAt_of_eq hi, hx]
    rfl
  outside hi := by rw [indexInto, elementAt_outside hi]
  push v := by
    refine ⟨.array m.fresh (xs ++ [v]), rfl, fun m' => ?_, fun i => ?_⟩
    · have hlength : Int64.ofNat (xs ++ [v]).length = Int64.ofNat xs.length + 1 := by
        rw [List.length_append, Int64.ofNat_add]
        rfl
      rw [← hlength]
      rfl
    · rw [indexInto, indexInto, elementAt_concat]
      split <;> rfl
  first hne := by
    obtain ⟨x, xs, rfl⟩ := List.exists_cons_of_ne_nil hne
    exact ⟨x, rfl, rfl⟩
  last hne hcountable := by
    obtain ⟨x, xs, rfl⟩ := List.exists_cons_of_ne_nil hne
    refine ⟨(x :: xs).getLast?.getD .null, ?_, rfl⟩
    rw [ofNat_length_cons, indexInto, elementAt_last x hcountable.tail]
  rest hne := by
    obtain ⟨x, xs, rfl⟩ := List.exists_cons_of_ne_nil hne
    refine ⟨.array m.fresh xs, rfl, fun m' => ?_, fun i j hi hj => ?_, fun hcountable => ?_⟩
    · rw [ofNat_length_cons]
      rfl
    · rw [indexInto, indexInto, elementAt_cons x hi hj]
    · have hmax : Int64.maxValue.toInt = Integer.greatest := by decide
      rw [indexInto, elementAt_outside (.inr (hmax ▸ hcountable.tail))]
  refill j := by
    obtain ⟨k, next, hfilled⟩ := refill_eq xs id j [] m
    refine ⟨_, next, hfilled, ?_⟩
    rw [Value.equal]
    exact Value.equalList_self xs

end Monkey
