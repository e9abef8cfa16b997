/-!
# Classes of characters

A class is given by the ranges of its code points. A character is in the class when some range
holds it (`contains_iff`).
-/

namespace Monkey

/-- Each range starts no later than it ends and behind a gap after the one before; the first
starts at `least` or later. -/
def ascendingFrom (least : Nat) : List (Nat × Nat) → Bool
  | [] => true
  | (first, last) :: ranges =>
    least ≤ first && first ≤ last && ascendingFrom (last + 2) ranges

/-- A set of characters: closed ranges of code points, ascending and apart. -/
structure CharClass where
  ranges : List (Nat × Nat)
  ascending : ascendingFrom 0 ranges = true := by decide +kernel

namespace CharClass

/-- Only the first range that does not end before the character can hold it. -/
def contains (chars : CharClass) (c : Char) : Bool :=
  (chars.ranges.find? fun r => c.toNat ≤ r.2).any fun r => r.1 ≤ c.toNat

/-- The number of code points in the class. -/
def size (chars : CharClass) : Nat :=
  chars.ranges.foldl (fun n r => n + (r.2 + 1 - r.1)) 0

theorem le_of_ascendingFrom {least : Nat} {ranges : List (Nat × Nat)}
    (h : ascendingFrom least ranges = true) : ∀ r ∈ ranges, least ≤ r.1 := by
  induction ranges generalizing least with
  | nil => simp
  | cons first ranges ih =>
    simp only [ascendingFrom, Bool.and_eq_true, decide_eq_true_eq] at h
    intro r hr
    rcases List.mem_cons.mp hr with rfl | hr
    · exact h.1.1
    · have := ih h.2 r hr
      omega

theorem find?_any_iff {least n : Nat} {ranges : List (Nat × Nat)}
    (h : ascendingFrom least ranges = true) :
    ((ranges.find? fun r => n ≤ r.2).any fun r => r.1 ≤ n) = true ↔
      ∃ r ∈ ranges, r.1 ≤ n ∧ n ≤ r.2 := by
  induction ranges generalizing least with
  | nil => simp
  | cons first ranges ih =>
    simp only [ascendingFrom, Bool.and_eq_true, decide_eq_true_eq] at h
    by_cases hn : n ≤ first.2
    · have apart := le_of_ascendingFrom h.2
      simp only [List.find?_cons, hn, decide_true, Option.any_some, decide_eq_true_eq]
      constructor
      · intro hf
        exact ⟨first, List.mem_cons_self, hf, hn⟩
      · rintro ⟨r, hr, hl, hu⟩
        rcases List.mem_cons.mp hr with rfl | hr
        · exact hl
        · have := apart r hr
          omega
    · simp only [List.find?_cons, hn, decide_false]
      rw [ih h.2]
      constructor
      · rintro ⟨r, hr, hb⟩
        exact ⟨r, List.mem_cons_of_mem _ hr, hb⟩
      · rintro ⟨r, hr, hb⟩
        rcases List.mem_cons.mp hr with rfl | hr
        · exact absurd hb.2 hn
        · exact ⟨r, hr, hb⟩

theorem contains_iff (chars : CharClass) (c : Char) :
    chars.contains c = true ↔ ∃ r ∈ chars.ranges, r.1 ≤ c.toNat ∧ c.toNat ≤ r.2 :=
  find?_any_iff chars.ascending

end CharClass

end Monkey
