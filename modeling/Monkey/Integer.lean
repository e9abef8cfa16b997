/-!
# Integers of 64 bits

Arithmetic on them is exact or refused: a result that does not fit is no result.
-/

namespace Monkey.Integer

/-- The least integer of 64 bits. -/
def least : Int := -9223372036854775808

/-- The greatest integer of 64 bits. -/
def greatest : Int := 9223372036854775807

/-- The word with the value `n`, if `n` fits. -/
def ofInt? (n : Int) : Option Int64 :=
  if least ≤ n ∧ n ≤ greatest then some (Int64.ofInt n) else none

theorem least_le (w : Int64) : least ≤ w.toInt := Int64.le_toInt w

theorem le_greatest (w : Int64) : w.toInt ≤ greatest := by
  have := Int64.toInt_lt w
  unfold greatest
  omega

theorem toInt_ofInt (n : Int) (hl : least ≤ n) (hu : n ≤ greatest) : (Int64.ofInt n).toInt = n := by
  unfold least at hl
  unfold greatest at hu
  exact Int64.toInt_ofInt_of_le hl (by omega)

theorem ofInt?_eq_some_iff (n : Int) (w : Int64) : ofInt? n = some w ↔ n = w.toInt := by
  unfold ofInt?
  constructor
  · intro h
    split at h
    · rename_i hn
      rw [← Option.some.inj h, toInt_ofInt n hn.1 hn.2]
    · contradiction
  · rintro rfl
    rw [if_pos ⟨least_le w, le_greatest w⟩, Int64.ofInt_toInt]

@[simp] theorem ofInt?_toInt (w : Int64) : ofInt? w.toInt = some w :=
  (ofInt?_eq_some_iff _ w).mpr rfl

/-! ## Decimal text -/

/-- In decimal, after a minus sign if it is negative. -/
def render (w : Int64) : String := toString w.toInt

/-- The number that a run of digits stands for. -/
def valueOfDigits (digits : List Char) : Nat :=
  digits.foldl (fun value d => 10 * value + (d.toNat - '0'.toNat)) 0

/-- The integer that a run of digits stands for, if it fits. -/
def ofDigits? (digits : List Char) : Option Int64 := ofInt? (valueOfDigits digits)

/-! ## Checked arithmetic -/

def add? (a b : Int64) : Option Int64 := ofInt? (a.toInt + b.toInt)

def sub? (a b : Int64) : Option Int64 := ofInt? (a.toInt - b.toInt)

def mul? (a b : Int64) : Option Int64 := ofInt? (a.toInt * b.toInt)

/-- The quotient rounded toward zero. The divisor is not zero. -/
def div? (a b : Int64) : Option Int64 := ofInt? (a.toInt.tdiv b.toInt)

def neg? (a : Int64) : Option Int64 := ofInt? (-a.toInt)

end Monkey.Integer
