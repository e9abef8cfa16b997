import Mathlib.Data.Char
import Mathlib.Data.List.Lex
import Mathlib.Data.Sum.Order
import Monkey.Value.Key

/-!
# The order of keys

Keys of different kinds are ordered by their kind: integers, booleans, strings. Integers are ordered
by value, `false` comes before `true`, and strings are ordered by their bytes in UTF-8. Entries
compare strings character by character instead, which comes to the same.
-/

namespace Monkey

/-! ## Texts as bytes -/

/-- The bytes of a text in UTF-8, as numbers. -/
def textBytes (text : String) : List Nat := text.toUTF8.data.toList.map UInt8.toNat

/-- The bytes of the character with the number `n`. All but the first carry six bits each. -/
def charBytes (n : Nat) : List Nat :=
  if n ≤ 127 then [n]
  else if n ≤ 2047 then [n / 64 + 192, n % 64 + 128]
  else if n ≤ 65535 then [n / 4096 + 224, n / 64 % 64 + 128, n % 64 + 128]
  else [n / 262144 + 240, n / 4096 % 64 + 128, n / 64 % 64 + 128, n % 64 + 128]

theorem charBytes_ne_nil (n : Nat) : charBytes n ≠ [] := by
  unfold charBytes
  split_ifs <;> simp

theorem toNat_lt (c : Char) : c.toNat < 1114112 := by
  have hvalid := c.valid
  simp only [UInt32.isValidChar, Nat.isValidChar, Char.toNat_val] at hvalid
  omega

theorem map_utf8EncodeChar (c : Char) :
    (String.utf8EncodeChar c).map UInt8.toNat = charBytes c.toNat := by
  have hc := toNat_lt c
  unfold charBytes String.utf8EncodeChar
  simp only [Char.toNat_val]
  split_ifs <;>
    simp only [List.map_cons, List.map_nil, UInt8.toNat_ofNat', List.cons.injEq, and_true] <;> omega

theorem textBytes_eq (text : String) :
    textBytes text = text.toList.flatMap fun c => charBytes c.toNat := by
  have hbytes : text.toUTF8 = text.toList.utf8Encode := by
    rw [String.toUTF8_eq_toByteArray, ← String.toByteArray_ofList, String.ofList_toList]
  rw [textBytes, hbytes, List.utf8Encode, List.data_toByteArray, List.map_flatMap]
  simp only [map_utf8EncodeChar]

theorem charBytes_append_lt {m n : Nat} (h : m < n) (hn : n < 1114112) (ms ns : List Nat) :
    charBytes m ++ ms < charBytes n ++ ns := by
  -- Compare the digits in base 64, the high ones first.
  have hlow : m / 64 < n / 64 ∨ m / 64 = n / 64 ∧ m % 64 < n % 64 := by omega
  have hmiddle : m / 64 < n / 64 →
      m / 4096 < n / 4096 ∨ m / 4096 = n / 4096 ∧ m / 64 % 64 < n / 64 % 64 := by omega
  have hhigh : m / 4096 < n / 4096 →
      m / 262144 < n / 262144 ∨ m / 262144 = n / 262144 ∧ m / 4096 % 64 < n / 4096 % 64 := by omega
  unfold charBytes
  split_ifs <;>
    simp only [List.cons_append, List.nil_append, List.cons_lt_cons_iff] <;> omega

theorem flatMap_charBytes_strictMono :
    StrictMono fun cs : List Char => cs.flatMap fun c => charBytes c.toNat := by
  intro cs ds h
  induction h with
  | nil =>
    rename_i d ds
    obtain ⟨n, ns, hd⟩ := List.exists_cons_of_ne_nil (charBytes_ne_nil d.toNat)
    simp only [List.flatMap_cons, hd]
    exact List.nil_lt_cons _ _
  | cons _ ih =>
    simp only [List.flatMap_cons]
    exact List.append_left_lt ih
  | rel h =>
    simp only [List.flatMap_cons]
    exact charBytes_append_lt h (toNat_lt _) _ _

theorem textBytes_lt_iff (s t : String) : textBytes s < textBytes t ↔ s < t := by
  rw [textBytes_eq, textBytes_eq]
  exact flatMap_charBytes_strictMono.lt_iff_lt

theorem textBytes_injective : Function.Injective textBytes := by
  intro s t h
  rw [textBytes_eq, textBytes_eq] at h
  exact String.toList_injective (flatMap_charBytes_strictMono.injective h)

/-! ## Keys -/

namespace Key

/-- The place of a key: integers by value, then `false` and `true`, then strings by their bytes. -/
def place : Key → ℤ ⊕ₗ (Bool ⊕ₗ List ℕ)
  | integer n => toLex (.inl n.toInt)
  | boolean b => toLex (.inr (toLex (.inl b)))
  | string text => toLex (.inr (toLex (.inr (textBytes text))))

theorem place_injective : Function.Injective place := by
  intro k l h
  cases k <;> cases l <;> simp_all [place, Int64.toInt_inj, textBytes_injective.eq_iff]

instance : LinearOrder Key := LinearOrder.lift' place place_injective

theorem before_iff_lt (k l : Key) : k.before l ↔ k < l := by
  have hlt : k < l ↔ k.place < l.place := Iff.rfl
  rw [hlt]
  cases k <;> cases l <;> simp [before, place, Bool.lt_iff, textBytes_lt_iff]

end Key

end Monkey
