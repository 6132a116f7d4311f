import Mathlib.Data.List.Basic

/-!
Contract: numbers in texts.

A number is printed in decimal digits and no other characters, so that it can be taken out of
a text again by the separators around it.
-/

namespace TaggedHeap

/-- Number that a text begins with, zero if it does not begin with a digit. -/
def leadingNumber (text : List Char) : Nat :=
  Nat.ofDigitChars 10 (text.takeWhile Char.isDigit) 0

theorem isDigit_of_mem_toString {number : Nat} {char : Char}
    (member : char ∈ (toString number).toList) : char.isDigit = true := by
  rw [Nat.toString_eq_repr, Nat.toList_repr] at member
  exact Nat.isDigit_of_mem_toDigits (by decide) (by decide) member

theorem notMem_toString (number : Nat) {char : Char} (notDigit : char.isDigit = false) :
    char ∉ (toString number).toList := by
  intro member
  rw [isDigit_of_mem_toString member] at notDigit
  exact absurd notDigit (by decide)

theorem leadingNumber_append (number : Nat) {rest : List Char}
    (ends : ∀ first ∈ rest.head?, first.isDigit = false) :
    leadingNumber ((toString number).toList ++ rest) = number := by
  have stops : rest.takeWhile Char.isDigit = [] := by
    cases rest with
    | nil => rfl
    | cons first rest => exact List.takeWhile_cons_of_neg (by simp [ends first rfl])
  rw [leadingNumber, List.takeWhile_append_of_pos fun _ => isDigit_of_mem_toString, stops,
    List.append_nil, Nat.toString_eq_repr, Nat.toList_repr, Nat.ofDigitChars_ten_toDigits]

theorem leadingNumber_toString (number : Nat) :
    leadingNumber (toString number).toList = number := by
  have whole := @leadingNumber_append number [] nofun
  rwa [List.append_nil] at whole

end TaggedHeap
