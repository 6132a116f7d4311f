import TaggedHeap.Fault

/-!
Contract: size classes, the division of free blocks by size.

Class `i` holds the sizes from `2 ^ i` up to `2 ^ (i + 1)`. The last class also holds
everything larger, the first also nothing at all.
-/

namespace TaggedHeap

abbrev SizeClass := Fin 20

namespace SizeClass

/-- Class of a size: its binary logarithm, rounded down, or the last class. -/
def ofSize (size : Nat) : SizeClass :=
  ⟨min size.log2 19, by omega⟩

/-- Class with a number. A number that no class has is a fault. -/
def ofNumber (number : Nat) : Except Fault SizeClass :=
  if bound : number < 20 then .ok ⟨number, bound⟩ else .error .noSuchClass

/-- A class and those of larger sizes, smallest first. -/
def above (first : SizeClass) : List SizeClass :=
  (List.finRange 20).drop first.val

theorem ofSize_mono {small large : Nat} (le : small ≤ large) : ofSize small ≤ ofSize large := by
  have logLe : small.log2 ≤ large.log2 := by
    by_cases zero : small = 0
    · subst small
      exact Nat.zero_le _
    · exact (Nat.le_log2 (by omega)).2 (Nat.le_trans (Nat.log2_self_le zero) le)
  simp only [ofSize, Fin.mk_le_mk]
  omega

theorem mem_above (first cls : SizeClass) : cls ∈ above first ↔ first ≤ cls := by
  revert first cls
  decide

end SizeClass

end TaggedHeap
