import TaggedHeap.Fault

/-!
Contract: units of the heap, and rounding to them.

A word is four bytes and holds a header, a footer or a link. A grain is eight bytes: every
block size and every payload offset is a multiple of it. Sizes are natural numbers; the
width of a machine index shows only where rounding itself could leave it.
-/

namespace TaggedHeap

/-- Smallest block: a header, two links and a footer. -/
abbrev minBlock : Nat := 16

/-- Largest size or offset that a word can hold, a multiple of eight below `2 ^ 32`. -/
abbrev maxBlock : Nat := 4294967288

/-- Largest machine index, `2 ^ 64 - 1`. -/
abbrev maxIndex : Nat := 18446744073709551615

/-- Number of bytes in the address space of a process, `2 ^ 47`. -/
abbrev addressSpace : Nat := 140737488355328

/-- Least multiple of eight that is not below `size`. -/
def roundUp (size : Nat) : Nat :=
  (size + 7) / 8 * 8

/-- Greatest multiple of eight that is not above `size`. -/
def roundDown (size : Nat) : Nat :=
  size / 8 * 8

/-- Rounds up, unless the intermediate sum leaves the machine index. -/
def roundUp? (size : Nat) : Option Nat :=
  if size + 7 ≤ maxIndex then some (roundUp size) else none

/-- Rounds up by adding a whole grain before taking one away, which faults earlier than
`roundUp?` gives up: at the least multiple of eight that has no successor. -/
def roundUpStrict (size : Nat) : Except Fault Nat :=
  if size + 8 ≤ maxIndex then .ok (roundUp size) else .error .overflow

/-- Total of two sizes. A total that leaves the machine index is a fault. -/
def total (left right : Nat) : Except Fault Nat :=
  if left + right ≤ maxIndex then .ok (left + right) else .error .overflow

theorem maxBlock_le_maxIndex : maxBlock ≤ maxIndex := by
  decide

theorem total_of_le {left right : Nat} (fits : left + right ≤ maxIndex) :
    total left right = .ok (left + right) :=
  if_pos fits

theorem roundUp_mod (size : Nat) : roundUp size % 8 = 0 := by
  simp [roundUp]

theorem le_roundUp (size : Nat) : size ≤ roundUp size := by
  simp only [roundUp]
  omega

theorem roundUp_lt (size : Nat) : roundUp size < size + 8 := by
  simp only [roundUp]
  omega

theorem roundUp_of_mod {size : Nat} (aligned : size % 8 = 0) : roundUp size = size := by
  simp only [roundUp]
  omega

theorem roundUp_mono {small large : Nat} (le : small ≤ large) :
    roundUp small ≤ roundUp large := by
  simp only [roundUp]
  omega

theorem roundDown_mod (size : Nat) : roundDown size % 8 = 0 := by
  simp [roundDown]

end TaggedHeap
