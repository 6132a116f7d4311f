/-!
Contract: faults, the ways in which an operation can stop without an answer.

A fault means that a caller broke a rule of the heap or that the bytes of the heap were
damaged. It is not a `Failure`: a failure leaves the heap in order and is an answer.

An offset is not checked when it is formed but when it is used: what it names must lie in the
region, whose size is a machine index. A total of sizes names nothing and is checked at once.
-/

namespace TaggedHeap

/-- Why an operation stopped without an answer. -/
inductive Fault where
  /-- A word or a range does not lie inside the region. -/
  | outOfBounds
  /-- A size or an offset would fall below zero. -/
  | underflow
  /-- A sum does not fit in a machine index. -/
  | overflow
  /-- More memory was asked for at once than a process can address. -/
  | outOfMemory
  /-- A block was to begin at an offset that is not a multiple of eight. -/
  | misaligned
  /-- The region did not grow by what was asked of it. -/
  | unevenGrowth
  /-- A handle was released whose block is free. -/
  | doubleRelease (offset : Nat)
  /-- A block size does not fit in a header word. -/
  | unencodable
  /-- The links of an allocated block were asked for. -/
  | linksOfAllocated
  /-- A block is smaller than what is to be carved from it. -/
  | tooSmall
  /-- There is no size class with this number. -/
  | noSuchClass
  /-- A chain of blocks leads back into itself. -/
  | endless
deriving DecidableEq, Repr

/-- Only a double release names its offender. -/
def Fault.message? : Fault → Option String
  | .doubleRelease offset => some s!"double release of {offset}"
  | _ => none

/-- Difference of two sizes or offsets. A difference below zero is a fault. -/
def difference (whole part : Nat) : Except Fault Nat :=
  if part ≤ whole then .ok (whole - part) else .error .underflow

theorem difference_of_le {whole part : Nat} (le : part ≤ whole) :
    difference whole part = .ok (whole - part) := by
  simp [difference, le]

theorem difference_of_lt {whole part : Nat} (lt : whole < part) :
    difference whole part = .error .underflow := by
  simp [difference, Nat.not_le.2 lt]

end TaggedHeap
