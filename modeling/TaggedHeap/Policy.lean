/-!
Contract: the tuning values of a heap, and which of them are refused.

No value decides whether the heap is correct. They set how eagerly the region grows and
how much room a resize keeps in reserve.
-/

namespace TaggedHeap

structure Policy where
  /-- Size of the block that a new heap starts with. -/
  initialGrowth : Nat := 64
  /-- Least growth of the region when no free block fits. -/
  growthUnit : Nat := 4096
  /-- Room added to the target of every resize that has to enlarge its block. -/
  resizeSlack : Nat := 128
  /-- How many slacks of spare room a resized block needs before its successor is left
  unreserved. -/
  reserveFactor : Nat := 2
deriving DecidableEq, Repr

inductive PolicyDefect where
  | initialGrowth
  | growthUnit
  | resizeSlack
  | growthTooLarge
deriving DecidableEq, Repr

def PolicyDefect.message : PolicyDefect → String
  | .initialGrowth => "initial chunk must be a non-zero multiple of 8"
  | .growthUnit => "chunk must be a non-zero multiple of 8"
  | .resizeSlack => "realloc buffer must be a multiple of 8"
  | .growthTooLarge => "chunk does not fit in a block"

namespace Policy

/-- First defect of a policy: growth comes in non-zero grains that a word can hold, and
slack in grains. -/
def defect? (policy : Policy) : Option PolicyDefect :=
  if policy.initialGrowth = 0 ∨ policy.initialGrowth % 8 ≠ 0 then
    some .initialGrowth
  else if policy.growthUnit = 0 ∨ policy.growthUnit % 8 ≠ 0 then
    some .growthUnit
  else if policy.resizeSlack % 8 ≠ 0 then
    some .resizeSlack
  else if 4294967296 ≤ max policy.growthUnit policy.initialGrowth then
    some .growthTooLarge
  else
    none

/-- Spare room below which the successor of a resized block is reserved. -/
def reserveMargin (policy : Policy) : Nat :=
  policy.reserveFactor * policy.resizeSlack

theorem defect?_eq_none_iff (policy : Policy) :
    policy.defect? = none ↔
      (0 < policy.initialGrowth ∧ policy.initialGrowth % 8 = 0) ∧
      (0 < policy.growthUnit ∧ policy.growthUnit % 8 = 0) ∧
      policy.resizeSlack % 8 = 0 ∧
      policy.growthUnit < 4294967296 ∧ policy.initialGrowth < 4294967296 := by
  unfold defect?
  repeat' split
  all_goals simp only [reduceCtorEq, false_iff, true_iff]
  all_goals omega

end Policy

end TaggedHeap
