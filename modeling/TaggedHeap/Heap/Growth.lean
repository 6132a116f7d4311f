import TaggedHeap.Heap.Merge

/-!
Contract: growth of a heap at the end of its region, and the construction of a new heap.

New space becomes one free block whose header takes the place of the old epilogue. A heap
never ends above the largest offset that a link can hold.
-/

namespace TaggedHeap.Heap

/-- Grows the region and answers where the new space begins. -/
def requestSpace (bytes : Nat) : AllocM Nat := do
  match ← Region.grow bytes with
  | .ok start => return start
  | .error refusal => do
      report (.refused bytes refusal)
      throw (.refused refusal)

/-- Grows the heap by `bytes`, rounded up and at least a block, and answers the free block
at its end, merged with what was free in front of it. -/
def extend (bytes : Nat) : AllocM Block := do
  let size := max (roundUp bytes) minBlock
  let high := (← get).region.size
  if maxBlock < high + size then
    throw (.tooLarge bytes)
  let start ← requestSpace size
  require ((← get).region.size = start + size) .unevenGrowth
  let block ← Block.ofOffset start
  block.writeTags size false false
  (← block.next).stampEnd
  file block
  report (.extended size (← get).region.size)
  merge block

/-- Lays out the sentinels at the end of the region and a first free block behind them. -/
def establish : AllocM Unit := do
  let start ← requestSpace 16
  Region.writeWord start 0
  let prologue ← Block.ofOffset (start + 8)
  prologue.writeTags 8 true false
  (← prologue.next).stampEnd
  modify fun heap => { heap with prologue := prologue }
  let _ ← extend (← get).policy.initialGrowth
  report (.initialised (← get).region.size)

/-- Builds a heap at the end of a region. The heap that a failure leaves behind tells how far
the region has grown. -/
def create (policy : Policy) : AllocM Unit := do
  match policy.defect? with
  | some defect => throw (.invalidPolicy defect)
  | none => establish

end TaggedHeap.Heap
