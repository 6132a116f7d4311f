import TaggedHeap.Heap.Growth

/-!
Contract: allocation and release.
-/

namespace TaggedHeap

/-- Size of the block that serves a request: payload, header and footer, in whole grains. -/
def blockSizeFor (request : Nat) : Except Failure Nat :=
  let size := max minBlock (roundUp (request + 8))
  if size ≤ maxBlock then .ok size else .error (.tooLarge request)

namespace Heap

/-- Allocates the first `size` bytes of a free block and files the rest of it, if the rest
can stand as a block. -/
def carve (block : Block) (size : Nat) : HeapM Unit := do
  let whole ← block.size
  require (size ≤ whole) .tooSmall
  unfile block
  if minBlock ≤ whole - size then
    block.stamp size true
    let rest ← block.next
    rest.writeTags (whole - size) false false
    file rest
  else
    block.stamp whole true

/-- Allocates a block of `size` bytes, growing the heap if no free block holds it. -/
def allocateBlock (size : Nat) : AllocM Block := do
  let block ← match ← search size with
    | some block => pure block
    | none => extend (max size (← get).policy.growthUnit)
  carve block size
  return block

/-- Allocates a payload of at least `request` bytes. A request of nothing needs no payload. -/
def allocate (request : Nat) : AllocM (Option Handle) := do
  if request = 0 then
    return none
  let size ← blockSizeFor request
  let block ← allocateBlock size
  report (.allocated request block.offset)
  return some block.handle

/-- Frees the block of a handle and merges it with its free neighbours. Its successor is no
longer reserved for it. -/
def releaseBlock (handle : Handle) : HeapM Unit := do
  let block ← handle.block
  require (← block.isAllocated) (.doubleRelease block.offset)
  let size ← block.size
  block.stamp size false
  (← block.next).setReserved false
  file block
  report (.released block.offset)
  let _ ← merge block

def release : Option Handle → HeapM Unit
  | none => return
  | some handle => releaseBlock handle

end Heap

end TaggedHeap
