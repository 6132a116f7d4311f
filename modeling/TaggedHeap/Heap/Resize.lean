import TaggedHeap.Heap.Allocate

/-!
Contract: resizing a payload.

A block that holds the request stays as it is. One that does not is enlarged by the slack of
the policy on top of the request: in place, if the space behind it allows that, and else by
moving. Whenever little spare room is left, the block behind the result is reserved, so that
the next resize finds it free.
-/

namespace TaggedHeap.Heap

/-- A run of free blocks: the sum of their sizes and the allocated block that ends it. -/
structure FreeRun where
  size : Nat
  last : Block

def freeRun : Nat → Block → Nat → ReadM FreeRun
  | 0, _, _ => throw .endless
  | patience + 1, cursor, size => do
      let tag ← cursor.tag
      if tag.allocated then
        return ⟨size, cursor⟩
      freeRun patience (← cursor.next) (← total size tag.size)

def freeRunBehind (block : Block) : ReadM FreeRun := do
  freeRun (← patience) (← block.next) 0

def unfileUpTo (last : Block) : Nat → Block → HeapM Unit
  | 0, _ => throw .endless
  | patience + 1, cursor => do
      if cursor = last then
        return
      let next ← cursor.next
      unfile cursor
      unfileUpTo last patience next

/-- Gives an allocated block of `current` bytes the free run behind it. -/
def takeRun (block : Block) (current : Nat) (run : FreeRun) : HeapM Unit := do
  unfileUpTo run.last (← patience) (← block.next)
  block.writeTags (← total current run.size) true false

/-- Enlarges an allocated block to at least `target` bytes by the free run behind it. The
heap grows first if the run reaches its end and is too short. Answers whether the block was
enlarged; a run that ends at another block cannot be lengthened. -/
def growInPlace (block : Block) (target : Nat) : AllocM Bool := do
  let current ← block.size
  let run ← freeRunBehind block
  if target ≤ (← total current run.size) then
    takeRun block current run
    return true
  if (← run.last.size) ≠ 0 then
    return false
  let _ ← extend (max (target - current - run.size) (← get).policy.growthUnit)
  let run ← freeRunBehind block
  if target ≤ (← total current run.size) then
    takeRun block current run
    return true
  return false

/-- Moves the first `request` bytes of a payload, as far as the old block of `current` bytes
holds them, to a new block of `target` bytes, and frees the old one. -/
def move (handle : Handle) (current target request : Nat) : AllocM Block := do
  let fresh ← allocateBlock target
  let held ← difference current 8
  Region.copy handle.offset fresh.offset (min held request)
  releaseBlock handle
  report (.moved handle.offset request fresh.offset)
  return fresh

/-- Enlarges a block of `current` bytes to at least `target` bytes, in place or by moving. -/
def enlarge (handle : Handle) (block : Block) (current target request : Nat) :
    AllocM Block := do
  if ← growInPlace block target then
    report (.grewInPlace handle.offset request)
    return block
  move handle current target request

/-- Reserves the successor of a block that has little room beyond `target` bytes. -/
def reserveBehind (block : Block) (target : Nat) : HeapM Unit := do
  let size ← block.size
  if size - target < (← get).policy.reserveMargin then
    (← block.next).setReserved true

/-- Resizes the payload of a handle to at least `request` bytes. -/
def resizeBlock (handle : Handle) (request : Nat) : AllocM Block := do
  let needed ← blockSizeFor request
  let target := needed + (← get).policy.resizeSlack
  if maxBlock < target then
    throw (.tooLarge request)
  let block ← handle.block
  let current ← block.size
  let result ←
    if needed ≤ current then
      pure block
    else
      enlarge handle block current target request
  reserveBehind result target
  report (.resized handle.offset request result.offset)
  return result

/-- Resizes a payload. Resizing nothing allocates, and resizing to nothing releases. -/
def resize (handle : Option Handle) (request : Nat) : AllocM (Option Handle) := do
  match handle with
  | none => allocate request
  | some handle =>
      if request = 0 then
        releaseBlock handle
        return none
      return some (← resizeBlock handle request).handle

end TaggedHeap.Heap
