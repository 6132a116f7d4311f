import TaggedHeap.Heap.FreeList

/-!
Contract: merging a free block with its free neighbours.

A reserved block in front counts as allocated, since the block before it may want to grow
into it. The free blocks behind are taken in as a run, reserved or not, up to the first
allocated one.
-/

namespace TaggedHeap.Heap

/-- Unfiles the free blocks from `cursor` on and adds their sizes to `sum`. -/
def absorb : Nat → Block → Nat → HeapM Nat
  | 0, _, _ => throw .endless
  | patience + 1, cursor, sum => do
      if ← cursor.isAllocated then
        return sum
      unfile cursor
      let size ← cursor.size
      absorb patience (← cursor.next) (← total sum size)

/-- Merges a filed block with its free neighbours and files the result. -/
def merge (block : Block) : HeapM Block := do
  let front ← block.previous
  let frontTag ← front.tag
  let joinsFront := !frontTag.allocated && !frontTag.reserved
  let joinsBack := !(← (← block.next).isAllocated)
  if !joinsFront && !joinsBack then
    return block
  unfile block
  if joinsFront then
    unfile front
  let own ← block.size
  let start := if joinsFront then front else block
  let before ← if joinsFront then front.size else pure 0
  let size ← absorb (← patience) (← block.next) (← total before own)
  start.stamp size false
  file start
  report (.merged block.offset start.offset size)
  return start

end TaggedHeap.Heap
