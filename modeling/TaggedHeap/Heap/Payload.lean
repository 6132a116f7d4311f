import TaggedHeap.Heap.Basic

/-!
Contract: a client's access to the payloads of its handles.

A payload reaches from the offset of its handle up to the footer of the block. Reading one
and writing one touch no other byte.
-/

namespace TaggedHeap.Heap

/-- Number of bytes that a client may use. -/
def usable (handle : Handle) : ReadM Nat := do
  let block ← handle.block
  difference (← block.size) 8

/-- Number of bytes of a payload, all of which lie in the region. -/
def extent (handle : Handle) : ReadM Nat := do
  let length ← usable handle
  if (← read).size < handle.offset + length then
    throw .outOfBounds
  return length

/-- The bytes of a payload from its index `start` on, at most `count`, as far as the payload
reaches. -/
def readPayload (handle : Handle) (start count : Nat) : ReadM ByteArray := do
  let length ← extent handle
  return (← read).extract (handle.offset + start) (min (start + count) length - start)

def payload (handle : Handle) : ReadM ByteArray := do
  return (← read).extract handle.offset (← extent handle)

/-- Writes bytes into a payload from its index `start` on, as far as the payload reaches, and
answers their number. -/
def writePayload (handle : Handle) (start : Nat) (values : ByteArray) : RegionM Nat := do
  let length ← extent handle
  let count := min (start + values.size) length - start
  modify fun region => region.store (handle.offset + start) (values.extract 0 count)
  return count

/-- Writes one byte into a payload. An index outside the payload is a fault. -/
def setPayloadByte (handle : Handle) (index : Nat) (value : UInt8) : RegionM Unit := do
  let length ← extent handle
  if length ≤ index then
    throw .outOfBounds
  modify fun region => region.setByte (handle.offset + index) value

end TaggedHeap.Heap
