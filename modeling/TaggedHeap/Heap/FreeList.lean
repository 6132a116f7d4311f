import TaggedHeap.Heap.Basic

/-!
Contract: the free lists of a heap.

Each list is doubly linked through the payloads of its blocks and sorted by size, so that
the first block that is large enough is also the tightest one of its class. The links of a
damaged heap may lead anywhere: a list that does not end is a fault.
-/

namespace TaggedHeap.Heap

/-- The place of a size in a list: the last block that is smaller and the first that is not. -/
def seat (size : Nat) : Nat → Option Block → Option Block → ReadM Links
  | 0, _, _ => throw .endless
  | _ + 1, previous, none => return ⟨previous, none⟩
  | patience + 1, previous, some current => do
      if size ≤ (← current.size) then
        return ⟨previous, some current⟩
      let links ← current.links
      seat size patience (some current) links.next

/-- Files a free block in the list of its class, in front of every block that is not
smaller. -/
def file (block : Block) : HeapM Unit := do
  let size ← block.size
  let cls := SizeClass.ofSize size
  let first := (← get).head cls
  let links ← seat size (← patience) none first
  block.setLinks links
  if let some next := links.next then
    next.setPrevious (some block)
  match links.previous with
  | some previous => previous.setNext (some block)
  | none => setHead cls (some block)

/-- Takes a free block out of the list that it was filed in under its present size. -/
def unfile (block : Block) : HeapM Unit := do
  let cls := SizeClass.ofSize (← block.size)
  let links ← block.links
  match links.previous with
  | some previous => previous.setNext links.next
  | none => setHead cls links.next
  if let some next := links.next then
    next.setPrevious links.previous

/-- First unreserved block of a list that holds `size` bytes. -/
def firstFit (size : Nat) : Nat → Option Block → ReadM (Option Block)
  | 0, _ => throw .endless
  | _ + 1, none => return none
  | patience + 1, some current => do
      let tag ← current.tag
      if size ≤ tag.size ∧ tag.reserved = false then
        return some current
      let links ← current.links
      firstFit size patience links.next

/-- First unreserved block that holds `size` bytes in the lists of these classes. -/
def searchIn (heap : Heap) (size : Nat) : List SizeClass → ReadM (Option Block)
  | [] => return none
  | cls :: classes => do
      match ← firstFit size (← patience) (heap.head cls) with
      | some block => return some block
      | none => heap.searchIn size classes

/-- The tightest unreserved free block that holds `size` bytes. -/
def search (size : Nat) : HeapM (Option Block) := do
  let heap ← get
  heap.searchIn size (SizeClass.ofSize size).above

end TaggedHeap.Heap
