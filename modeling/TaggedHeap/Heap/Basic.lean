import TaggedHeap.Block.Basic
import TaggedHeap.Event
import TaggedHeap.SizeClass

/-!
Contract: heaps, and the computations that change them.

A heap lays blocks out in its region, from a prologue up to an epilogue that is the last word
of the region. Its free blocks stand in one doubly linked list for each size class; the heap
keeps the heads, the blocks themselves hold the links:

```text
  | ... | 0 | prologue: 8 | block | block | ... | block | epilogue: 0 |
```

A `HeapM` computation may stop at a fault and then leaves the heap as the fault found it. An
`AllocM` computation may also answer with a failure.
-/

namespace TaggedHeap

structure Heap where
  region : Region
  heads : Vector (Option Block) 20
  policy : Policy
  prologue : Block
  /-- What the heap has reported, oldest first. -/
  journal : Array Event

/-- Name under which a client knows an allocated block: the offset of its payload. -/
structure Handle where
  offset : Nat
deriving DecidableEq, Repr

abbrev HeapM := EStateM Fault Heap

abbrev AllocM := ExceptT Failure HeapM

instance : MonadLift RegionM HeapM where
  monadLift change := fun ⟨region, heads, policy, prologue, journal⟩ =>
    match change region with
    | .ok value region => .ok value ⟨region, heads, policy, prologue, journal⟩
    | .error fault region => .error fault ⟨region, heads, policy, prologue, journal⟩

/-- The block that a handle names. A handle between two grains is a fault. -/
def Handle.block (handle : Handle) : Except Fault Block :=
  Block.ofOffset handle.offset

def Block.handle (block : Block) : Handle :=
  ⟨block.offset⟩

namespace Heap

def blank (region : Region) (policy : Policy) : Heap where
  region := region
  heads := Vector.replicate 20 none
  policy := policy
  prologue := ⟨8⟩
  journal := #[]

def head (heap : Heap) (cls : SizeClass) : Option Block :=
  heap.heads[cls]

/-- Number of steps after which a walk through the region has come back to where it was: no
two places lie at one offset. -/
def patience : ReadM Nat := do
  return (← read).size + 1

def setHead (cls : SizeClass) (block : Option Block) : HeapM Unit :=
  modify fun heap => { heap with heads := heap.heads.set cls block }

def report (event : Event) : HeapM Unit :=
  modify fun heap => { heap with journal := heap.journal.push event }

def require (condition : Bool) (fault : Fault) : HeapM Unit :=
  if condition then pure () else throw fault

end Heap

end TaggedHeap
