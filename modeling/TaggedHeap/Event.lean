import TaggedHeap.Failure

/-!
Contract: events, what a heap reports about its own work.

An operation appends its events to the journal of the heap in the order in which their
causes take effect.
-/

namespace TaggedHeap

inductive Event.Level where
  | trace
  | debug
  | warn
deriving DecidableEq, Repr

def Event.Level.name : Event.Level → String
  | .trace => "TRACE"
  | .debug => "DEBUG"
  | .warn => "WARN"

inductive Event where
  /-- The region refused to grow by `bytes`. -/
  | refused (bytes : Nat) (refusal : Refusal)
  /-- The region grew by `bytes` and now ends at `high`. -/
  | extended (bytes high : Nat)
  /-- A new heap is ready in a region that ends at `high`. -/
  | initialised (high : Nat)
  /-- The free block at `offset` became part of the free block at `start`, of `size` bytes. -/
  | merged (offset start size : Nat)
  /-- A request was served by the block at `offset`. -/
  | allocated (request offset : Nat)
  | released (offset : Nat)
  /-- The block at `offset` took in the space that follows it. -/
  | grewInPlace (offset request : Nat)
  /-- The contents of the block at `offset` went to the block at `target`. -/
  | moved (offset request target : Nat)
  /-- A request to resize the block at `offset` was served by the block at `target`. -/
  | resized (offset request target : Nat)
deriving DecidableEq, Repr

namespace Event

def level : Event → Level
  | .refused _ _ => .warn
  | .extended _ _ | .initialised _ | .grewInPlace _ _ | .moved _ _ _ => .debug
  | .merged _ _ _ | .allocated _ _ | .released _ | .resized _ _ _ => .trace

def message : Event → String
  | .refused bytes refusal => s!"arena refused to grow by {bytes} bytes: {refusal.message}"
  | .extended bytes high => s!"extended arena by {bytes} bytes, break at {high}"
  | .initialised high => s!"initialised allocator, arena [0, {high})"
  | .merged offset start size => s!"coalesced block {offset} into {start} ({size} bytes)"
  | .allocated request offset => s!"allocate({request}) -> {offset}"
  | .released offset => s!"release({offset})"
  | .grewInPlace offset request => s!"resize({offset}, {request}) grew in place"
  | .moved offset request target => s!"resize({offset}, {request}) moved to {target}"
  | .resized offset request target => s!"resize({offset}, {request}) -> {target}"

def line (event : Event) : String :=
  s!"{event.level.name} {event.message}"

end Event

end TaggedHeap
