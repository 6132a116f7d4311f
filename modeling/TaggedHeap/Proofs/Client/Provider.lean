import TaggedHeap.Client
import TaggedHeap.Proofs.Heap.Provider

/-!
Contract: the two providers of bytes are interchangeable.

The owner of a region grows it, writes to it and lends it to heaps, one after another. Whatever is
asked of a heap while it has the region, and even if it stops at a failure or a fault, a buffer and
a reservation of one limit come to the same answers and to the same bytes.
-/

namespace TaggedHeap

/-- What a heap shows. The blocks and the members of a size class are shown as far as asked for. -/
inductive View where
  | payload (handle : Handle) (start count : Nat)
  | usable (handle : Handle)
  | blocks (count : Nat)
  | members (cls : SizeClass) (count : Nat)
  | occupancy
  | description
  | audit
  | journal

inductive Operation where
  | ask (request : Request)
  | look (view : View)

inductive Answer where
  | reply (reply : Reply)
  | bytes (values : ByteArray)
  | number (count : Nat)
  | blocks (found : List BlockInfo)
  | members (found : List Handle)
  | occupancy (found : Occupancy)
  | text (text : String)
  | verdict (defect : Option Defect)
  | events (reported : Array Event)

def View.answer (heap : Heap) : View → Except Fault Answer
  | .payload handle start count => do
      return .bytes (← Heap.readPayload handle start count heap.region)
  | .usable handle => do return .number (← Heap.usable handle heap.region)
  | .blocks count => do return .blocks (← heap.firstBlocks count)
  | .members cls count => do return .members (← heap.firstMembers cls count)
  | .occupancy => do return .occupancy (← heap.occupancy)
  | .description => do return .text (← heap.describe)
  | .audit => do return .verdict (← heap.audit)
  | .journal => return .events heap.journal

def Operation.act : Operation → HeapM Answer
  | .ask request => do return .reply (← request.act.run)
  | .look view => do view.answer (← get)

/-- What the owner of a region does with it. A heap has the region until it is torn down. -/
inductive Use where
  | grow (bytes : Nat)
  | write (offset : Nat) (value : UInt8)
  | lend (policy : Policy) (operations : List Operation)

inductive Outcome where
  | grown (answer : Except Refusal Nat)
  | written
  | returned (answers : Except Failure (List Answer))

/-- Writes a byte below the end of a region. -/
def Region.writeByte (offset : Nat) (value : UInt8) : RegionM Unit := fun region =>
  if offset < region.size then
    .ok () (region.setByte offset value)
  else
    .error .outOfBounds region

/-- Builds a heap and operates it. -/
def Heap.serve (policy : Policy) (operations : List Operation) : AllocM (List Answer) := do
  create policy
  (operations.mapM Operation.act : HeapM (List Answer))

/-- Lends a region to a new heap at its end and takes it back. -/
def Region.lend (policy : Policy) (operations : List Operation) :
    RegionM (Except Failure (List Answer)) := fun region =>
  match (Heap.serve policy operations).run (Heap.blank region policy) with
  | .ok answers heap => .ok answers heap.region
  | .error fault heap => .error fault heap.region

def Use.act : Use → RegionM Outcome
  | .grow bytes => do return .grown (← Region.grow bytes)
  | .write offset value => do
      Region.writeByte offset value
      return .written
  | .lend policy operations => do return .returned (← Region.lend policy operations)

theorem Request.act_parallel (request : Request) :
    Parallel Heap.Matches request.act.run := by
  cases request with
  | allocate bytes => exact Heap.allocate_parallel bytes
  | release handle =>
      exact .run_bind (.run_lift (Heap.release_parallel handle)) fun _ => .run_pure none
  | resize handle bytes => exact Heap.resize_parallel handle bytes
  | write handle start values =>
      exact .run_bind (.run_lift (Heap.writePayload_parallel handle start values)) fun _ =>
        .run_pure none

theorem View.answer_congr {left right : Heap} (same : left.Matches right) (view : View) :
    view.answer left = view.answer right := by
  cases view with
  | payload handle start count =>
      rw [answer, answer, Heap.readPayload_agnostic _ _ _ _ _ same.region]
  | usable handle => rw [answer, answer, Heap.usable_agnostic _ _ _ same.region]
  | blocks count => rw [answer, answer, same.firstBlocks]
  | members cls count => rw [answer, answer, same.firstMembers]
  | occupancy => rw [answer, answer, same.occupancy]
  | description => rw [answer, answer, same.describe]
  | audit => rw [answer, answer, same.audit]
  | journal => rw [answer, answer, same.journal]

theorem Operation.act_parallel (operation : Operation) :
    Parallel Heap.Matches operation.act := by
  cases operation with
  | ask request => exact .bind request.act_parallel fun _ => .pure _
  | look view =>
      exact .get_bind (fun left right same => by rw [view.answer_congr same]) fun _ =>
        Heap.except_parallel _

theorem Region.writeByte_parallel (offset : Nat) (value : UInt8) :
    Parallel Matches (writeByte offset value) := by
  intro left right same
  rw [writeByte, writeByte, same.size]
  split
  · exact .ok () (same.setByte offset value)
  · exact .error Fault.outOfBounds same

theorem Heap.serve_parallel (policy : Policy) (operations : List Operation) :
    Parallel Matches (serve policy operations).run :=
  .run_bind (create_parallel policy) fun _ =>
    .run_lift (.mapM Operation.act_parallel operations)

theorem Region.lend_parallel (policy : Policy) (operations : List Operation) :
    Parallel Matches (lend policy operations) := by
  intro left right same
  have steps := Heap.serve_parallel policy operations _ _ (Heap.matches_blank same policy)
  unfold lend
  generalize (Heap.serve policy operations).run (Heap.blank left policy) = leftOutcome,
    (Heap.serve policy operations).run (Heap.blank right policy) = rightOutcome at steps
  cases steps with
  | ok answers after => exact .ok answers after.region
  | error fault after => exact .error fault after.region

theorem Use.act_parallel (use : Use) : Parallel Region.Matches use.act := by
  cases use with
  | grow bytes => exact .bind (Region.grow_parallel bytes) fun _ => .pure _
  | write offset value => exact .bind (Region.writeByte_parallel offset value) fun _ => .pure _
  | lend policy operations => exact .bind (Region.lend_parallel policy operations) fun _ => .pure _

/-- A buffer and a reservation of one limit are the same to whoever uses them, and after any uses
both grow as they should. -/
theorem providers_interchangeable {limit : Nat} {reserved : Region}
    (claimed : Region.reserve limit = .ok reserved) (uses : List Use) :
    InStep Region.Matches ((uses.mapM Use.act).run (Region.ofLimit limit))
        ((uses.mapM Use.act).run reserved) ∧
      ∀ provider ∈ [Region.ofLimit limit, reserved], ∀ outcomes region,
        (uses.mapM Use.act).run provider = .ok outcomes region →
          ∀ bytes, ∃ answer later, Region.grow bytes region = .ok answer later ∧
            region.Growth bytes answer later := by
  have steps : InStep Region.Matches ((uses.mapM Use.act).run (Region.ofLimit limit))
      ((uses.mapM Use.act).run reserved) :=
    Parallel.mapM Use.act_parallel uses _ _ (Region.matches_of_reserve claimed)
  refine ⟨steps, fun provider either outcomes region ran bytes => Region.grow_growth ?_ bytes⟩
  simp only [List.mem_cons, List.not_mem_nil, or_false] at either
  rcases either with rfl | rfl
  · rw [ran] at steps
    generalize (uses.mapM Use.act).run reserved = outcome at steps
    cases steps with
    | ok outcomes same => exact same.addressable
  · rw [ran] at steps
    generalize (uses.mapM Use.act).run (Region.ofLimit limit) = outcome at steps
    cases steps with
    | ok outcomes same => exact same.limit ▸ same.addressable

/-- Growth up to the limit, a write, a heap on top of what was written, and another on top of the
first. -/
theorem interchangeable_of_uses : ∃ (uses : List Use) (reserved : Region),
    Region.reserve 204 = .ok reserved ∧ uses.length = 5 ∧
      ∃ outcomes left right, (uses.mapM Use.act).run (.ofLimit 204) = .ok outcomes left ∧
        (uses.mapM Use.act).run reserved = .ok outcomes right ∧ left.Matches right := by
  obtain ⟨uses, five, finished⟩ : ∃ uses : List Use, uses.length = 5 ∧
      (match (uses.mapM Use.act).run (.ofLimit 204) with
        | .ok _ _ => true
        | .error _ _ => false) = true :=
    ⟨[.grow 13, .write 5 7, .grow 500,
      .lend ⟨16, 8, 16, 2⟩ [.ask (.allocate 8), .look (.blocks 9)],
      .lend ⟨16, 8, 16, 2⟩ [.ask (.allocate 20), .look .audit]], rfl, by decide +kernel⟩
  have claimed : Region.reserve 204 = .ok _ := rfl
  have steps := (providers_interchangeable claimed uses).1
  cases dense : (uses.mapM Use.act).run (.ofLimit 204) with
  | error fault region =>
      rw [dense] at finished
      cases finished
  | ok outcomes left =>
      rw [dense] at steps
      generalize sparse : (uses.mapM Use.act).run _ = outcome at steps
      cases steps with
      | ok outcomes same =>
          exact ⟨uses, _, claimed, five, outcomes, left, _, dense, sparse, same⟩

end TaggedHeap
