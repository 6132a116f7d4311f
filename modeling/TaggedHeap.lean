import TaggedHeap.Fault
import TaggedHeap.Rounding
import TaggedHeap.Policy
import TaggedHeap.Failure
import TaggedHeap.Event
import TaggedHeap.Region.Buffer
import TaggedHeap.Region.Reservation
import TaggedHeap.Region.Basic
import TaggedHeap.Region.Word
import TaggedHeap.Block.Tag
import TaggedHeap.Region.Access
import TaggedHeap.Block.Basic
import TaggedHeap.Heap.Allocate
import TaggedHeap.Heap.Resize
import TaggedHeap.Heap.Audit
import TaggedHeap.Heap.Payload
import TaggedHeap.Heap.Survey
import TaggedHeap.Client
import TaggedHeap.Block.Lemmas
import TaggedHeap.Proofs.Heap.Execution
import TaggedHeap.Proofs.Block.Extent
import TaggedHeap.Proofs.FreeList.Linked
import TaggedHeap.Proofs.FreeList.Basic
import TaggedHeap.Proofs.FreeList.Filing
import TaggedHeap.Proofs.FreeList.Search
import TaggedHeap.Proofs.Shape.Layout
import TaggedHeap.Proofs.Shape.Basic
import TaggedHeap.Proofs.Shape.Execution
import TaggedHeap.Proofs.Shape.Edit
import TaggedHeap.Proofs.Shape.Retag
import TaggedHeap.Proofs.Shape.Mark
import TaggedHeap.Proofs.Heap.Merge
import TaggedHeap.Proofs.Heap.Growth
import TaggedHeap.Proofs.Heap.Carve
import TaggedHeap.Proofs.Heap.Allocate
import TaggedHeap.Proofs.Heap.Release
import TaggedHeap.Proofs.Heap.InPlace
import TaggedHeap.Proofs.Heap.Move
import TaggedHeap.Proofs.Heap.Resize
import TaggedHeap.Proofs.Heap.Payload
import TaggedHeap.Proofs.Client.Step
import TaggedHeap.Proofs.Heap.Creation
import TaggedHeap.Proofs.Heap.Survey
import TaggedHeap.Proofs.Heap.Audit
import TaggedHeap.Proofs.Client.Invariant
import TaggedHeap.Proofs.Client.Replay
import TaggedHeap.Proofs.Client.Leases
import TaggedHeap.Proofs.Client.Safety
import TaggedHeap.Proofs.Client.Contents
import TaggedHeap.Proofs.Client.Refusal
import TaggedHeap.Proofs.Heap.Verdict
import TaggedHeap.Proofs.Shape.Anchor
import TaggedHeap.Proofs.Heap.Marks
import TaggedHeap.Proofs.Client.Marks
import TaggedHeap.Proofs.Client.Reservations
import TaggedHeap.Proofs.Client.Placement
import TaggedHeap.Proofs.Heap.Stop
import TaggedHeap.Proofs.Client.Emptying
import TaggedHeap.Proofs.Heap.Damage
import TaggedHeap.Proofs.Heap.Defects
import TaggedHeap.Proofs.Client.Confinement
import TaggedHeap.Proofs.Region.Provider
import TaggedHeap.Proofs.Heap.Provider
import TaggedHeap.Proofs.Client.Provider
import TaggedHeap.Proofs.FreeList.Recency
import TaggedHeap.Proofs.Heap.Recency
import TaggedHeap.Proofs.Client.Recency
import TaggedHeap.Proofs.Heap.Choice
import TaggedHeap.Proofs.Client.BestFit
import TaggedHeap.Proofs.Heap.Enlarge
import TaggedHeap.Proofs.Client.Enlarge
import TaggedHeap.Proofs.Client.Fitting
import TaggedHeap.Proofs.Client.Resizing
import TaggedHeap.Proofs.Client.Undo
import TaggedHeap.Proofs.Client.Commuting
import TaggedHeap.Proofs.FreeList.Refinement
import TaggedHeap.Proofs.Heap.Construction
import TaggedHeap.Proofs.Heap.Monotone
import TaggedHeap.Proofs.Client.Monotone
import TaggedHeap.Proofs.Client.Settling
import TaggedHeap.Proofs.Block.Codec
import TaggedHeap.Proofs.Numeral
import TaggedHeap.Proofs.Heap.Description
import TaggedHeap.Proofs.Client.Views
import TaggedHeap.Proofs.Heap.Trace
import TaggedHeap.Proofs.Client.Trace
import TaggedHeap.Proofs.Shape.Vacancy
import TaggedHeap.Proofs.Heap.Vacancy
import TaggedHeap.Proofs.Client.DoubleRelease
