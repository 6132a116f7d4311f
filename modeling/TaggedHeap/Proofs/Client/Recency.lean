import TaggedHeap.Proofs.Client.Invariant
import TaggedHeap.Proofs.Heap.Recency
import TaggedHeap.Proofs.Heap.Survey

/-!
Contract: the lists of a heap tell which of two free blocks of one size was filed later.

A free block is known by its extent. It was filed by the request that it appears after, and stays
filed as long as a free block of its extent is there. Two blocks that appear after the same request
were filed by a resize that moved a payload: it frees the old block last. The main statement is that
in every state a block precedes another of its size in the lists only if it was filed later.
-/

namespace TaggedHeap

namespace Shape

variable {shape later : Shape} {request : Request} {reply : Reply} {bytes : Nat}
  {events : List Event}

theorem Allocates.files (allocates : shape.Allocates bytes reply later events)
    (valid : shape.Valid) : ∃ recent, shape.Files later none recent := by
  cases allocates with
  | served something judged serves =>
      obtain ⟨wide, -⟩ := blockSizeFor_ok judged
      exact serves.files valid wide
  | nothing | excessive | lacking => exact ⟨[], files_nothing (.refl _)⟩

theorem Steps.files (steps : shape.Steps request reply later events) (valid : shape.Valid)
    (tuned : shape.policy.resizeSlack % 8 = 0) :
    ∃ recent, shape.Files later request.surrendered recent := by
  cases steps with
  | allocate allocates | resizeNothing allocates => exact allocates.files valid
  | release member allocated releases | resizeAway member allocated releases =>
      exact releases.files valid.sound member allocated
  | resize something member allocated resizes => exact resizes.files valid tuned member allocated
  | releaseNothing | reject | write => exact ⟨[], files_nothing (.refl _)⟩

/-- A new heap has one free block. -/
theorem Founds.not_precedes {region : Region} {policy : Policy} {newer older : Handle × Nat}
    (founds : Founds region policy later events) : ¬later.lists.Precedes newer older := by
  obtain ⟨-, -, grows⟩ := founds
  obtain ⟨gone, lists⟩ := grows.lists_later
  have empty : ((founded region policy).lists.without gone) = fun _ => [] := rfl
  rintro ⟨cls, inOrder⟩
  have two := inOrder.length_le
  rw [lists, empty, FreeLists.filed] at two
  split at two <;> simp at two

end Shape

namespace Client

/-- The heap has a free block of this extent. -/
def Frees (client : Client) (extent : Handle × Nat) : Prop :=
  ∃ blocks, client.heap.blocks = .ok blocks ∧
    ∃ info ∈ blocks, info.allocated = false ∧ info.extent = extent

/-- A run on which both blocks are free from the first client to the last. -/
inductive StaysFree (newer older : Handle × Nat) : Client → List Request → Client → Prop where
  | nil {client : Client} (newerFree : client.Frees newer) (olderFree : client.Frees older) :
      StaysFree newer older client [] client
  | cons {first second last : Client} {request : Request} {reply : Reply}
      {requests : List Request} (newerFree : first.Frees newer) (olderFree : first.Frees older)
      (permitted : first.Permits request) (performed : first.perform request = .ok (reply, second))
      (rest : StaysFree newer older second requests last) :
      StaysFree newer older first (request :: requests) last

/-- A run on which the one block was filed later than the other, and both have been free since. -/
inductive FiledLater (newer older : Handle × Nat) : Client → List Request → Client → Prop where
  /-- One request filed the newer block when the older was there. -/
  | onTop {first second last : Client} {request : Request} {reply : Reply}
      {requests : List Request} (permitted : first.Permits request)
      (performed : first.perform request = .ok (reply, second)) (absent : ¬first.Frees newer)
      (present : first.Frees older) (stays : StaysFree newer older second requests last) :
      FiledLater newer older first (request :: requests) last
  /-- One request filed both, the block that it freed after the other. -/
  | atOnce {first second last : Client} {request : Request} {reply : Reply} {handle : Handle}
      {requests : List Request} (permitted : first.Permits request)
      (performed : first.perform request = .ok (reply, second)) (absent : ¬first.Frees newer)
      (alsoAbsent : ¬first.Frees older) (surrendered : request.surrendered = some handle)
      (covers : Covers newer handle) (stays : StaysFree newer older second requests last) :
      FiledLater newer older first (request :: requests) last
  | cons {first second last : Client} {request : Request} {reply : Reply}
      {requests : List Request} (permitted : first.Permits request)
      (performed : first.perform request = .ok (reply, second))
      (rest : FiledLater newer older second requests last) :
      FiledLater newer older first (request :: requests) last

variable {client first last opened : Client} {shape : Shape} {requests : List Request}
  {replies : List Reply} {extent newer older : Handle × Nat}

theorem Tracks.frees_iff (tracks : client.Tracks shape) :
    client.Frees extent ↔ shape.Frees extent := by
  have shown := tracks.shows.blocks_eq tracks.valid.sound
  constructor
  · rintro ⟨blocks, found, free⟩
    cases shown.symm.trans found
    exact free
  · exact fun free => ⟨shape.blocks, shown, free⟩

/-- Blocks that stand in a list are free. -/
theorem Tracks.frees_of_precedes (tracks : client.Tracks shape)
    (precedes : shape.lists.Precedes newer older) : client.Frees newer ∧ client.Frees older := by
  obtain ⟨cls, inOrder⟩ := precedes
  have sound := tracks.valid.sound
  have listed : ∀ extent ∈ [newer, older], client.Frees extent := fun extent isOne =>
    tracks.frees_iff.2 (sound.frees_of_lists ⟨cls, inOrder.subset isOne⟩)
  exact ⟨listed newer (by simp), listed older (by simp)⟩

/-- After a run, a block precedes another of its size only if it did so before and both have stayed
free, or if the run filed it later. -/
theorem Runs.filed_later (runs : Runs first requests replies last) (tracks : first.Tracks shape) :
    ∃ later, last.Tracks later ∧ later.lists.OrderedBy fun newer older =>
      shape.lists.Precedes newer older ∧ StaysFree newer older first requests last ∨
        FiledLater newer older first requests last := by
  induction runs generalizing shape with
  | nil =>
      refine ⟨shape, tracks, fun newer older _ precedes => .inl ⟨precedes, ?_⟩⟩
      obtain ⟨newerFree, olderFree⟩ := tracks.frees_of_precedes precedes
      exact .nil newerFree olderFree
  | cons permitted performed rest inductionHypothesis =>
      obtain ⟨middle, events, steps, middleTracks, -⟩ := tracks.step permitted performed
      obtain ⟨later, laterTracks, ordered⟩ := inductionHypothesis middleTracks
      obtain ⟨recent, files⟩ := steps.files tracks.valid tracks.tuned
      refine ⟨later, laterTracks, fun newer older same precedes => ?_⟩
      rcases ordered newer older same precedes with ⟨inMiddle, stays⟩ | filed
      · rcases files.recency tracks.valid same inMiddle with
          before | ⟨absent, present | ⟨alsoAbsent, handle, surrendered, covers⟩⟩
        · obtain ⟨newerFree, olderFree⟩ := tracks.frees_of_precedes before
          exact .inl ⟨before, .cons newerFree olderFree permitted performed stays⟩
        · exact .inr (.onTop permitted performed (mt tracks.frees_iff.1 absent)
            (tracks.frees_iff.2 present) stays)
        · exact .inr (.atOnce permitted performed (mt tracks.frees_iff.1 absent)
            (mt tracks.frees_iff.1 alsoAbsent) surrendered covers stays)
      · exact .inr (.cons permitted performed filed)

/-- In every state that a new heap comes to, a block precedes another of its size only if it was
filed later. -/
theorem Opens.filed_later {region : Region} {policy : Policy} (opens : Opens region policy opened)
    (runs : Runs opened requests replies client) :
    ∃ shape, client.Tracks shape ∧ shape.lists.OrderedBy
      fun newer older => FiledLater newer older opened requests client := by
  obtain ⟨founded, events, founds, tracks⟩ := opens.founds
  obtain ⟨shape, shapeTracks, ordered⟩ := runs.filed_later tracks
  refine ⟨shape, shapeTracks, fun newer older same precedes => ?_⟩
  rcases ordered newer older same precedes with ⟨initially, -⟩ | filed
  · exact absurd initially founds.not_precedes
  · exact filed

end Client

end TaggedHeap
