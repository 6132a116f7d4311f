import TaggedHeap.Proofs.Client.Invariant
import TaggedHeap.Proofs.Client.Replay
import TaggedHeap.Proofs.Heap.Audit
import TaggedHeap.Proofs.Heap.Marks
import TaggedHeap.Proofs.Heap.Survey

/-!
Contract: marks in every reachable state.

A new heap carries no mark, and every step keeps the shape anchored. So in every reachable state a
mark lies directly behind an allocated block, free blocks come one by one or in pairs of a reserved
and an unreserved one, and only headers carry marks.
-/

namespace TaggedHeap

namespace Shape

variable {shape later : Shape} {request : Request} {reply : Reply} {closing : Bool}
  {bytes place : Nat} {events : List Event}

/-! ## Steps -/

theorem Founds.anchored {region : Region} {policy : Policy}
    (founds : Founds region policy later events) : later.Anchored := by
  obtain ⟨sane, room, grows⟩ := founds
  refine grows.anchored_later ?_
  intro closing place marked
  cases marked with
  | block member reserved => exact absurd member List.not_mem_nil
  | epilogue reserved => exact absurd reserved Bool.false_ne_true

theorem Allocates.marked_of_later (allocates : shape.Allocates bytes reply later events)
    (marked : later.Marked closing place) : shape.Marked closing place := by
  cases allocates with
  | served something judged serves => exact serves.marked_of_later marked
  | nothing | excessive | lacking => exact marked

theorem Allocates.anchored_later (allocates : shape.Allocates bytes reply later events)
    (valid : shape.Valid) (anchored : shape.Anchored) : later.Anchored := by
  cases allocates with
  | served something judged serves => exact serves.anchored_later valid anchored
  | nothing | excessive | lacking => exact anchored

theorem Steps.anchored_later (steps : shape.Steps request reply later events)
    (valid : shape.Valid) (tuned : shape.policy.resizeSlack % 8 = 0) (anchored : shape.Anchored) :
    later.Anchored := by
  cases steps with
  | allocate allocates | resizeNothing allocates => exact allocates.anchored_later valid anchored
  | release member allocated releases | resizeAway member allocated releases =>
      exact releases.anchored_later valid.sound anchored allocated
  | resize something member allocated resizes =>
      exact resizes.anchored_later valid tuned anchored member allocated
  | releaseNothing | reject | write => exact anchored

end Shape

/-- The marks of a heap that displays these blocks and this epilogue are in good order. -/
structure Heap.MarksInOrder (heap : Heap) (blocks : List BlockInfo) (epilogue : BlockInfo) :
    Prop where
  /-- Directly in front of what is reserved lies an allocated block. -/
  anchored : ∀ front info back, blocks ++ [epilogue] = front ++ info :: back →
    info.reserved = true → ∃ earlier before, front = earlier ++ [before] ∧ before.allocated = true
  /-- Free blocks are neighbours only in pairs. -/
  runs : ∀ front run back, blocks = front ++ (run ++ back) → AllFree run →
    run.length ≤ 1 ∨ ∃ first second, run = [first, second] ∧ first.reserved = true ∧
      second.reserved = false
  footers : ∀ info ∈ blocks,
    info.block.footerTag.run heap.region = .ok ⟨info.size, info.allocated, false⟩
  prologueFooter : heap.prologue.footerTag.run heap.region = .ok ⟨8, true, false⟩
  /-- Without a margin nothing is reserved, and no two free blocks are neighbours. -/
  unmarked : heap.policy.reserveMargin = 0 →
    (∀ info ∈ blocks ++ [epilogue], info.reserved = false) ∧
      ∀ front first second back, blocks = front ++ first :: second :: back →
        first.allocated = true ∨ second.allocated = true

namespace Client

variable {client : Client} {shape : Shape}

theorem Tracks.prologue_above (tracks : client.Tracks shape) : 8 ≤ client.heap.prologue.offset := by
  have place := tracks.shows.prologue
  have above := tracks.valid.sound.layout.above
  omega

theorem Tracks.marksInOrder (tracks : client.Tracks shape) (anchored : shape.Anchored) :
    client.heap.MarksInOrder shape.blocks shape.epilogue where
  anchored := by
    intro front info back split reserved
    obtain ⟨earlier, before, cut, -, allocated, -⟩ :=
      anchored.exists_before tracks.valid.sound split reserved
    exact ⟨earlier, before, cut, allocated⟩
  runs := fun _ _ _ split free => anchored.run_cases tracks.valid split free
  footers := fun _ member =>
    (tracks.shows.wellFormed tracks.valid).footerTag_of_mem tracks.prologue_above member
  prologueFooter :=
    (tracks.shows.wellFormed tracks.valid).prologue_footerTag tracks.prologue_above
  unmarked := by
    intro noMargin
    rw [tracks.shows.policy] at noMargin
    have unmarked : ∀ info ∈ shape.closed, info.reserved = false := by
      intro info member
      refine Bool.eq_false_of_not_eq_true fun reserved => ?_
      obtain ⟨closing, marked⟩ := Layout.marked_of_closed member reserved
      exact Nat.ne_of_gt (anchored closing _ marked).1 noMargin
    refine ⟨unmarked, fun front first second back split => ?_⟩
    by_contra free
    rw [not_or, Bool.not_eq_true, Bool.not_eq_true] at free
    have reserved := tracks.valid.reserved_of_neighbours split free.1 free.2
    rw [unmarked first (by simp [split])] at reserved
    exact Bool.false_ne_true reserved

/-- In every reachable state the marks are in good order. -/
theorem marks_of_reachable (reachable : Reachable client) : ∃ blocks epilogue,
    client.heap.Displays blocks epilogue ∧ client.heap.MarksInOrder blocks epilogue := by
  obtain ⟨shape, tracks, anchored⟩ :=
    reachable.maintains Shape.Steps.anchored_later Shape.Founds.anchored
  exact ⟨shape.blocks, shape.epilogue, tracks.shows.displays tracks.valid.sound,
    tracks.marksInOrder anchored⟩

/-- A free block that is kept for the payload in front of it, and one that is not. -/
theorem marks_of_replay : ∃ client epilogue,
    replay (.ofLimit 512) ⟨16, 8, 16, 2⟩ [.allocate 1, .allocate 1, .resize (some ⟨16⟩) 1,
        .allocate 1, .release (some ⟨32⟩), .release (some ⟨48⟩)] = some client ∧
      client.heap.Displays
        [⟨⟨16⟩, 16, true, false⟩, ⟨⟨32⟩, 16, false, true⟩, ⟨⟨48⟩, 16, false, false⟩] epilogue ∧
      client.heap.MarksInOrder
        [⟨⟨16⟩, 16, true, false⟩, ⟨⟨32⟩, 16, false, true⟩, ⟨⟨48⟩, 16, false, false⟩] epilogue := by
  have played : (replay (.ofLimit 512) ⟨16, 8, 16, 2⟩ [.allocate 1, .allocate 1,
      .resize (some ⟨16⟩) 1, .allocate 1, .release (some ⟨32⟩), .release (some ⟨48⟩)]).any
        (fun client => client.heap.blocks = .ok
          [⟨⟨16⟩, 16, true, false⟩, ⟨⟨32⟩, 16, false, true⟩, ⟨⟨48⟩, 16, false, false⟩]) = true := by
    decide +kernel
  obtain ⟨client, replayed, shown⟩ := (Option.any_eq_true _ _).1 played
  obtain ⟨blocks, epilogue, displays, inOrder⟩ := marks_of_reachable (reachable_of_replay replayed)
  cases displays.blocks.symm.trans (of_decide_eq_true shown)
  exact ⟨client, epilogue, replayed, displays, inOrder⟩

end Client

end TaggedHeap
