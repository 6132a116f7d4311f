import TaggedHeap.Proofs.Client.Marks
import TaggedHeap.Proofs.Client.Replay
import TaggedHeap.Proofs.Heap.Undo

/-!
Contract: allocating a payload and releasing it again.

The release undoes the allocation. If the heap had to grow, only its end is different: the free
space there has become longer by as much as the heap. The same request is then served by the same
block, without any growth.
-/

namespace TaggedHeap

/-- What a heap that displayed these blocks is like after a payload was allocated and released
again: as it was, the order of its lists apart, or with more free space at its end. -/
inductive Heap.Recovers (before after : Heap) (blocks : List BlockInfo) (epilogue : BlockInfo) :
    Prop where
  | same (size : after.region.size = before.region.size)
      (displays : after.Displays blocks epilogue)
      (members : ∀ cls, ∃ old new, before.members cls = .ok old ∧ after.members cls = .ok new ∧
        new.Perm old) : Recovers before after blocks epilogue
  | longer {count : Nat} {front : List BlockInfo} {last : BlockInfo} (positive : 0 < count)
      (size : after.region.size = before.region.size + count)
      (displays : after.Displays (front ++ [last]) ⟨⟨after.region.size⟩, 0, true, false⟩)
      (extended : Extends blocks before.region.size count front last) :
      Recovers before after blocks epilogue

theorem Shape.Undoes.recovers {shape later : Shape} {before after : Heap}
    (undoes : shape.Undoes later) (shows : before.Shows shape) (afterShows : after.Shows later)
    (sound : shape.Sound) (laterSound : later.Sound) :
    before.Recovers after shape.blocks shape.epilogue := by
  have size : before.region.size = shape.stop := shows.lays.size
  have afterSize : after.region.size = later.stop := afterShows.lays.size
  have displays := afterShows.displays laterSound
  cases undoes with
  | same closed stop lists =>
      obtain ⟨blocks, epilogue⟩ := List.append_inj' closed rfl
      rw [blocks, List.head_eq_of_cons_eq epilogue] at displays
      refine .same (by omega) displays fun cls => ?_
      exact ⟨_, _, shows.members_eq sound cls, afterShows.members_eq laterSound cls,
        (lists cls).map _⟩
  | longer positive stop blocks epilogue extended =>
      rw [blocks, epilogue, ← afterSize] at displays
      rw [← size] at extended
      exact .longer positive (by omega) displays extended

namespace Client

variable {client middle : Client} {handle : Handle} {bytes : Nat}

/-- In every reachable state, releasing a payload directly after it was allocated leaves all blocks,
marks and free lists as they were before, if the heap had not grown, and otherwise only makes the
free space at its end longer. After that, the same allocation answers the same handle, and the heap
does not grow. -/
theorem release_undoes_allocate (reachable : Reachable client)
    (performed : client.perform (.allocate bytes) = .ok (.ok (some handle), middle)) :
    ∃ blocks epilogue last again, client.heap.Displays blocks epilogue ∧
      middle.perform (.release (some handle)) = .ok (.ok none, last) ∧
      client.heap.Recovers last.heap blocks epilogue ∧
      last.heap.region.size = middle.heap.region.size ∧
      last.perform (.allocate bytes) = .ok (.ok (some handle), again) ∧
      again.heap.region.size = last.heap.region.size := by
  obtain ⟨shape, tracks, anchored⟩ :=
    reachable.maintains Shape.Steps.anchored_later Shape.Founds.anchored
  have valid := tracks.valid
  obtain ⟨later, events, steps, middleTracks, -⟩ :=
    tracks.step (permits_allocate client bytes) performed
  cases steps with
  | allocate allocates =>
      cases allocates with
      | @served size block _ events something judged serves =>
          obtain ⟨wide, grained, -⟩ := blockSizeFor_ok judged
          obtain ⟨lastShape, more, againShape, releases, undoes, servesAgain, againStop⟩ :=
            serves.undone valid anchored wide grained
          obtain ⟨last, released, lastTracks, -⟩ := middleTracks.perform_of_steps
            (.release (serves.block_mem valid) (serves.block_facts valid).1 releases)
          obtain ⟨again, allocated, againTracks, -⟩ := lastTracks.perform_of_steps
            (.allocate (.served something judged servesAgain))
          have middleSize : middle.heap.region.size = later.stop := middleTracks.shows.lays.size
          have lastSize : last.heap.region.size = lastShape.stop := lastTracks.shows.lays.size
          have againSize : again.heap.region.size = againShape.stop := againTracks.shows.lays.size
          have sameStop := releases.same_stop
          exact ⟨_, _, last, again, tracks.shows.displays valid.sound, released,
            undoes.recovers tracks.shows lastTracks.shows valid.sound lastTracks.valid.sound,
            by omega, allocated, by omega⟩

/-- A payload of 20 bytes is carved from the free block at the end. -/
theorem release_undoes_allocate_of_replay : ∃ client middle blocks epilogue last again,
    replay (.ofLimit 512) ⟨128, 8, 16, 2⟩ [.allocate 1] = some client ∧
      client.perform (.allocate 20) = .ok (.ok (some ⟨32⟩), middle) ∧
      client.heap.Displays blocks epilogue ∧
      middle.perform (.release (some ⟨32⟩)) = .ok (.ok none, last) ∧
      client.heap.Recovers last.heap blocks epilogue ∧
      last.heap.region.size = middle.heap.region.size ∧
      last.perform (.allocate 20) = .ok (.ok (some ⟨32⟩), again) ∧
      again.heap.region.size = last.heap.region.size := by
  have played : (replay (.ofLimit 512) ⟨128, 8, 16, 2⟩ [.allocate 1]).any (fun client =>
      (client.perform (.allocate 20)).map Prod.fst = .ok (.ok (some ⟨32⟩))) = true := by
    decide +kernel
  obtain ⟨client, replayed, checked⟩ := (Option.any_eq_true _ _).1 played
  obtain ⟨middle, performed⟩ := exists_performed (of_decide_eq_true checked)
  obtain ⟨blocks, epilogue, last, again, undone⟩ :=
    release_undoes_allocate (reachable_of_replay replayed) performed
  exact ⟨client, middle, blocks, epilogue, last, again, replayed, performed, undone⟩

end Client

end TaggedHeap
