import TaggedHeap.Proofs.Client.Invariant
import TaggedHeap.Proofs.Client.Replay
import TaggedHeap.Proofs.Heap.Monotone

/-!
Contract: what is granted for more bytes is granted for fewer.

The two requests may take different paths, one a block that is free and the other one that the heap
grows by. So nothing is said about what they answer but that both are granted.
-/

namespace TaggedHeap.Client

variable {client next : Client} {shape later : Shape} {request : Request} {handle : Handle}
  {answer : Option Handle} {failure : Failure} {events : List Event} {fewer bytes : Nat}

theorem Tracks.not_fails_of_granted (tracks : client.Tracks shape)
    (granted : client.perform request = .ok (.ok answer, next)) :
    ¬shape.Steps request (.error failure) later events := by
  intro steps
  obtain ⟨_, performed, -⟩ := tracks.perform_of_steps steps
  rw [granted] at performed
  cases performed

theorem Tracks.allocates_of_le (tracks : client.Tracks shape) (something : 1 ≤ fewer)
    (le : fewer ≤ bytes) (granted : client.perform (.allocate bytes) = .ok (.ok answer, next)) :
    ∃ given after, client.perform (.allocate fewer) = .ok (.ok (some given), after) := by
  obtain ⟨reply, after, _, _, ⟨allocates⟩, performed, -⟩ :=
    tracks.perform (permits_allocate client fewer)
  cases reply with
  | ok given =>
      cases allocates with
      | nothing nothing => omega
      | served => exact ⟨_, after, performed⟩
  | error failure =>
      obtain ⟨_, _, persists⟩ := allocates.persists tracks.valid.sound le
      exact absurd (.allocate persists) (tracks.not_fails_of_granted granted)

theorem Tracks.resizes_of_le (tracks : client.Tracks shape) (held : handle ∈ client.handles)
    (something : 1 ≤ fewer) (le : fewer ≤ bytes)
    (granted : client.perform (.resize (some handle) bytes) = .ok (.ok answer, next)) :
    ∃ given after,
      client.perform (.resize (some handle) fewer) = .ok (.ok (some given), after) := by
  obtain ⟨size, present⟩ := tracks.present_of_mem held
  obtain ⟨info, member, allocated, rfl, rfl⟩ := Shape.mem_extents.1 present
  rcases Shape.resizes_or_rejects tracks.valid tracks.tuned member allocated fewer with
    ⟨result, later, events, resizes⟩ | ⟨failure, events, rejects⟩
  · obtain ⟨after, performed, -⟩ :=
      tracks.perform_of_steps (.resize (by omega) member allocated resizes)
    exact ⟨_, after, performed⟩
  · obtain ⟨failure, events, persists⟩ := rejects.persists tracks.valid.sound le
    exact absurd (.reject (by omega) member allocated persists)
      (tracks.not_fails_of_granted granted)

/-- In every reachable state, if an allocation is granted then so is every smaller one, and if a
resize of a live payload is granted then so is every smaller one of that payload. Requests for no
bytes are left out: they ask for no payload. -/
theorem granted_of_le (reachable : Reachable client) (something : 1 ≤ fewer)
    (le : fewer ≤ bytes) :
    (∀ answer next, client.perform (.allocate bytes) = .ok (.ok answer, next) →
      ∃ given after, client.perform (.allocate fewer) = .ok (.ok (some given), after)) ∧
    ∀ handle ∈ client.handles, ∀ answer next,
      client.perform (.resize (some handle) bytes) = .ok (.ok answer, next) →
        ∃ given after,
          client.perform (.resize (some handle) fewer) = .ok (.ok (some given), after) := by
  obtain ⟨shape, tracks⟩ := reachable.tracks
  exact ⟨fun _ _ granted => tracks.allocates_of_le something le granted,
    fun _ held _ _ granted => tracks.resizes_of_le held something le granted⟩

/-- A payload of 30 bytes needs the heap to grow and one of 9 takes a free block. A payload of one
byte that is to have 30 moves to the end of the heap, and one that is to have 9 grows where it
is. -/
theorem granted_of_le_replay : ∃ client,
    replay (.ofLimit 256) ⟨16, 8, 16, 2⟩ [.allocate 1, .allocate 20, .allocate 1,
      .release (some ⟨32⟩)] = some client ∧
    (∃ given after, client.perform (.allocate 9) = .ok (.ok (some given), after)) ∧
    ∃ given after, client.perform (.resize (some ⟨16⟩) 9) = .ok (.ok (some given), after) := by
  have played : (replay (.ofLimit 256) ⟨16, 8, 16, 2⟩ [.allocate 1, .allocate 20, .allocate 1,
      .release (some ⟨32⟩)]).any (fun client => ⟨16⟩ ∈ client.handles ∧
        (client.perform (.allocate 30)).map Prod.fst = .ok (.ok (some ⟨80⟩)) ∧
        (client.perform (.resize (some ⟨16⟩) 30)).map Prod.fst = .ok (.ok (some ⟨80⟩))) =
          true := by
    decide +kernel
  obtain ⟨client, replayed, checked⟩ := (Option.any_eq_true _ _).1 played
  obtain ⟨held, allocated, resized⟩ := of_decide_eq_true checked
  obtain ⟨_, allocated⟩ := exists_performed allocated
  obtain ⟨_, resized⟩ := exists_performed resized
  obtain ⟨allocates, resizes⟩ :=
    granted_of_le (reachable_of_replay replayed) (show 1 ≤ 9 by decide) (show 9 ≤ 30 by decide)
  exact ⟨client, replayed, allocates _ _ allocated, resizes _ held _ _ resized⟩

end TaggedHeap.Client
