import TaggedHeap.Proofs.Client.Invariant
import TaggedHeap.Proofs.Client.Replay
import TaggedHeap.Proofs.Heap.Audit
import TaggedHeap.Proofs.Heap.Survey

/-!
Contract: what a heap promises every client that keeps to the rules, in every state it can reach.

The heap passes its audit, and neither a permitted request nor a view of the heap ends in a fault.
No heap grows beyond what a word can hold, so no size and no link loses a bit when it is stored.
-/

namespace TaggedHeap

/-- Words hold every tag and every link that a heap of this size can store. -/
def Heap.StoresExactly (heap : Heap) : Prop :=
  (∀ tag : Tag, tag.size % 8 = 0 → tag.size ≤ heap.region.size → Tag.ofWord tag.toWord = tag) ∧
    ∀ block : Block, 0 < block.offset → block.offset ≤ heap.region.size →
      Links.decode (Links.encode (some block)) = some block

/-- Each view of the heap, and of the payloads of `handles`, has an answer. -/
structure Heap.Readable (heap : Heap) (handles : List Handle) : Prop where
  usable : ∀ handle ∈ handles, ∃ count, Heap.usable handle heap.region = .ok count
  payload : ∀ handle ∈ handles, ∃ bytes, Heap.payload handle heap.region = .ok bytes
  part : ∀ handle ∈ handles, ∀ start count, ∃ bytes,
    Heap.readPayload handle start count heap.region = .ok bytes
  blocks : ∃ found, heap.blocks = .ok found
  members : ∀ cls, ∃ found, heap.members cls = .ok found
  occupancy : ∃ sums, heap.occupancy = .ok sums
  text : ∃ text, heap.describe = .ok text
  audit : ∃ verdict, heap.audit = .ok verdict

namespace Client

variable {client : Client} {shape : Shape}

theorem Tracks.audit_eq (tracks : client.Tracks shape) : client.heap.audit = .ok none :=
  tracks.shows.audit_eq tracks.valid

/-- A heap passes its audit in every reachable state, and again after whatever is requested next,
be it granted or not. -/
theorem audit_of_reachable (reachable : Reachable client) :
    client.heap.audit = .ok none ∧
      ∀ request, client.Permits request → ∃ reply next,
        client.perform request = .ok (reply, next) ∧ next.heap.audit = .ok none := by
  obtain ⟨shape, tracks⟩ := reachable.tracks
  refine ⟨tracks.audit_eq, fun request permitted => ?_⟩
  obtain ⟨reply, next, later, events, -, performed, nextTracks, -⟩ := tracks.perform permitted
  exact ⟨reply, next, performed, nextTracks.audit_eq⟩

/-- Two payloads, one of them moved by a resize, and a release, before a request that is refused. -/
theorem audit_of_replay : ∃ client,
    replay (.ofLimit 512) ⟨16, 8, 16, 2⟩ [.allocate 1, .allocate 2, .resize (some ⟨16⟩) 9,
        .release (some ⟨32⟩)] = some client ∧
      client.heap.audit = .ok none ∧ ∃ reply next,
        client.perform (.allocate 4096) = .ok (reply, next) ∧ next.heap.audit = .ok none := by
  have played : (replay (.ofLimit 512) ⟨16, 8, 16, 2⟩ [.allocate 1, .allocate 2,
      .resize (some ⟨16⟩) 9, .release (some ⟨32⟩)]).isSome = true := by
    decide +kernel
  obtain ⟨client, replayed⟩ := Option.isSome_iff_exists.1 played
  obtain ⟨passes, laterPasses⟩ := audit_of_reachable (reachable_of_replay replayed)
  exact ⟨client, replayed, passes, laterPasses _ (permits_allocate client 4096)⟩

/-! ## No faults -/

theorem Tracks.size_le (tracks : client.Tracks shape) : client.heap.region.size ≤ maxBlock := by
  have size : client.heap.region.size = shape.stop := tracks.shows.lays.size
  rw [size]
  exact tracks.valid.sound.layout.encodable

theorem Tracks.readable (tracks : client.Tracks shape) :
    client.heap.Readable client.handles := by
  have sound := tracks.valid.sound
  have shows := tracks.shows
  refine ⟨?_, ?_, ?_, ⟨_, shows.blocks_eq sound⟩, fun cls => ⟨_, shows.members_eq sound cls⟩,
    ⟨_, shows.occupancy_eq sound⟩, ⟨_, shows.describe_eq sound⟩, ⟨_, tracks.audit_eq⟩⟩
  · intro handle held
    obtain ⟨size, present⟩ := tracks.present_of_mem held
    exact ⟨_, Shape.sees_usable sound present client.heap shows⟩
  · intro handle held
    obtain ⟨size, present⟩ := tracks.present_of_mem held
    exact ⟨_, Shape.payload_run sound present shows⟩
  · intro handle held start count
    obtain ⟨size, present⟩ := tracks.present_of_mem held
    exact ⟨_, Shape.readPayload_run sound present shows start count⟩

/-- Building a heap never faults, whatever the region holds and however large it may grow, and a
heap that was built fits into words. -/
theorem create_size_le (region : Region) (policy : Policy) :
    ∃ reply heap, (Heap.create policy).run (Heap.blank region policy) = .ok reply heap ∧
      (reply = .ok () → heap.region.size ≤ maxBlock) := by
  rcases Shape.founds_or_fails region policy with
    ⟨later, events, founds⟩ | ⟨failure, size, fails⟩
  · obtain ⟨after, ran, shows, -⟩ := founds.run
    refine ⟨_, after, ran, fun _ => ?_⟩
    have size : after.region.size = later.stop := shows.lays.size
    rw [size]
    exact founds.valid_later.sound.layout.encodable
  · obtain ⟨after, ran, -⟩ := fails.run
    exact ⟨_, after, ran, nofun⟩

theorem Tracks.storesExactly (tracks : client.Tracks shape) : client.heap.StoresExactly := by
  have size := tracks.size_le
  have widths : maxBlock < 4294967296 := by decide
  refine ⟨fun tag grained inside => ?_, fun block positive inside => ?_⟩
  · exact Tag.ofWord_toWord ⟨grained, Nat.le_trans inside size⟩
  · exact Links.decode_encode_some positive (by omega)

/-- No heap faults: not while it is built, and not on whatever permitted request or view in a
reachable state. It stays small enough for words. -/
theorem faultless :
    (∀ region policy, ∃ reply heap,
      (Heap.create policy).run (Heap.blank region policy) = .ok reply heap ∧
        (reply = .ok () → heap.region.size ≤ maxBlock)) ∧
      ∀ client, Reachable client →
        (∀ request, client.Permits request →
          ∃ reply next, client.perform request = .ok (reply, next)) ∧
        client.heap.Readable client.handles ∧
        client.heap.region.size ≤ maxBlock ∧ client.heap.StoresExactly := by
  refine ⟨create_size_le, fun client reachable => ?_⟩
  obtain ⟨shape, tracks⟩ := reachable.tracks
  refine ⟨fun request permitted => ?_, tracks.readable, tracks.size_le, tracks.storesExactly⟩
  obtain ⟨reply, next, later, events, -, performed, -⟩ := tracks.perform permitted
  exact ⟨reply, next, performed⟩

/-- A region of a tebibyte, and requests up to the largest machine index. -/
theorem faultless_of_replay : ∃ client,
    replay (.ofLimit 1099511627776) ⟨16, 8, maxIndex - 7, 2⟩
        [.allocate 1, .resize (some ⟨16⟩) 9] = some client ∧
      (∃ reply next, client.perform (.allocate maxIndex) = .ok (reply, next)) ∧
      client.heap.Readable client.handles ∧ client.heap.region.size ≤ maxBlock ∧
      client.heap.StoresExactly := by
  have played : (replay (.ofLimit 1099511627776) ⟨16, 8, maxIndex - 7, 2⟩
      [.allocate 1, .resize (some ⟨16⟩) 9]).isSome = true := by
    decide +kernel
  obtain ⟨client, replayed⟩ := Option.isSome_iff_exists.1 played
  obtain ⟨answers, rest⟩ := faultless.2 client (reachable_of_replay replayed)
  exact ⟨client, replayed, answers _ (permits_allocate client maxIndex), rest⟩

end Client

end TaggedHeap
