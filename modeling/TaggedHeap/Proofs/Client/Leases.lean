import TaggedHeap.Proofs.Client.Invariant
import TaggedHeap.Proofs.Client.Replay
import TaggedHeap.Proofs.Heap.Survey

/-!
Contract: leases and blocks.

In every reachable state the live handles are the allocated blocks, one for one. Their blocks lie
between the sentinels, do not overlap, and hold at least what was granted; only a resize of a
handle changes the size of its block.
-/

namespace TaggedHeap

/-- The byte belongs to the block, header and footer included. -/
def BlockInfo.Occupies (info : BlockInfo) (index : Nat) : Prop :=
  info.handle.offset ≤ index + 4 ∧ index + 4 < info.handle.offset + info.size

instance (info : BlockInfo) (index : Nat) : Decidable (info.Occupies index) :=
  inferInstanceAs (Decidable (_ ∧ _))

theorem BlockInfo.Apart.not_occupies {info other : BlockInfo} (apart : info.Apart other)
    {index : Nat} (occupies : info.Occupies index) : ¬other.Occupies index := by
  have separated : info.handle.offset + info.size ≤ other.handle.offset ∨
      other.handle.offset + other.size ≤ info.handle.offset := apart
  obtain ⟨lower, upper⟩ := occupies
  rintro ⟨first, last⟩
  omega

/-- A handle that is given up and not answered again has no block any more. -/
theorem Shape.Settles.absent {shape later : Shape} {bytes : Nat} {handle : Handle}
    (settles : shape.Settles later (some handle) none bytes) (sound : shape.Sound) {size : Nat} :
    (handle, size) ∉ later.extents := by
  obtain ⟨old, new, ⟨others, before, after⟩, oldHandles, newHandles, -⟩ := settles
  have distinct := Shape.handles_nodup sound
  rw [(before.map Prod.fst).nodup_iff, List.map_append, oldHandles] at distinct
  have nothingNew : new = [] := List.map_eq_nil_iff.1 newHandles
  intro present
  have inOthers := after.subset present
  rw [nothingNew, List.nil_append] at inOthers
  exact (List.nodup_cons.1 distinct).1 (List.mem_map_of_mem inOthers)

namespace Client

/-- The live handles of a client are the allocated blocks among `blocks`. -/
structure Corresponds (client : Client) (blocks : List BlockInfo) : Prop where
  surveyed : client.heap.blocks = .ok blocks
  matched : ((blocks.filter BlockInfo.allocated).map BlockInfo.handle).Perm client.handles
  distinct : client.handles.Nodup
  aligned : ∀ handle ∈ client.handles, handle.offset % 8 = 0
  inside : ∀ info ∈ blocks, ∀ index, info.Occupies index →
    client.heap.prologue.offset + 4 ≤ index ∧ index < client.heap.region.size
  apart : ∀ info ∈ blocks, ∀ other ∈ blocks, info.handle ≠ other.handle →
    ∀ index, info.Occupies index → ¬other.Occupies index
  granted : ∀ lease ∈ client.leases, ∃ count,
    Heap.usable lease.handle client.heap.region = .ok count ∧ lease.bytes ≤ count

variable {client next : Client} {shape later : Shape} {request : Request} {reply : Reply}
  {events : List Event}

theorem Tracks.corresponds (tracks : client.Tracks shape) : client.Corresponds shape.blocks := by
  have sound := tracks.valid.sound
  have tiles := sound.layout.tiles
  have handlesEq : (shape.blocks.filter BlockInfo.allocated).map BlockInfo.handle =
      shape.extents.map Prod.fst := by
    simp [Shape.extents, Shape.allocated]
  refine ⟨tracks.shows.blocks_eq sound, ?_, ?_, ?_, ?_, ?_, ?_⟩
  · rw [handlesEq]
    exact tracks.matched.symm
  · rw [tracks.matched.nodup_iff]
    exact Shape.handles_nodup sound
  · intro handle held
    obtain ⟨size, present⟩ := tracks.present_of_mem held
    obtain ⟨info, member, -, rfl, -⟩ := Shape.mem_extents.1 present
    exact sound.offset_mod member
  · intro info member index occupies
    have lower : info.offset ≤ index + 4 := occupies.1
    have upper : index + 4 < info.offset + info.size := occupies.2
    have first := tiles.start_le_of_mem member
    have last := sound.inside member
    have place := tracks.shows.prologue
    have size : client.heap.region.size = shape.stop := tracks.shows.lays.size
    omega
  · intro info member other otherMember different index occupies
    rcases tiles.apart_of_mem member otherMember with rfl | apart
    · exact absurd rfl different
    · exact apart.not_occupies occupies
  · intro lease isLease
    obtain ⟨size, present, covers⟩ := tracks.covered lease isLease
    exact ⟨size - 8, Shape.sees_usable sound present client.heap tracks.shows, by omega⟩

/-- A block whose handle stays live keeps its size, unless that handle was resized. -/
theorem Tracks.keeps_size (tracks : client.Tracks shape) (nextTracks : next.Tracks later)
    (steps : shape.Steps request reply later events) {handle : Handle} {size : Nat}
    (present : (handle, size) ∈ shape.extents) (stays : handle ∈ next.handles)
    (notResized : ∀ bytes, request ≠ .resize (some handle) bytes) :
    (handle, size) ∈ later.extents := by
  apply steps.keeps tracks.valid tracks.tuned present
  intro surrendered
  cases steps with
  | allocate | releaseNothing | resizeNothing | write => cases surrendered
  | resizeAway | resize | reject =>
      cases surrendered
      exact notResized _ rfl
  | release member allocated releases =>
      have settles := (Shape.Steps.release member allocated releases).settles tracks.valid
        tracks.tuned
      obtain ⟨laterSize, laterPresent⟩ := nextTracks.present_of_mem stays
      rw [surrendered] at settles
      exact settles.absent tracks.valid.sound laterPresent

/-- In every reachable state the live handles are the allocated blocks, one for one. They are so
again after every permitted request, and a block whose handle stays live keeps its size unless that
handle was resized. -/
theorem leases_of_reachable (reachable : Reachable client) :
    ∃ blocks, client.Corresponds blocks ∧
      ∀ request, client.Permits request → ∃ reply next laterBlocks,
        client.perform request = .ok (reply, next) ∧ next.Corresponds laterBlocks ∧
          ∀ info ∈ blocks, info.allocated = true → info.handle ∈ next.handles →
            (∀ bytes, request ≠ .resize (some info.handle) bytes) →
            ∃ other ∈ laterBlocks, other.allocated = true ∧ other.handle = info.handle ∧
              other.size = info.size := by
  obtain ⟨shape, tracks⟩ := reachable.tracks
  refine ⟨shape.blocks, tracks.corresponds, ?_⟩
  intro request permitted
  obtain ⟨reply, next, later, events, steps, performed, nextTracks, -⟩ := tracks.perform permitted
  refine ⟨reply, next, later.blocks, performed, nextTracks.corresponds, ?_⟩
  intro info member allocated stays notResized
  have present := Shape.present_of_allocated member allocated
  exact Shape.mem_extents.1 (tracks.keeps_size nextTracks steps present stays notResized)

/-- Two payloads, the first of them moved behind the second, and a third in the gap. -/
theorem leases_of_replay : ∃ client blocks,
    replay (.ofLimit 512) ⟨16, 8, 16, 2⟩ [.allocate 1, .allocate 2, .resize (some ⟨16⟩) 9,
        .allocate 3] = some client ∧
      client.leases = [⟨⟨16⟩, 3⟩, ⟨⟨48⟩, 9⟩, ⟨⟨32⟩, 2⟩] ∧ client.Corresponds blocks ∧
      ∃ reply next laterBlocks, client.perform (.release (some ⟨32⟩)) = .ok (reply, next) ∧
        next.Corresponds laterBlocks := by
  have played : (replay (.ofLimit 512) ⟨16, 8, 16, 2⟩ [.allocate 1, .allocate 2,
      .resize (some ⟨16⟩) 9, .allocate 3]).any (fun client =>
        client.leases = [⟨⟨16⟩, 3⟩, ⟨⟨48⟩, 9⟩, ⟨⟨32⟩, 2⟩]) = true := by
    decide +kernel
  obtain ⟨client, replayed, checked⟩ := (Option.any_eq_true _ _).1 played
  have leased := of_decide_eq_true checked
  have permitted : client.Permits (.release (some ⟨32⟩)) :=
    permits_of_mem rfl (by simp [handles, leased])
  obtain ⟨blocks, corresponds, keeps⟩ := leases_of_reachable (reachable_of_replay replayed)
  obtain ⟨reply, next, laterBlocks, performed, laterCorresponds, -⟩ := keeps _ permitted
  exact ⟨client, blocks, replayed, leased, corresponds, reply, next, laterBlocks, performed,
    laterCorresponds⟩

end Client

end TaggedHeap
