import TaggedHeap.Proofs.Client.Invariant
import TaggedHeap.Proofs.Client.Replay
import TaggedHeap.Proofs.Heap.Survey

/-!
Contract: a heap keeps to its own part of the region.

The part begins where the region ended when the heap was built, and ends with the region. Whatever
lies below, such as the blocks of an earlier heap, stays as it is, both while the heap is built and
under every permitted request. The part itself is filled by the sentinels, which take sixteen bytes,
and the blocks.
-/

namespace TaggedHeap

namespace Shape

variable {shape later : Shape} {request : Request} {reply : Reply} {events : List Event}
  {handle : Handle} {index size : Nat}

theorem start_le_of_present (sound : shape.Sound) (present : (handle, size) ∈ shape.extents) :
    shape.start ≤ handle.offset := by
  obtain ⟨info, member, -, rfl, -⟩ := mem_extents.1 present
  exact sound.layout.tiles.start_le_of_mem member

/-- No step touches what lies below the sentinels. -/
theorem Steps.spared_below (steps : shape.Steps request reply later events) (sound : shape.Sound)
    (below : index + 16 < shape.start) : shape.Spared later request index := by
  have start : later.start = shape.start := steps.same_setting.start
  refine ⟨.inl below, .inl (by omega), ?_⟩
  rintro info member - ⟨lower, -⟩
  have above := sound.layout.tiles.start_le_of_mem member
  omega

end Shape

namespace Client

variable {client next opened first last : Client} {shape later : Shape} {region : Region}
  {policy : Policy} {request : Request} {reply : Reply} {requests : List Request}
  {replies : List Reply} {events : List Event} {handle : Handle} {place : Nat}

/-- The heap of the client has left the region that it was built in as it was, and is made up of the
sentinels and of blocks behind it. -/
structure ConfinedTo (client : Client) (region : Region) : Prop where
  below : ∀ index < region.size, client.heap.region.byte index = region.byte index
  behind : ∀ handle ∈ client.handles, region.size + 16 ≤ handle.offset
  filled : ∃ blocks, client.heap.blocks = .ok blocks ∧
    client.heap.region.size = region.size + 16 + sizeSum blocks

theorem Tracks.start_le (tracks : client.Tracks shape) (held : handle ∈ client.handles) :
    shape.start ≤ handle.offset := by
  obtain ⟨size, present⟩ := tracks.present_of_mem held
  exact Shape.start_le_of_present tracks.valid.sound present

theorem Tracks.confined (tracks : client.Tracks shape) (start : shape.start = region.size + 16)
    (below : ∀ index < region.size, client.heap.region.byte index = region.byte index) :
    client.ConfinedTo region where
  below := below
  behind := fun handle held => start ▸ tracks.start_le held
  filled := by
    have sound := tracks.valid.sound
    have size : client.heap.region.size = shape.stop := tracks.shows.lays.size
    refine ⟨shape.blocks, tracks.shows.blocks_eq sound, ?_⟩
    rw [size, sound.layout.tiles.stop_eq, start]

/-- A handle that is answered is that of a block behind the sentinels. -/
theorem Tracks.start_le_of_answered (tracks : client.Tracks shape)
    (steps : shape.Steps request (.ok (some handle)) later events) :
    shape.start ≤ handle.offset := by
  obtain ⟨size, present, -⟩ := (steps.settles tracks.valid tracks.tuned).answers
  have start : later.start = shape.start := steps.same_setting.start
  rw [← start]
  exact Shape.start_le_of_present (steps.valid_later tracks.valid tracks.tuned).sound present

/-- What a run keeps of the bytes below its heap, and where the handles that it answers lie. -/
theorem Runs.keeps_below (runs : Runs first requests replies last) (tracks : first.Tracks shape)
    (start : shape.start = place + 16) :
    (∃ later, last.Tracks later ∧ later.start = place + 16) ∧
      (∀ index < place, last.heap.region.byte index = first.heap.region.byte index) ∧
      ∀ handle, .ok (some handle) ∈ replies → place + 16 ≤ handle.offset := by
  induction runs generalizing shape with
  | nil => exact ⟨⟨shape, tracks, start⟩, fun _ _ => rfl, nofun⟩
  | cons permitted performed rest inductionHypothesis =>
      obtain ⟨middle, events, steps, middleTracks, leads⟩ := tracks.step permitted performed
      have middleStart : middle.start = place + 16 := steps.same_setting.start.trans start
      obtain ⟨ends, below, answered⟩ := inductionHypothesis middleTracks middleStart
      refine ⟨ends, fun index isBelow => ?_, fun handle isAnswer => ?_⟩
      · rw [below index isBelow]
        exact leads.bytes index (steps.spared_below tracks.valid.sound (by omega))
      · rcases List.mem_cons.1 isAnswer with rfl | isLater
        · exact start ▸ tracks.start_le_of_answered steps
        · exact answered handle isLater

theorem Opens.byte_below (opens : Opens region policy opened) {index : Nat}
    (below : index < region.size) : opened.heap.region.byte index = region.byte index := by
  obtain ⟨shape, events, founds, -⟩ := opens.founds
  obtain ⟨after, ran, -, -, same⟩ := founds.run
  cases opens.1.symm.trans ran
  exact same index below

/-- Building a heap keeps the region and adds to it, whether it succeeds or not. -/
theorem create_keeps (region : Region) (policy : Policy) : ∃ reply built,
    (Heap.create policy).run (Heap.blank region policy) = .ok reply built ∧
      region.size ≤ built.region.size ∧
      ∀ index < region.size, built.region.byte index = region.byte index := by
  rcases Shape.founds_or_fails region policy with
    ⟨later, events, founds⟩ | ⟨failure, size, fails⟩
  · obtain ⟨after, ran, shows, -, same⟩ := founds.run
    have start : later.start = region.size + 16 := founds.later_facts.1
    have upTo := founds.valid_later.sound.layout.tiles.le
    have size : after.region.size = later.stop := shows.lays.size
    exact ⟨_, after, ran, by omega, same⟩
  · obtain ⟨after, ran, sizeIs, same⟩ := fails.run
    refine ⟨_, after, ran, ?_, same⟩
    rw [sizeIs]
    exact fails.size_le

/-- A heap keeps to its own part of the region. Building it adds to the region and changes nothing
in it, even if it fails. A heap that was built is confined to what was added after any run, and so
it is after whatever is requested next, when the region has not become smaller; no handle that was
answered on the way lies in front of the first block. -/
theorem confined_to_region (region : Region) (policy : Policy) :
    (∃ reply built, (Heap.create policy).run (Heap.blank region policy) = .ok reply built ∧
      region.size ≤ built.region.size ∧
      ∀ index < region.size, built.region.byte index = region.byte index) ∧
    ∀ opened requests replies client, Opens region policy opened →
      Runs opened requests replies client →
        client.ConfinedTo region ∧
        (∀ handle, .ok (some handle) ∈ replies → region.size + 16 ≤ handle.offset) ∧
        ∀ request, client.Permits request → ∃ reply next,
          client.perform request = .ok (reply, next) ∧
            client.heap.region.size ≤ next.heap.region.size ∧ next.ConfinedTo region ∧
            ∀ handle, reply = .ok (some handle) → region.size + 16 ≤ handle.offset := by
  refine ⟨create_keeps region policy, fun opened requests replies client opens runs => ?_⟩
  obtain ⟨first, openedTracks, start, -⟩ := opens.tracks
  obtain ⟨⟨shape, tracks, shapeStart⟩, kept, answered⟩ := runs.keeps_below openedTracks start
  have below : ∀ index < region.size, client.heap.region.byte index = region.byte index :=
    fun index isBelow => (kept index isBelow).trans (opens.byte_below isBelow)
  refine ⟨tracks.confined shapeStart below, answered, fun request permitted => ?_⟩
  obtain ⟨reply, next, later, events, steps, performed, nextTracks, leads⟩ :=
    tracks.perform permitted
  have laterStart : later.start = region.size + 16 := steps.same_setting.start.trans shapeStart
  refine ⟨reply, next, performed, ?_, nextTracks.confined laterStart fun index isBelow => ?_, ?_⟩
  · have size : client.heap.region.size = shape.stop := tracks.shows.lays.size
    have nextSize : next.heap.region.size = later.stop := nextTracks.shows.lays.size
    rw [size, nextSize]
    exact steps.stop_le
  · rw [← below index isBelow]
    exact leads.bytes index (steps.spared_below tracks.valid.sound (by omega))
  · rintro handle rfl
    exact shapeStart ▸ tracks.start_le_of_answered steps

/-- The region of a heap that had two payloads, at the end of which another heap is built. -/
theorem confined_of_replays : ∃ earlier client,
    replay (.ofLimit 512) ⟨16, 8, 16, 2⟩ [.allocate 1, .allocate 2] = some earlier ∧
      replay earlier.heap.region ⟨32, 8, 16, 2⟩ [.allocate 9, .release (some ⟨64⟩)] =
        some client ∧
      client.ConfinedTo earlier.heap.region ∧
      ∃ reply next, client.perform (.allocate 40) = .ok (reply, next) ∧
        next.ConfinedTo earlier.heap.region := by
  have played : (replay (.ofLimit 512) ⟨16, 8, 16, 2⟩ [.allocate 1, .allocate 2]).any
      (fun earlier => (replay earlier.heap.region ⟨32, 8, 16, 2⟩
        [.allocate 9, .release (some ⟨64⟩)]).isSome) = true := by
    decide +kernel
  obtain ⟨earlier, replayed, checked⟩ := (Option.any_eq_true _ _).1 played
  obtain ⟨client, replayedAgain⟩ := Option.isSome_iff_exists.1 checked
  obtain ⟨opened, replies, opens, runs⟩ := exists_runs_of_replay replayedAgain
  obtain ⟨confined, -, onwards⟩ :=
    (confined_to_region earlier.heap.region ⟨32, 8, 16, 2⟩).2 _ _ _ _ opens runs
  obtain ⟨reply, next, performed, -, nextConfined, -⟩ :=
    onwards _ (permits_allocate client 40)
  exact ⟨earlier, client, replayed, replayedAgain, confined, reply, next, performed, nextConfined⟩

end Client

end TaggedHeap
