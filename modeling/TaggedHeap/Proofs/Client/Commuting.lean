import TaggedHeap.Proofs.Client.Marks
import TaggedHeap.Proofs.Client.Releasing
import TaggedHeap.Proofs.Client.Replay
import TaggedHeap.Proofs.Heap.Survey
import TaggedHeap.Proofs.Shape.Melting

/-!
Contract: payloads that are released in different orders.

A release merges with what is free already, so on the way different orders lead to different blocks.
In the end they come to the same, as long as nothing is reserved: no free block lies next to
another, and then the payloads that are left determine all blocks.
-/

namespace TaggedHeap

/-- The lists of a heap hold the free ones of these blocks, each in its class. -/
def Heap.FilesFree (heap : Heap) (blocks : List BlockInfo) : Prop :=
  ∀ cls, ∃ members, heap.members cls = .ok members ∧ members.Perm
    ((blocks.filter fun info => !info.allocated && decide (SizeClass.ofSize info.size = cls)).map
      BlockInfo.handle)

namespace Shape

variable {shape later : Shape} {info : BlockInfo} {events : List Event}

theorem Valid.perm_lists (valid : shape.Valid) (cls : SizeClass) : (shape.lists cls).Perm
    (shape.blocks.filter fun info =>
      !info.allocated && decide (SizeClass.ofSize info.size = cls)) := by
  have sound := valid.sound
  refine (List.perm_ext_iff_of_nodup (sound.orderly.distinct cls)
    (sound.layout.tiles.nodup.filter _)).2 fun info => ?_
  rw [List.mem_filter, Bool.and_eq_true, Bool.not_eq_true', decide_eq_true_iff]
  constructor
  · intro listed
    exact ⟨sound.listed listed, sound.orderly.free listed, sound.orderly.classed listed⟩
  · rintro ⟨member, free, rfl⟩
    exact valid.complete info member free

/-- No block is reserved. -/
def Plain (shape : Shape) : Prop :=
  ∀ info ∈ shape.blocks, info.reserved = false

theorem Releases.plain_later (releases : shape.Releases info later events) (sound : shape.Sound)
    (plain : shape.Plain) : later.Plain := by
  intro other member
  refine Bool.eq_false_of_not_eq_true fun reserved => ?_
  obtain ⟨marked, wasMember, isReserved, -⟩ :=
    (releases.marked_of_later sound (.block member reserved)).exists_block
  rw [plain marked wasMember] at isReserved
  exact Bool.false_ne_true isReserved

/-- Where no block is reserved, the extents say all about the allocated blocks. -/
theorem Plain.mem_blocks_iff (plain : shape.Plain) (allocated : info.allocated = true) :
    info ∈ shape.blocks ↔
      info.reserved = false ∧ (info.handle, info.size) ∈ shape.extents := by
  constructor
  · intro member
    exact ⟨plain info member, present_of_allocated member allocated⟩
  · rintro ⟨unreserved, present⟩
    obtain ⟨block, member, blockAllocated, handle, size⟩ := mem_extents.1 present
    have same : block = info := by
      calc
        block = ⟨block.handle, block.size, block.allocated, block.reserved⟩ := rfl
        _ = ⟨info.handle, info.size, info.allocated, info.reserved⟩ := by
          rw [handle, size, allocated, blockAllocated, unreserved, plain block member]
        _ = info := rfl
    rwa [← same]

end Shape

namespace Client

variable {client : Client} {shape : Shape} {order gone : List Handle}
  {blocks remaining : List BlockInfo}

/-- Whatever the order, the released blocks melt with the free ones. -/
theorem Tracks.melts (tracks : client.Tracks shape) (plain : shape.Plain)
    (melted : Melted gone shape.blocks remaining) (sameHandles : order.Perm gone)
    (distinct : gone.Nodup) (live : gone ⊆ client.handles) :
    ∃ last, Runs client (order.map fun handle => .release (some handle))
        (order.map fun _ => .ok none) last ∧
      last.heap.blocks = .ok remaining ∧ last.heap.FilesFree remaining := by
  obtain ⟨last, later, runs, lastTracks, ⟨laterPlain, stop, setting⟩, extents⟩ :=
    tracks.release_each
      (fun later => later.Plain ∧ later.stop = shape.stop ∧ shape.SameSetting later)
      (fun releases valid _ ⟨plain, stop, setting⟩ => ⟨releases.plain_later valid.sound plain,
        releases.same_stop.trans stop, setting.trans releases.same_setting⟩)
      ⟨plain, rfl, .refl shape⟩ (sameHandles.nodup_iff.2 distinct)
      (fun handle isGone => live (sameHandles.subset isGone))
  have tiles := lastTracks.valid.sound.layout.tiles
  rw [setting.start, stop] at tiles
  have blocks : later.blocks = remaining := by
    refine tiles.eq_of_separated (melted.tiles tracks.valid.sound.layout.tiles)
      lastTracks.valid.separated melted.separated laterPlain (melted.unreserved plain) ?_
    intro info allocated
    rw [melted.mem_iff allocated, laterPlain.mem_blocks_iff allocated, extents,
      plain.mem_blocks_iff allocated, sameHandles.mem_iff, and_assoc]
  have sound := lastTracks.valid.sound
  refine ⟨last, runs, ?_, fun cls => ⟨_, lastTracks.shows.members_eq sound cls, ?_⟩⟩
  · rw [lastTracks.shows.blocks_eq sound, blocks]
  · rw [← blocks]
    exact (lastTracks.valid.perm_lists cls).map _

/-- In every reachable state without a reserved block, releasing some live handles comes to the same
in every order: every longest stretch of released and free blocks has become one free block, which
is on the list of its class. -/
theorem releases_commute (reachable : Reachable client)
    (shown : client.heap.blocks = .ok blocks)
    (unreserved : ∀ info ∈ blocks, info.reserved = false) (distinct : gone.Nodup)
    (live : gone ⊆ client.handles) :
    ∃ remaining, Melted gone blocks remaining ∧ ∀ order : List Handle, order.Perm gone →
      ∃ last, Runs client (order.map fun handle => .release (some handle))
          (order.map fun _ => .ok none) last ∧
        last.heap.blocks = .ok remaining ∧ last.heap.FilesFree remaining := by
  obtain ⟨shape, tracks⟩ := reachable.tracks
  cases shown.symm.trans (tracks.shows.blocks_eq tracks.valid.sound)
  obtain ⟨remaining, melted⟩ := exists_melted gone shape.blocks
  exact ⟨remaining, melted, fun order sameHandles =>
    tracks.melts unreserved melted sameHandles distinct live⟩

/-- Two payloads with a free block between them and one of another payload behind them. -/
theorem releases_commute_of_replay : ∃ client remaining,
    replay (.ofLimit 512) ⟨128, 8, 16, 2⟩ [.allocate 1, .allocate 1, .allocate 1, .allocate 1,
        .release (some ⟨32⟩)] = some client ∧
      Melted [⟨16⟩, ⟨48⟩] [⟨⟨16⟩, 16, true, false⟩, ⟨⟨32⟩, 16, false, false⟩,
        ⟨⟨48⟩, 16, true, false⟩, ⟨⟨64⟩, 16, true, false⟩, ⟨⟨80⟩, 64, false, false⟩] remaining ∧
      ∀ order : List Handle, order.Perm [⟨16⟩, ⟨48⟩] →
        ∃ last, Runs client (order.map fun handle => .release (some handle))
            (order.map fun _ => .ok none) last ∧
          last.heap.blocks = .ok remaining ∧ last.heap.FilesFree remaining := by
  have played : (replay (.ofLimit 512) ⟨128, 8, 16, 2⟩ [.allocate 1, .allocate 1, .allocate 1,
      .allocate 1, .release (some ⟨32⟩)]).any (fun client =>
        [⟨16⟩, ⟨48⟩] ⊆ client.handles ∧ client.heap.blocks = .ok
          [⟨⟨16⟩, 16, true, false⟩, ⟨⟨32⟩, 16, false, false⟩, ⟨⟨48⟩, 16, true, false⟩,
            ⟨⟨64⟩, 16, true, false⟩, ⟨⟨80⟩, 64, false, false⟩]) = true := by
    decide +kernel
  obtain ⟨client, replayed, checked⟩ := (Option.any_eq_true _ _).1 played
  obtain ⟨live, shown⟩ := of_decide_eq_true checked
  obtain ⟨remaining, melted, commutes⟩ := releases_commute (reachable_of_replay replayed) shown
    (by decide) (by decide) live
  exact ⟨client, remaining, replayed, melted, commutes⟩

end Client

end TaggedHeap
