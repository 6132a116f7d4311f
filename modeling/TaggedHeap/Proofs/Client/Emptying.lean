import TaggedHeap.Proofs.Client.Marks
import TaggedHeap.Proofs.Client.Releasing
import TaggedHeap.Proofs.Client.Replay
import TaggedHeap.Proofs.Heap.Stop

/-!
Contract: heaps without payloads.

A mark needs an allocated block in front of it, and two free blocks are neighbours only behind a
mark. So once the last payload is released, in whatever order that was done, all of the heap is one
free block. The heap always has room for one, since it never becomes smaller than it was when it was
built.
-/

namespace TaggedHeap

/-- All that lies between the sentinels is the free block `info`, and it is on its list. -/
structure Heap.Collapsed (heap : Heap) (info : BlockInfo) : Prop where
  begins : info.handle.offset = heap.prologue.offset + 8
  ends : info.handle.offset + info.size = heap.region.size
  free : info.allocated = false
  unreserved : info.reserved = false
  blocks : heap.blocks = .ok [info]
  members : ∀ cls, heap.members cls =
    .ok (if cls = SizeClass.ofSize info.size then [info.handle] else [])

namespace Shape

variable {shape later : Shape} {info : BlockInfo} {request : Request} {reply : Reply} {bytes : Nat}
  {events : List Event}

/-! ## Room -/

/-- There is room between the sentinels, and marks are anchored. -/
structure Settled (shape : Shape) : Prop where
  room : shape.start < shape.stop
  anchored : shape.Anchored

theorem Founds.settled {region : Region} {policy : Policy}
    (founds : Founds region policy later events) : later.Settled where
  anchored := founds.anchored
  room := by
    obtain ⟨sane, room, grows⟩ := founds
    obtain ⟨wide, -⟩ := growth_sized policy.initialGrowth
    have start : later.start = region.size + 16 := grows.same_setting.start
    have stop : later.stop = region.size + 16 + growth policy.initialGrowth := grows.stop_later
    omega

theorem Steps.settled_later (steps : shape.Steps request reply later events) (valid : shape.Valid)
    (tuned : shape.policy.resizeSlack % 8 = 0) (settled : shape.Settled) : later.Settled where
  anchored := steps.anchored_later valid tuned settled.anchored
  room := by
    have room := settled.room
    have start : later.start = shape.start := steps.same_setting.start
    have stop := steps.stop_le
    omega

theorem Releases.settled_later (releases : shape.Releases info later events)
    (sound : shape.Sound) (allocated : info.allocated = true) (settled : shape.Settled) :
    later.Settled where
  anchored := releases.anchored_later sound settled.anchored allocated
  room := by
    have room := settled.room
    have start : later.start = shape.start := releases.same_setting.start
    have stop := releases.same_stop
    omega

/-! ## Shapes without payloads -/

section Vacant

variable (valid : shape.Valid) (settled : shape.Settled) (vacant : shape.extents = [])

include vacant

theorem allFree_of_vacant : AllFree shape.blocks := by
  intro info member
  refine Bool.eq_false_of_not_eq_true fun allocated => ?_
  have present := present_of_allocated member allocated
  rw [vacant] at present
  exact absurd present List.not_mem_nil

include settled

theorem unreserved_of_vacant (member : info ∈ shape.blocks) : info.reserved = false := by
  refine Bool.eq_false_of_not_eq_true fun reserved => ?_
  obtain ⟨anchor, anchorMember, allocated, -⟩ :=
    settled.anchored.exists_anchor (.block member reserved)
  rw [allFree_of_vacant vacant anchor anchorMember] at allocated
  exact absurd allocated Bool.false_ne_true

include valid

/-- There is one block, since neighbours would need a mark between them. -/
theorem exists_whole : ∃ info, shape.blocks = [info] := by
  have free := allFree_of_vacant vacant
  cases blocks : shape.blocks with
  | nil =>
      have tiles := valid.sound.layout.tiles
      have room := settled.room
      rw [blocks] at tiles
      have empty : shape.start = shape.stop := tiles
      omega
  | cons first rest =>
      cases rest with
      | nil => exact ⟨first, rfl⟩
      | cons second rest =>
          have firstMember : first ∈ shape.blocks := by simp [blocks]
          have secondMember : second ∈ shape.blocks := by simp [blocks]
          have split : shape.blocks = [] ++ first :: second :: rest := blocks
          have reserved := valid.reserved_of_neighbours split (free first firstMember)
            (free second secondMember)
          rw [unreserved_of_vacant settled vacant firstMember] at reserved
          exact absurd reserved Bool.false_ne_true

omit settled in
/-- The only block is the only member of its list, and of any list. -/
theorem lists_of_whole (blocks : shape.blocks = [info]) (cls : SizeClass) :
    shape.lists cls = if cls = info.cls then [info] else [] := by
  have isWhole : ∀ other ∈ shape.lists cls, other = info := by
    intro other listed
    have member := valid.sound.listed listed
    rwa [blocks, List.mem_singleton] at member
  have member : info ∈ shape.blocks := by simp [blocks]
  split
  · rename_i own
    subst own
    have listed := valid.complete info member (allFree_of_vacant vacant info member)
    have distinct := valid.sound.orderly.distinct info.cls
    exact List.perm_singleton.1 ((List.perm_ext_iff_of_nodup distinct (List.nodup_singleton _)).2
      fun other => ⟨fun isOther => by simp [isWhole other isOther], fun isInfo => by
        rwa [List.mem_singleton.1 isInfo]⟩)
  · rename_i foreign
    refine List.eq_nil_iff_forall_not_mem.2 fun other listed => foreign ?_
    rw [← valid.sound.orderly.classed listed, isWhole other listed]

end Vacant

end Shape

namespace Client

variable {client : Client} {shape : Shape} {order : List Handle}

theorem Tracks.collapsed (tracks : client.Tracks shape) (settled : shape.Settled)
    (vacant : shape.extents = []) : ∃ info, client.heap.Collapsed info := by
  have valid := tracks.valid
  have sound := valid.sound
  have tiles := sound.layout.tiles
  have place := tracks.shows.prologue
  have size : client.heap.region.size = shape.stop := tracks.shows.lays.size
  obtain ⟨info, blocks⟩ := Shape.exists_whole valid settled vacant
  have member : info ∈ shape.blocks := by simp [blocks]
  rw [blocks] at tiles
  obtain ⟨first, -, last⟩ := tiles
  have ends : shape.start + info.size = shape.stop := last
  refine ⟨info, ?_, ?_, Shape.allFree_of_vacant vacant info member,
    Shape.unreserved_of_vacant settled vacant member, ?_, fun cls => ?_⟩
  · change info.offset = _
    omega
  · change info.offset + info.size = _
    omega
  · rw [tracks.shows.blocks_eq sound, blocks]
  · rw [tracks.shows.members_eq sound, Shape.lists_of_whole valid vacant blocks,
      apply_ite (List.map BlockInfo.handle)]
    rfl

/-- The live handles can be released in any order. -/
theorem Tracks.release_all (tracks : client.Tracks shape) (settled : shape.Settled)
    (all : order.Perm client.handles) :
    ∃ last later, Runs client (order.map fun handle => .release (some handle))
        (order.map fun _ => .ok none) last ∧
      last.Tracks later ∧ later.Settled ∧ later.stop = shape.stop ∧ last.handles = [] := by
  have sound := tracks.valid.sound
  have distinct : order.Nodup :=
    (all.trans tracks.matched).nodup_iff.2 (Shape.handles_nodup sound)
  obtain ⟨last, later, runs, lastTracks, ⟨lastSettled, stop⟩, extents⟩ :=
    tracks.release_each (fun later => later.Settled ∧ later.stop = shape.stop)
      (fun releases valid allocated ⟨settled, stop⟩ =>
        ⟨releases.settled_later valid.sound allocated settled, releases.same_stop.trans stop⟩)
      ⟨settled, rfl⟩ distinct all.subset
  refine ⟨last, later, runs, lastTracks, lastSettled, stop, ?_⟩
  refine List.eq_nil_iff_forall_not_mem.2 fun handle held => ?_
  obtain ⟨size, present⟩ := lastTracks.present_of_mem held
  obtain ⟨wasPresent, spared⟩ := (extents _).1 present
  exact spared (all.symm.subset (tracks.mem_of_present wasPresent))

/-- In every reachable state all live handles can be released, in any order. Then no lease is left,
the heap ends where it did, and all of it is one free block. -/
theorem collapses_of_reachable (reachable : Reachable client) (all : order.Perm client.handles) :
    ∃ last info, Runs client (order.map fun handle => .release (some handle))
        (order.map fun _ => .ok none) last ∧
      last.leases = [] ∧ last.heap.region.size = client.heap.region.size ∧
      last.heap.Collapsed info := by
  obtain ⟨shape, tracks, settled⟩ :=
    reachable.maintains Shape.Steps.settled_later Shape.Founds.settled
  obtain ⟨last, later, runs, lastTracks, lastSettled, stop, noHandles⟩ :=
    tracks.release_all settled all
  have noLeases : last.leases = [] := List.map_eq_nil_iff.1 noHandles
  have vacant : later.extents = [] := by
    have matched := lastTracks.matched
    rw [noHandles] at matched
    exact List.map_eq_nil_iff.1 matched.nil_eq.symm
  obtain ⟨info, collapsed⟩ := lastTracks.collapsed lastSettled vacant
  have size : client.heap.region.size = shape.stop := tracks.shows.lays.size
  have lastSize : last.heap.region.size = later.stop := lastTracks.shows.lays.size
  exact ⟨last, info, runs, noLeases, by omega, collapsed⟩

/-- A payload behind a free block that is kept for the payload in front of it is released first. -/
theorem collapses_of_replay : ∃ client last info,
    replay (.ofLimit 512) ⟨16, 8, 16, 2⟩ [.allocate 1, .allocate 1, .resize (some ⟨16⟩) 1,
        .allocate 1, .release (some ⟨32⟩)] = some client ∧
      client.heap.blocks = .ok [⟨⟨16⟩, 16, true, false⟩, ⟨⟨32⟩, 16, false, true⟩,
        ⟨⟨48⟩, 16, true, false⟩] ∧
      Runs client [.release (some ⟨48⟩), .release (some ⟨16⟩)] [.ok none, .ok none] last ∧
      last.leases = [] ∧ last.heap.region.size = client.heap.region.size ∧
      last.heap.Collapsed info := by
  have played : (replay (.ofLimit 512) ⟨16, 8, 16, 2⟩ [.allocate 1, .allocate 1,
      .resize (some ⟨16⟩) 1, .allocate 1, .release (some ⟨32⟩)]).any (fun client =>
        client.handles.Perm [⟨48⟩, ⟨16⟩] ∧ client.heap.blocks = .ok
          [⟨⟨16⟩, 16, true, false⟩, ⟨⟨32⟩, 16, false, true⟩, ⟨⟨48⟩, 16, true, false⟩]) = true := by
    decide +kernel
  obtain ⟨client, replayed, checked⟩ := (Option.any_eq_true _ _).1 played
  obtain ⟨held, shown⟩ := of_decide_eq_true checked
  obtain ⟨last, info, runs, noLeases, size, collapsed⟩ :=
    collapses_of_reachable (reachable_of_replay replayed) held.symm
  exact ⟨client, last, info, replayed, shown, runs, noLeases, size, collapsed⟩

end Client

end TaggedHeap
