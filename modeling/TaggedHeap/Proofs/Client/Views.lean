import Mathlib.Algebra.GroupWithZero.Nat
import TaggedHeap.Proofs.Client.Invariant
import TaggedHeap.Proofs.Client.Replay
import TaggedHeap.Proofs.Heap.Description

/-!
Contract: the views of a heap agree in every reachable state.

One view walks the chain of blocks, another the links of the lists, a third counts and a
fourth prints. The main statement is that they show one and the same heap, whatever the
client has asked for and however large the region was when the heap was made.
-/

namespace TaggedHeap

/-- What the views of a heap show. -/
structure Views where
  blocks : List BlockInfo
  members : SizeClass → List Handle
  occupancy : Occupancy
  text : String

namespace Views

def allocated (views : Views) : List BlockInfo :=
  views.blocks.filter fun info => info.allocated

def free (views : Views) : List BlockInfo :=
  views.blocks.filter fun info => !info.allocated

/-- The members of all size classes, one class behind the other. -/
def filed (views : Views) : List Handle :=
  (List.finRange 20).flatMap views.members

end Views

/-- No view of the heap faults, and this is what they show. -/
structure Heap.Presents (heap : Heap) (views : Views) : Prop where
  blocks : heap.blocks = .ok views.blocks
  members : ∀ cls, heap.members cls = .ok (views.members cls)
  occupancy : heap.occupancy = .ok views.occupancy
  text : heap.describe = .ok views.text

/-- The views show one and the same heap. -/
structure Heap.Consistent (heap : Heap) (views : Views) : Prop where
  /-- The first block begins behind the prologue, each where the one in front of it ends, and
  the last ends where the region does. -/
  tiles : Tiles (heap.prologue.offset + 8) views.blocks heap.region.size
  filed : views.filed.Perm (views.free.map BlockInfo.handle)
  once : views.filed.Nodup
  classed : ∀ cls handle, handle ∈ views.members cls ↔
    ∃ info ∈ views.free, info.handle = handle ∧ SizeClass.ofSize info.size = cls
  counted : views.occupancy = {
    regionBytes := heap.region.size
    allocatedBlocks := views.allocated.length
    allocatedBytes := sizeSum views.allocated
    freeBlocks := views.free.length
    freeBytes := sizeSum views.free }
  balance : views.occupancy.allocatedBytes + views.occupancy.freeBytes +
    heap.prologue.offset + 8 = views.occupancy.regionBytes
  /-- A line for each block, and the lengths of the lists, which add up to the free blocks. -/
  printed : ∃ lines lists,
    Heap.Prints views.text views.blocks (fun cls => (views.members cls).length) lines lists ∧
      lines.length = views.blocks.length ∧
      ((readCounts lists).map Prod.snd).sum = views.occupancy.freeBlocks

/-! ## Counting -/

theorem foldl_add (blocks : List BlockInfo) (occupancy : Occupancy) :
    blocks.foldl Occupancy.add occupancy = {
      regionBytes := occupancy.regionBytes
      allocatedBlocks := occupancy.allocatedBlocks +
        (blocks.filter fun info => info.allocated).length
      allocatedBytes := occupancy.allocatedBytes +
        sizeSum (blocks.filter fun info => info.allocated)
      freeBlocks := occupancy.freeBlocks + (blocks.filter fun info => !info.allocated).length
      freeBytes := occupancy.freeBytes +
        sizeSum (blocks.filter fun info => !info.allocated) } := by
  induction blocks generalizing occupancy with
  | nil => rfl
  | cons info rest inductionHypothesis =>
      rw [List.foldl_cons, inductionHypothesis]
      cases allocated : info.allocated with
      | true =>
          rw [List.filter_cons_of_pos (by exact allocated),
            List.filter_cons_of_neg (by simp [allocated]), Occupancy.add, if_pos allocated,
            List.length_cons, sizeSum_cons]
          simp only [Occupancy.mk.injEq, true_and, and_true]
          omega
      | false =>
          rw [List.filter_cons_of_neg (by simp [allocated]),
            List.filter_cons_of_pos (by simp [allocated]), Occupancy.add,
            if_neg (by simp [allocated]), List.length_cons, sizeSum_cons]
          simp only [Occupancy.mk.injEq, true_and]
          omega

theorem sizeSum_filter_add (blocks : List BlockInfo) :
    sizeSum (blocks.filter fun info => info.allocated) +
      sizeSum (blocks.filter fun info => !info.allocated) = sizeSum blocks := by
  induction blocks with
  | nil => rfl
  | cons info rest inductionHypothesis =>
      cases allocated : info.allocated <;>
        simp only [List.filter_cons, allocated, Bool.not_true, Bool.not_false, Bool.false_eq_true,
          ↓reduceIte, sizeSum_cons] <;>
        omega

/-- Classes without members add nothing. -/
theorem sum_filter_ne_zero {α : Type} (items : List α) (count : α → Nat) :
    ((items.filter fun item => count item ≠ 0).map count).sum = (items.map count).sum := by
  induction items with
  | nil => rfl
  | cons item rest inductionHypothesis =>
      by_cases zero : count item = 0
      · rw [List.filter_cons_of_neg (by simp [zero]), inductionHypothesis, List.map_cons,
          List.sum_cons, zero, Nat.zero_add]
      · rw [List.filter_cons_of_pos (by simp [zero]), List.map_cons, List.map_cons,
          List.sum_cons, List.sum_cons, inductionHypothesis]

namespace Shape

variable {shape : Shape} {heap : Heap}

/-! ## Lists -/

/-- The lists hold every free block once. -/
theorem lists_perm (valid : shape.Valid) : ((List.finRange 20).flatMap shape.lists).Perm
    (shape.blocks.filter fun info => !info.allocated) := by
  have orderly := valid.sound.orderly
  have disjoint : ∀ {cls other : SizeClass}, cls ≠ other →
      (shape.lists cls).Disjoint (shape.lists other) := by
    intro cls other differs info inFirst inSecond
    exact differs ((orderly.classed inFirst).symm.trans (orderly.classed inSecond))
  have distinct : ((List.finRange 20).flatMap shape.lists).Nodup :=
    List.nodup_flatMap.2 ⟨fun cls _ => orderly.distinct cls,
      (List.nodup_finRange 20).imp disjoint⟩
  refine (List.perm_ext_iff_of_nodup distinct
    (valid.sound.layout.tiles.nodup.filter _)).2 fun info => ?_
  rw [List.mem_flatMap, List.mem_filter, Bool.not_eq_true']
  constructor
  · rintro ⟨cls, -, member⟩
    exact ⟨valid.sound.listed member, orderly.free member⟩
  · rintro ⟨member, free⟩
    exact ⟨info.cls, List.mem_finRange _, valid.complete info member free⟩

theorem block_handles_nodup (sound : shape.Sound) : (shape.blocks.map BlockInfo.handle).Nodup := by
  have offsets := sound.layout.tiles.offsets_nodup
  rw [show shape.blocks.map BlockInfo.offset =
    (shape.blocks.map BlockInfo.handle).map Handle.offset by rw [List.map_map]; rfl] at offsets
  exact offsets.of_map _

/-- What the views show of a heap with this shape. -/
def views (shape : Shape) (heap : Heap) : Views where
  blocks := shape.blocks
  members cls := (shape.lists cls).map BlockInfo.handle
  occupancy := shape.blocks.foldl Occupancy.add ⟨heap.region.size, 0, 0, 0, 0⟩
  text := s!"heap [0, {heap.region.size}) prologue at {heap.prologue.offset}\n" ++
    String.join (shape.blocks.map Heap.describeBlock) ++ "buckets:" ++
    String.join ((List.finRange 20).map fun cls =>
      Heap.describeClass cls (shape.lists cls).length) ++ "\n"

theorem presents (shows : heap.Shows shape) (sound : shape.Sound) :
    heap.Presents (shape.views heap) where
  blocks := shows.blocks_eq sound
  members := shows.members_eq sound
  occupancy := shows.occupancy_eq sound
  text := shows.describe_eq sound

theorem filed_perm (valid : shape.Valid) : (shape.views heap).filed.Perm
    ((shape.views heap).free.map BlockInfo.handle) := by
  have filed : (shape.views heap).filed =
      ((List.finRange 20).flatMap shape.lists).map BlockInfo.handle :=
    (List.map_flatMap ..).symm
  rw [filed]
  exact (lists_perm valid).map _

theorem sum_lengths (valid : shape.Valid) :
    ((List.finRange 20).map fun cls => (shape.lists cls).length).sum =
      (shape.blocks.filter fun info => !info.allocated).length := by
  rw [← (lists_perm valid).length_eq, List.length_flatMap]

/-- The text has a line for each block, and the lengths in its last line add up. -/
theorem printed (valid : shape.Valid) : ∃ lines lists,
    Heap.Prints (shape.views heap).text (shape.views heap).blocks
        (fun cls => ((shape.views heap).members cls).length) lines lists ∧
      lines.length = (shape.views heap).blocks.length ∧
      ((readCounts lists).map Prod.snd).sum = (shape.views heap).occupancy.freeBlocks := by
  obtain ⟨lines, lists, prints⟩ := Heap.prints _ (Heap.newline_notMem_heading heap)
    shape.blocks fun cls => ((shape.views heap).members cls).length
  have lengths : ∀ cls, ((shape.views heap).members cls).length = (shape.lists cls).length :=
    fun _ => List.length_map _
  refine ⟨lines, lists, ?_, ?_, ?_⟩
  · simp only [lengths] at prints ⊢
    exact prints
  · have same := congrArg List.length prints.lines
    rwa [List.length_map, List.length_map] at same
  · have total := sum_filter_ne_zero (List.finRange 20)
      fun cls => ((shape.views heap).members cls).length
    have occupied : (shape.views heap).occupancy.freeBlocks =
        (shape.blocks.filter fun info => !info.allocated).length := by
      rw [views, foldl_add]
      exact Nat.zero_add _
    rw [prints.counts, List.map_map, occupied, ← sum_lengths valid]
    simp only [lengths] at total ⊢
    exact total

theorem consistent (shows : heap.Shows shape) (valid : shape.Valid) :
    heap.Consistent (shape.views heap) := by
  have sound := valid.sound
  have start : heap.prologue.offset + 8 = shape.start := shows.prologue
  have size : heap.region.size = shape.stop := shows.lays.size
  have counted := foldl_add shape.blocks ⟨heap.region.size, 0, 0, 0, 0⟩
  simp only [Nat.zero_add] at counted
  refine ⟨?_, filed_perm valid, ?_, ?_, counted, ?_, ?_⟩
  · rw [start, size]
    exact sound.layout.tiles
  · rw [(filed_perm valid).nodup_iff]
    exact (block_handles_nodup sound).sublist (List.filter_sublist.map _)
  · intro cls handle
    simp only [views, Views.free, List.mem_map, List.mem_filter, Bool.not_eq_true']
    constructor
    · rintro ⟨info, member, same⟩
      exact ⟨info, ⟨sound.listed member, sound.orderly.free member⟩, same,
        sound.orderly.classed member⟩
    · rintro ⟨info, ⟨member, free⟩, same, rfl⟩
      exact ⟨info, valid.complete info member free, same⟩
  · have covered := sound.layout.tiles.stop_eq
    have split := sizeSum_filter_add shape.blocks
    simp only [views, counted]
    omega
  · exact printed valid

end Shape

namespace Client

variable {client : Client}

/-- In every reachable state the views of the heap answer, and they agree. -/
theorem views_of_reachable (reachable : Reachable client) :
    ∃ views, client.heap.Presents views ∧ client.heap.Consistent views := by
  obtain ⟨shape, tracks⟩ := reachable.tracks
  exact ⟨shape.views client.heap, Shape.presents tracks.shows tracks.valid.sound,
    Shape.consistent tracks.shows tracks.valid⟩

/-- In front of this heap lie three words that are not its own, so that its overhead is more
than the two words at its start and the two at its end. -/
theorem views_of_replay : ∃ client,
    replay ((Region.ofLimit 512).enlarge 24 rfl (by decide)) ⟨16, 8, 16, 2⟩ [.allocate 1,
        .allocate 40, .allocate 2, .release (some ⟨40⟩)] = some client ∧
      client.heap.prologue.offset = 32 ∧
      ∃ views, client.heap.Presents views ∧ client.heap.Consistent views := by
  have played : (replay ((Region.ofLimit 512).enlarge 24 rfl (by decide)) ⟨16, 8, 16, 2⟩
      [.allocate 1, .allocate 40, .allocate 2, .release (some ⟨40⟩)]).any
        (fun client => client.heap.prologue.offset = 32) = true := by
    decide +kernel
  obtain ⟨client, replayed, checked⟩ := (Option.any_eq_true _ _).1 played
  exact ⟨client, replayed, of_decide_eq_true checked,
    views_of_reachable (reachable_of_replay replayed)⟩

end Client

end TaggedHeap
