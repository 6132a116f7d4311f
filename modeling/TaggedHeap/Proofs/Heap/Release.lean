import TaggedHeap.Proofs.Heap.Allocate
import TaggedHeap.Proofs.Shape.Mark

/-!
Contract: release in terms of shapes.

The block becomes free and keeps its mark, the block behind it loses its mark, and the freed
block is filed and merged. `Shape.released` is the shape before merging.
-/

namespace TaggedHeap

def BlockInfo.freed (info : BlockInfo) : BlockInfo :=
  { info with size := info.size, allocated := false }

namespace Shape

variable {shape : Shape} {info : BlockInfo} {front back : List BlockInfo}

/-- The shape with a block freed that is not listed yet. -/
def freed (shape : Shape) (front : List BlockInfo) (info : BlockInfo) (back : List BlockInfo) :
    Shape :=
  (shape.withBlocks (front ++ info.freed :: back)).marked (info.offset + info.size) false

/-- The shape with a block freed and listed. -/
def released (shape : Shape) (front : List BlockInfo) (info : BlockInfo)
    (back : List BlockInfo) : Shape :=
  (shape.freed front info back).filed info.freed

/-- The blocks behind a freed block, the first of which loses its mark. -/
def unmarked (info : BlockInfo) (back : List BlockInfo) : List BlockInfo :=
  back.map (BlockInfo.marked (info.offset + info.size) false)

section Releasing

variable (sound : shape.Sound) (split : shape.blocks = front ++ info :: back)
  (allocated : info.allocated = true)

include sound split

theorem tiles_freed : Tiles info.offset [info.freed] (info.offset + info.size) := by
  have member : info ∈ shape.blocks := by simp [split]
  have sized := sound.layout.tiles.sized_of_mem member
  exact ⟨rfl, ⟨sized.wide, sized.grained⟩, rfl⟩

theorem blocks_freed : (shape.freed front info back).blocks =
    front ++ info.freed :: unmarked info back := by
  have tiles := sound.layout.tiles
  rw [split] at tiles
  obtain ⟨inFront, sized, -⟩ := tiles.middle
  have inFrontFreed : Tiles shape.start (front ++ [info.freed]) (info.offset + info.size) :=
    Tiles.of_middle inFront ⟨sized.wide, sized.grained⟩ rfl
  have cut : (shape.withBlocks (front ++ info.freed :: back)).blocks =
      (front ++ [info.freed]) ++ back := List.append_cons ..
  have blocks := marked_blocks_split cut inFrontFreed false
  rw [← List.append_cons] at blocks
  exact blocks

theorem mem_freed : info.freed ∈ (shape.freed front info back).blocks := by
  rw [blocks_freed sound split]
  simp

include allocated

theorem gap_freed : shape.Gap front [info] back info.offset (info.offset + info.size) := by
  apply sound.gap split
  intro member inGap
  rw [List.mem_singleton.1 inGap]
  exact sound.unlisted_of_allocated allocated

theorem sound_freed : (shape.freed front info back).Sound :=
  ((gap_freed sound split allocated).sound_withBlocks sound (tiles_freed sound split)).marked _ _

theorem unlisted_freed : (shape.freed front info back).Unlisted info.freed := by
  intro cls listed
  obtain ⟨member, inList, same⟩ := FreeLists.mem_marked.1 listed
  have inBlocks := sound.listed inList
  have sameOffset := congrArg BlockInfo.offset same
  rw [BlockInfo.offset_marked] at sameOffset
  have infoMember : info ∈ shape.blocks := by simp [split]
  have isInfo := sound.layout.tiles.eq_of_offset inBlocks infoMember sameOffset
  rw [isInfo] at inList
  exact sound.unlisted_of_allocated allocated cls inList

theorem sound_released : (shape.released front info back).Sound :=
  (sound_freed sound split allocated).filed (mem_freed sound split) rfl
    (unlisted_freed sound split allocated)

omit allocated in
theorem complete_released (complete : shape.Complete) :
    (shape.released front info back).Complete := by
  have wide := sound.wide (show info ∈ shape.blocks by simp [split])
  have kept : ∀ member ∈ shape.blocks, member.allocated = false →
      member.marked (info.offset + info.size) false ∈
        (shape.freed front info back).lists member.cls :=
    fun member inBlocks free =>
      FreeLists.mem_marked.2 ⟨member, complete member inBlocks free, rfl⟩
  intro member inBlocks free
  obtain ⟨original, inOriginal, rfl⟩ := List.mem_map.1 inBlocks
  rw [BlockInfo.allocated_marked] at free
  rw [BlockInfo.cls_marked]
  apply FreeLists.mem_filed.2
  rcases List.mem_append.1 inOriginal with inFront | notFront
  · exact .inl (kept original (by simp [split, inFront]) free)
  · rcases List.mem_cons.1 notFront with rfl | inBack
    · have place : info.freed.offset ≠ info.offset + info.size := by
        change info.offset ≠ info.offset + info.size
        omega
      rw [BlockInfo.marked_of_ne place]
      exact .inr ⟨rfl, rfl⟩
    · exact .inl (kept original (by simp [split, inBack]) free)

omit sound in
/-- Nothing but the released block ceases to be allocated. -/
theorem extents_released :
    shape.extents.Perm ((info.handle, info.size) :: (shape.released front info back).extents) := by
  have later : (shape.released front info back).extents =
      (front.filter BlockInfo.allocated ++ back.filter BlockInfo.allocated).map
        fun info => (info.handle, info.size) := by
    change (shape.freed front info back).extents = _
    have isFree : ¬info.freed.allocated = true := Bool.false_ne_true
    rw [freed, extents_marked, extents, Shape.allocated]
    rw [show (shape.withBlocks (front ++ info.freed :: back)).blocks =
      front ++ info.freed :: back from rfl, List.filter_append, List.filter_cons_of_neg isFree]
  rw [later, extents, Shape.allocated, split, List.filter_append,
    List.filter_cons_of_pos allocated]
  exact List.perm_middle.map _

end Releasing

/-- The blocks behind a freed block are separated from the first allocated one on. -/
theorem separated_beyond (sound : shape.Sound) (split : shape.blocks = front ++ info :: back)
    (inBack : Separated back) {later : Shape} {run rest : List BlockInfo}
    (cut : unmarked info back = run ++ rest) (ends : (later.lead rest).allocated = true) :
    Separated rest := by
  cases back with
  | nil =>
      rw [(List.append_eq_nil_iff.1 cut.symm).2]
      exact List.isChain_nil
  | cons next beyond =>
      have tiles := sound.layout.tiles
      rw [split] at tiles
      obtain ⟨place, sized, behindNext⟩ := tiles.middle.2.2
      have wide := sized.wide
      have unchanged : beyond.map (BlockInfo.marked (info.offset + info.size) false) = beyond :=
        map_marked_of_tiles behindNext (.inr (by omega))
      have separatedBeyond := (separated_cons.1 inBack).2
      rw [unmarked, List.map_cons, unchanged] at cut
      cases run with
      | nil =>
          rw [List.nil_append] at cut
          subst rest
          exact separatedBeyond.cons_of_allocated ends
      | cons first run =>
          rw [List.cons_append, List.cons.injEq] at cut
          rw [cut.2] at separatedBeyond
          exact List.IsChain.right_of_append separatedBeyond

/-- What releasing an allocated block makes of a shape. -/
inductive Releases (shape : Shape) (info : BlockInfo) : Shape → List Event → Prop where
  | intro {front back : List BlockInfo} {start : BlockInfo} {later : Shape} {events : List Event}
      (split : shape.blocks = front ++ info :: back)
      (merges : (shape.released front info back).Merges front info.freed (unmarked info back)
        start later events) :
      Releases shape info later (.released info.offset :: events)

theorem exists_releases (member : info ∈ shape.blocks) :
    ∃ later events, shape.Releases info later events := by
  obtain ⟨front, back, split⟩ := List.append_of_mem member
  obtain ⟨start, later, events, merges⟩ :=
    exists_merges (shape.released front info back) front info.freed (unmarked info back)
  exact ⟨later, _, .intro split merges⟩

namespace Releases

variable {later : Shape} {events : List Event} (releases : shape.Releases info later events)

include releases

theorem same_setting : shape.SameSetting later := by
  obtain ⟨split, merges⟩ := releases
  refine SameSetting.trans ?_ merges.same_setting
  exact ⟨rfl, rfl, rfl⟩

theorem extents_later (sound : shape.Sound) (allocated : info.allocated = true) :
    shape.extents.Perm ((info.handle, info.size) :: later.extents) := by
  obtain ⟨split, merges⟩ := releases
  have same := merges.allocated_later (blocks_freed sound split) rfl
  rw [extents.eq_def later, same]
  exact extents_released split allocated

theorem exchanges (sound : shape.Sound) (allocated : info.allocated = true) :
    shape.Exchanges later [(info.handle, info.size)] [] :=
  ⟨later.extents, releases.extents_later sound allocated, List.Perm.refl _⟩

theorem valid_later (valid : shape.Valid) (allocated : info.allocated = true) : later.Valid := by
  obtain ⟨split, merges⟩ := releases
  have separated := valid.separated
  rw [split, separated_split] at separated
  obtain ⟨inFront, behind⟩ := separated
  have inBack := (separated_cons.1 behind).2
  apply merges.valid (sound_released valid.sound split allocated)
    (complete_released valid.sound split valid.complete)
    (blocks_freed valid.sound split) (separated_concat.1 inFront).1
  intro run rest cut ends
  exact separated_beyond valid.sound split inBack cut ends

theorem does (sound : shape.Sound) (complete : shape.Complete)
    (allocated : info.allocated = true) :
    shape.Does (Heap.releaseBlock info.handle) () later events later.Held := by
  obtain @⟨front, back, start, later, merged, split, merges⟩ := releases
  have member : info ∈ shape.blocks := by simp [split]
  have gap := gap_freed sound split allocated
  have tiles := tiles_freed sound split
  have cut : (shape.withBlocks (front ++ info.freed :: back)).blocks =
      (front ++ [info.freed]) ++ back := List.append_cons ..
  have inFront : Tiles shape.start (front ++ [info.freed]) (info.offset + info.size) :=
    Tiles.of_middle gap.inFront tiles.2.1 rfl
  have tagsSound := gap.sound_withBlocks sound tiles
  have freedMember : info.freed ∈ (shape.withBlocks (front ++ info.freed :: back)).blocks :=
    List.mem_append_right _ List.mem_cons_self
  have same := merges.allocated_later (blocks_freed sound split) rfl
  have toReleased : ∀ index, later.Held index → (shape.released front info back).Held index :=
    fun index => (held_congr same merges.same_setting.start).1
  have toTagged : ∀ index, later.Held index →
      (shape.withBlocks (front ++ info.freed :: back)).Held index :=
    fun index held => held_marked.1 (toReleased index held)
  have tagging := (gap.does_stamp sound member tiles).weaken toTagged
  have unmarking := (does_setReserved tagsSound cut inFront false).weaken toTagged
  have filing := (does_file (sound_freed sound split allocated) (mem_freed sound split) rfl
    (unlisted_freed sound split allocated)).weaken toReleased
  have merging := (merges.does (sound_released sound split allocated)
    (complete_released sound split complete) (blocks_freed sound split) rfl).weaken toReleased
  rw [Heap.releaseBlock]
  apply Does.bind_except (Block.ofOffset_of_mod (sound.offset_mod member))
  apply Does.bind_read (sees_isAllocated sound member)
  apply (Does.require allocated _ _).bind
  apply Does.bind_read (sees_size sound member)
  apply tagging.bind
  apply Does.bind_read (sees_next tagsSound freedMember)
  apply unmarking.bind
  apply filing.bind
  apply (Does.report _ _ _).bind
  rw [← List.append_nil merged]
  exact merging.bind (Does.pure _ _ _)

end Releases

end Shape

end TaggedHeap
