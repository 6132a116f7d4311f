import TaggedHeap.Heap.Growth
import TaggedHeap.Proofs.Heap.Merge

/-!
Contract: growth of a heap in terms of shapes.

A heap grows by one free block at its end, which then merges with what is free in front of it.
Growth fails in two ways, and a failure changes nothing but the journal: the heap would become
too large for its links, or the region refuses.
-/

namespace TaggedHeap

theorem Region.grow_of_mod {region : Region} {size : Nat} (aligned : size % 8 = 0)
    (fits : region.size + size ≤ region.limit) (addressable : size < addressSpace) :
    ∃ grown : Region, Region.grow size region = .ok (.ok region.size) grown ∧
      grown.size = region.size + size ∧ grown.limit = region.limit ∧
      ∀ index, grown.byte index = region.byte index := by
  have rounded := roundUp_of_mod aligned
  have fitsRounded : region.size + roundUp size ≤ region.limit := by rwa [rounded]
  refine ⟨_, grow_of_le fitsRounded (by rwa [rounded]), ?_, limit_enlarge .., fun index => ?_⟩
  · rw [size_enlarge, rounded]
  · exact byte_enlarge ..

namespace Heap

variable {heap : Heap} {size : Nat}

theorem requestSpace_run {grown : Region} {start : Nat}
    (granted : Region.grow size heap.region = .ok (.ok start) grown) :
    (requestSpace size).run.run heap = .ok (.ok start) { heap with region := grown } := by
  rw [requestSpace, AllocM.run_bind (AllocM.run_change granted)]
  rfl

theorem requestSpace_refused {refusal : Refusal}
    (refused : Region.grow size heap.region = .ok (.error refusal) heap.region) :
    (requestSpace size).run.run heap =
      .ok (.error (.refused refusal))
        { heap with journal := heap.journal ++ [Event.refused size refusal].toArray } := by
  rw [requestSpace, AllocM.run_bind (AllocM.run_change refused)]
  rfl

end Heap

/-- Size of the block by which a heap grows. -/
def growth (bytes : Nat) : Nat :=
  max (roundUp bytes) minBlock

theorem growth_sized (bytes : Nat) : 16 ≤ growth bytes ∧ growth bytes % 8 = 0 := by
  have aligned := roundUp_mod bytes
  simp only [growth, minBlock]
  omega

theorem le_growth (bytes : Nat) : bytes ≤ growth bytes :=
  Nat.le_trans (le_roundUp bytes) (Nat.le_max_left ..)

theorem growth_of_mod {count : Nat} (wide : 16 ≤ count) (grained : count % 8 = 0) :
    growth count = count := by
  rw [growth, roundUp_of_mod grained]
  exact Nat.max_eq_left wide

/-- The last block of a heap that has grown by `size` bytes, and the blocks in front of it. The new
space is merged with the block that was last if that is free and not reserved. -/
inductive Extends (blocks : List BlockInfo) (stop size : Nat) : List BlockInfo → BlockInfo → Prop
    where
  | apart (closed : ∀ last ∈ blocks.getLast?, last.allocated = true ∨ last.reserved = true) :
      Extends blocks stop size blocks ⟨⟨stop⟩, size, false, false⟩
  | merged {front : List BlockInfo} {last : BlockInfo} (ends : blocks = front ++ [last])
      (free : last.allocated = false) (unreserved : last.reserved = false) :
      Extends blocks stop size front { last with size := last.size + size }

namespace Shape

variable {shape : Shape} {bytes size : Nat}

/-- The block that is to follow the last one. -/
def fresh (shape : Shape) (size : Nat) : BlockInfo :=
  ⟨⟨shape.stop⟩, size, false, false⟩

/-- The shape with one more free block at its end, which is not listed. -/
def stretched (shape : Shape) (size : Nat) : Shape :=
  { shape with
    blocks := shape.blocks ++ [shape.fresh size]
    stop := shape.stop + size
    stopReserved := false }

theorem Sound.stretched (sound : shape.Sound) (wide : 16 ≤ size) (grained : size % 8 = 0)
    (encodable : shape.stop + size ≤ maxBlock) : (shape.stretched size).Sound where
  layout := by
    refine ⟨sound.layout.aligned, sound.layout.above, ?_, encodable⟩
    exact tiles_append.2 ⟨shape.stop, sound.layout.tiles, rfl, ⟨wide, grained⟩, rfl⟩
  orderly := sound.orderly
  listed listed := List.mem_append_left _ (sound.listed listed)

theorem Sound.fresh_unlisted (sound : shape.Sound) (wide : 16 ≤ size) :
    (shape.stretched size).Unlisted (shape.fresh size) := by
  intro cls listed
  have inside := sound.inside (sound.listed listed)
  have place : (shape.fresh size).offset = shape.stop := rfl
  have sizeIs : (shape.fresh size).size = size := rfl
  omega

/-- The shape with one more free block at its end. -/
def grown (shape : Shape) (size : Nat) : Shape :=
  (shape.stretched size).filed (shape.fresh size)

theorem Sound.grown (sound : shape.Sound) (wide : 16 ≤ size) (grained : size % 8 = 0)
    (encodable : shape.stop + size ≤ maxBlock) : (shape.grown size).Sound :=
  (sound.stretched wide grained encodable).filed
    (List.mem_append_right _ (List.mem_singleton_self _)) rfl (sound.fresh_unlisted wide)

theorem Complete.grown (complete : shape.Complete) (size : Nat) :
    (shape.grown size).Complete := by
  intro info member free
  apply FreeLists.mem_filed.2
  rcases List.mem_append.1 member with old | new
  · exact .inl (complete info old free)
  · rw [List.mem_singleton.1 new]
    exact .inr ⟨rfl, rfl⟩

theorem allocated_grown (shape : Shape) (size : Nat) :
    (shape.grown size).allocated = shape.allocated := by
  have blocks : (shape.grown size).blocks = shape.blocks ++ [shape.fresh size] := rfl
  have free : AllFree [shape.fresh size] := allFree_cons.2 ⟨rfl, nofun⟩
  rw [allocated, allocated, blocks, List.filter_append, filter_allocated_of_free free,
    List.append_nil]

section Stretching

variable (sound : shape.Sound) (wide : 16 ≤ size) {region : Region}

include sound wide

/-- The tags at the end of a region that has grown leave what lies in front of the epilogue. -/
theorem byte_stretched (region : Region) {index : Nat} (below : index + 4 < shape.stop) :
    ((region.stamp (shape.fresh size)).stampEnd (shape.stop + size)).byte index =
      region.byte index := by
  have above := sound.layout.above
  have upTo := sound.layout.tiles.le
  have place : (shape.fresh size).offset = shape.stop := rfl
  have freshSize : (shape.fresh size).size = size := rfl
  rw [Region.byte_stampEnd_of_outside _ (by omega) (.inl (by omega)),
    Region.byte_stamp_of_untagged _ (by omega) (by omega) (.inl (by omega))]

theorem lays_stretched (grained : size % 8 = 0) (encodable : shape.stop + size ≤ maxBlock)
    {heap : Heap} (lays : heap.region.Lays shape.toLayout)
    (sizeIs : region.size = shape.stop + size)
    (same : ∀ index, region.byte index = heap.region.byte index) :
    ((region.stamp (shape.fresh size)).stampEnd (shape.stop + size)).Lays
      (shape.stretched size).toLayout := by
  have above := sound.layout.above
  have upTo := sound.layout.tiles.le
  have stopAligned := sound.layout.tiles.stop_mod sound.layout.aligned
  have place : (shape.fresh size).offset = shape.stop := rfl
  have freshSize : (shape.fresh size).size = size := rfl
  have before : ∀ index, index + 4 < shape.stop →
      ((region.stamp (shape.fresh size)).stampEnd (shape.stop + size)).byte index =
        heap.region.byte index :=
    fun index below => (byte_stretched sound wide region below).trans (same index)
  have stamped : (region.stamp (shape.fresh size)).Holds (shape.fresh size) :=
    Region.holds_stamp (by omega) (by omega) grained (by omega) (by omega) (by omega)
  refine ⟨?_, ?_, ?_, ?_⟩
  · rw [Region.size_stampEnd, Region.size_stamp]
    exact sizeIs
  · apply lays.prologue.congr (show 4 ≤ shape.start - 8 by omega) (Nat.le_refl 8)
    · intro index _ below
      have below : index < shape.start - 8 := below
      exact before index (by omega)
    · intro index _ below
      have below : index + 4 < shape.start - 8 + 8 := below
      exact before index (by omega)
  · intro info member
    rcases List.mem_append.1 member with old | new
    · have infoAbove := sound.above old
      have infoWide := sound.wide old
      have inside := sound.inside old
      apply (lays.blocks info old).congr (by omega) (by omega)
      · intro index _ below
        exact before index (by omega)
      · intro index _ below
        exact before index (by omega)
    · rw [List.mem_singleton.1 new]
      apply stamped.congr (by omega) (by omega)
      · intro index _ below
        exact Region.byte_stampEnd_of_outside _ (by omega) (.inl (by omega))
      · intro index _ below
        exact Region.byte_stampEnd_of_outside _ (by omega) (.inl (by omega))
  · apply Region.headerTag_stampEnd (show 4 ≤ shape.stop + size by omega)
    rw [Region.size_stamp, sizeIs]

theorem shows_stretched (grained : size % 8 = 0) (encodable : shape.stop + size ≤ maxBlock)
    {heap : Heap} (shows : heap.Shows shape) (sizeIs : region.size = shape.stop + size)
    (limit : region.limit = heap.region.limit)
    (same : ∀ index, region.byte index = heap.region.byte index) :
    heap.Leads { heap with
        region := (region.stamp (shape.fresh size)).stampEnd (shape.stop + size) }
      (shape.stretched size) [] shape.Held := by
  have before : ∀ index, index + 4 < shape.stop →
      ((region.stamp (shape.fresh size)).stampEnd (shape.stop + size)).byte index =
        heap.region.byte index :=
    fun index below => (byte_stretched sound wide region below).trans (same index)
  refine ⟨⟨shows.policy, ?_, shows.prologue,
    lays_stretched sound wide grained encodable shows.lays sizeIs same, ?_⟩, by simp, ?_⟩
  · change ((region.stamp (shape.fresh size)).stampEnd (shape.stop + size)).limit = shape.limit
    rw [Region.limit_stampEnd, Region.limit_stamp, limit, shows.limit]
  · apply shows.stored.congr
    · rw [Region.size_stampEnd, Region.size_stamp, sizeIs]
      exact Nat.le_trans (Nat.le_of_eq shows.lays.size) (Nat.le_add_right ..)
    · intro cls info listed index _ below
      have inside := sound.inside (sound.listed listed)
      have infoWide := sound.wide (sound.listed listed)
      exact before index (by omega)
  · intro index held
    apply before index
    have upTo := sound.layout.tiles.le
    rcases held with below | ⟨info, member, -, lower, upper⟩
    · omega
    · have inside := sound.inside member
      omega

end Stretching

/-! ## Growth as an operation -/

/-- What growth makes of a shape: the free block at its end, the shape and the events. -/
inductive Grows (shape : Shape) (bytes : Nat) : BlockInfo → Shape → List Event → Prop where
  | intro {start : BlockInfo} {later : Shape} {events : List Event}
      (encodable : shape.stop + growth bytes ≤ maxBlock)
      (fits : shape.stop + growth bytes ≤ shape.limit)
      (merges : (shape.grown (growth bytes)).Merges shape.blocks (shape.fresh (growth bytes)) []
        start later events) :
      Grows shape bytes start later
        (.extended (growth bytes) (shape.stop + growth bytes) :: events)

/-- Why a heap does not grow. -/
inductive Refuses (shape : Shape) (bytes : Nat) : Failure → List Event → Prop where
  | tooLarge (excess : maxBlock < shape.stop + growth bytes) :
      Refuses shape bytes (.tooLarge bytes) []
  | exhausted (encodable : shape.stop + growth bytes ≤ maxBlock)
      (lacks : shape.limit < shape.stop + growth bytes) :
      Refuses shape bytes
        (.refused (.exhausted (growth bytes) (shape.limit - shape.stop)))
        [.refused (growth bytes) (.exhausted (growth bytes) (shape.limit - shape.stop))]

theorem grows_or_refuses (shape : Shape) (bytes : Nat) :
    (∃ start later events, shape.Grows bytes start later events) ∨
      ∃ failure events, shape.Refuses bytes failure events := by
  rcases Nat.lt_or_ge maxBlock (shape.stop + growth bytes) with excess | encodable
  · exact .inr ⟨_, _, .tooLarge excess⟩
  rcases Nat.lt_or_ge shape.limit (shape.stop + growth bytes) with lacks | fits
  · exact .inr ⟨_, _, .exhausted encodable lacks⟩
  · obtain ⟨start, later, events, merges⟩ :=
      exists_merges (shape.grown (growth bytes)) shape.blocks (shape.fresh (growth bytes)) []
    exact .inl ⟨start, later, _, .intro encodable fits merges⟩

theorem Refuses.denies {failure : Failure} {events : List Event}
    (refuses : shape.Refuses bytes failure events) :
    shape.Denies (Heap.extend bytes) failure events := by
  intro heap shows
  have sizeIs : heap.region.size = shape.stop := shows.lays.size
  have limitIs := shows.limit
  rw [Heap.extend, AllocM.run_bind AllocM.run_get]
  dsimp only
  cases refuses with
  | tooLarge excess =>
      rw [if_pos (by rw [sizeIs]; exact excess), AllocM.run_bind_error (AllocM.run_throw _)]
      simp
  | exhausted encodable lacks =>
      have rounded := roundUp_of_mod (growth_sized bytes).2
      have refused := Region.grow_of_lt (show heap.region.limit <
        heap.region.size + roundUp (growth bytes) by rwa [rounded, sizeIs, limitIs])
      rw [sizeIs, limitIs] at refused
      rw [if_neg (by rw [sizeIs]; exact Nat.not_lt.2 encodable)]
      exact AllocM.run_bind_error (Heap.requestSpace_refused refused) _

/-- The first steps of growth write the tags at the end of a longer region. -/
theorem extend_run (sound : shape.Sound) (encodable : shape.stop + growth bytes ≤ maxBlock)
    (fits : shape.stop + growth bytes ≤ shape.limit) {before : Heap} (shows : before.Shows shape) :
    ∃ region : Region, region.size = shape.stop + growth bytes ∧
      region.limit = before.region.limit ∧
      (∀ index, region.byte index = before.region.byte index) ∧
      (Heap.extend bytes).run.run before =
        (do
          Heap.file (shape.fresh (growth bytes)).block
          Heap.report (.extended (growth bytes) (← get).region.size)
          Heap.merge (shape.fresh (growth bytes)).block : AllocM Block).run.run
        { before with
          region := (region.stamp (shape.fresh (growth bytes))).stampEnd
            (shape.stop + growth bytes) } := by
  have sizeIs : before.region.size = shape.stop := shows.lays.size
  have limitIs := shows.limit
  have above := sound.layout.above
  have upTo := sound.layout.tiles.le
  have stopAligned := sound.layout.tiles.stop_mod sound.layout.aligned
  obtain ⟨wide, grained⟩ := growth_sized bytes
  have addressable : maxBlock < addressSpace := by decide
  obtain ⟨region, granted, grownSize, grownLimit, same⟩ :=
    Region.grow_of_mod grained (show before.region.size + growth bytes ≤ before.region.limit by
      omega) (by omega)
  rw [sizeIs] at granted grownSize
  have place : (shape.fresh (growth bytes)).offset = shape.stop := rfl
  have freshSize : (shape.fresh (growth bytes)).size = growth bytes := rfl
  have written : (shape.fresh (growth bytes)).block.writeTags (growth bytes) false false region =
      .ok () (region.stamp (shape.fresh (growth bytes))) :=
    Block.writeTags_stamp (by omega) (by omega) (by omega) grained (by omega)
  have stamped : (region.stamp (shape.fresh (growth bytes))).Holds (shape.fresh (growth bytes)) :=
    Region.holds_stamp (by omega) (by omega) grained (by omega) (by omega) (by omega)
  have next : (shape.fresh (growth bytes)).block.next
      (region.stamp (shape.fresh (growth bytes))) = .ok ⟨shape.stop + growth bytes⟩ :=
    Block.next_of_tag (Block.tag_of_header stamped.header (by omega)
      (by rw [Region.size_stamp]; omega))
  have closed : (⟨shape.stop + growth bytes⟩ : Block).stampEnd
      (region.stamp (shape.fresh (growth bytes))) =
        .ok () ((region.stamp (shape.fresh (growth bytes))).stampEnd
          (shape.stop + growth bytes)) :=
    Block.stampEnd_of_le (show 4 ≤ shape.stop + growth bytes by omega)
      (show shape.stop + growth bytes ≤ _ by rw [Region.size_stamp]; omega)
  have sizeOf : max (roundUp bytes) minBlock = growth bytes := rfl
  refine ⟨region, grownSize, grownLimit, same, ?_⟩
  rw [Heap.extend, AllocM.run_bind AllocM.run_get]
  dsimp only
  rw [sizeOf, if_neg (by rw [sizeIs]; exact Nat.not_lt.2 encodable)]
  rw [AllocM.run_bind (Heap.requestSpace_run granted), AllocM.run_bind AllocM.run_get,
    AllocM.run_bind (AllocM.run_lift (HeapM.run_require (decide_eq_true grownSize) _)),
    AllocM.run_bind (AllocM.run_except (Block.ofOffset_of_mod stopAligned)),
    AllocM.run_bind (AllocM.run_change written), AllocM.run_bind (AllocM.run_read next),
    AllocM.run_bind (AllocM.run_change closed)]
  rfl

/-- The last steps of growth, on a heap that has the tags of the new block. -/
theorem grants_settle {start : BlockInfo} {later : Shape} {events : List Event}
    (encodable : shape.stop + growth bytes ≤ maxBlock)
    (merges : (shape.grown (growth bytes)).Merges shape.blocks (shape.fresh (growth bytes)) []
      start later events) (sound : shape.Sound) (complete : shape.Complete) :
    (shape.stretched (growth bytes)).Grants
      (do
        Heap.file (shape.fresh (growth bytes)).block
        Heap.report (.extended (growth bytes) (← get).region.size)
        Heap.merge (shape.fresh (growth bytes)).block)
      start.block later (.extended (growth bytes) (shape.stop + growth bytes) :: events)
      shape.Held := by
  obtain ⟨wide, grained⟩ := growth_sized bytes
  have stays : ∀ index, shape.Held index → (shape.grown (growth bytes)).Held index :=
    fun index => (held_congr (shape.allocated_grown (growth bytes)) rfl).2
  have member : shape.fresh (growth bytes) ∈ (shape.stretched (growth bytes)).blocks :=
    List.mem_append_right _ (List.mem_singleton_self _)
  have filed := does_file (sound.stretched wide grained encodable) member rfl
    (sound.fresh_unlisted wide)
  have merged := merges.does (sound.grown wide grained encodable)
    (complete.grown (growth bytes)) rfl rfl
  apply (Grants.lift (filed.weaken stays)).bind
  apply Grants.bind_get
  intro heap shows
  rw [shows.lays.size]
  apply (Grants.lift (Does.report _ _ _)).bind
  exact Grants.lift (merged.weaken stays)

namespace Grows

variable {start : BlockInfo} {later : Shape} {events : List Event}
  (grows : shape.Grows bytes start later events)

include grows

theorem grants (sound : shape.Sound)
    (complete : shape.Complete) :
    shape.Grants (Heap.extend bytes) start.block later events shape.Held := by
  obtain ⟨encodable, fits, merges⟩ := grows
  obtain ⟨wide, grained⟩ := growth_sized bytes
  intro before shows
  obtain ⟨region, grownSize, grownLimit, same, extended⟩ := extend_run sound encodable fits shows
  have stretched := shows_stretched sound wide grained encodable shows grownSize grownLimit same
  obtain ⟨after, ran, leads⟩ :=
    grants_settle encodable merges sound complete _ stretched.shows
  exact ⟨after, extended.trans ran, stretched.trans leads⟩

theorem valid (valid : shape.Valid) : later.Valid := by
  obtain ⟨encodable, -, merges⟩ := grows
  obtain ⟨wide, grained⟩ := growth_sized bytes
  apply merges.valid (valid.sound.grown wide grained encodable)
    (valid.complete.grown (growth bytes)) rfl valid.separated
  intro run back cut _
  rw [(List.append_eq_nil_iff.1 cut.symm).2]
  exact List.isChain_nil

theorem same_setting : shape.SameSetting later := by
  obtain ⟨-, -, merges⟩ := grows
  refine SameSetting.trans ?_ merges.same_setting
  exact ⟨rfl, rfl, rfl⟩

theorem allocated_later : later.allocated = shape.allocated := by
  obtain ⟨-, -, merges⟩ := grows
  rw [merges.allocated_later rfl rfl, allocated_grown]

theorem held_later {index : Nat} (held : shape.Held index) : later.Held index :=
  (held_congr grows.allocated_later grows.same_setting.start).2 held

theorem extends_later : ∃ front, later.blocks = front ++ [start] ∧
    Extends shape.blocks shape.stop (growth bytes) front start := by
  obtain ⟨-, -, merges⟩ := grows
  cases merges with
  | alone stays ends => exact ⟨shape.blocks, rfl, .apart (closed_of_stays stays)⟩
  | behind cut free stays joins ends => exact absurd (List.append_eq_nil_iff.1 cut.symm).1 joins
  | @front earlier run back first last cut free firstFree joins ends =>
      obtain ⟨rfl, rfl⟩ := List.append_eq_nil_iff.1 cut.symm
      refine ⟨earlier, rfl, ?_⟩
      have fused : first.fuse [shape.fresh (growth bytes)] =
          { first with size := first.size + growth bytes } := by
        rw [BlockInfo.fuse, firstFree]
        rfl
      rw [fused]
      exact .merged last firstFree joins

/-- The block at the end is free, not reserved, and large enough for what was asked. -/
theorem start_facts (complete : shape.Complete) : start ∈ later.lists start.cls ∧
    start.allocated = false ∧ start.reserved = false ∧ bytes ≤ start.size := by
  obtain ⟨-, -, merges⟩ := grows
  obtain ⟨listed, free, atLeast⟩ := merges.start_facts (complete.grown _) rfl rfl
  exact ⟨listed, free, merges.start_unreserved rfl, Nat.le_trans (le_growth bytes) atLeast⟩

end Grows

end Shape

end TaggedHeap
