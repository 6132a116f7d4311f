import TaggedHeap.Proofs.Heap.Growth

/-!
Contract: construction of a heap at the end of a region, in terms of shapes.

The two sentinels make a heap without blocks, and its first growth is like any other. The bytes in
front of the new heap may hold anything, and none of them changes.
-/

namespace TaggedHeap

namespace Shape

/-- The shape with both sentinels and no block between them. -/
def founded (region : Region) (policy : Policy) : Shape where
  start := region.size + 16
  blocks := []
  stop := region.size + 16
  stopReserved := false
  policy := policy
  limit := region.limit
  lists := fun _ => []

variable {region : Region} {policy : Policy}

theorem valid_founded (encodable : region.size + 16 ≤ maxBlock) :
    (founded region policy).Valid where
  sound := by
    have aligned := region.size_mod
    refine ⟨⟨?_, Nat.le_add_left .., rfl, encodable⟩, ⟨nofun, nofun, ?_, ?_, nofun⟩, nofun⟩
    · change (region.size + 16) % 8 = 0
      omega
    · exact fun _ => List.Pairwise.nil
    · exact fun _ => List.nodup_nil
  complete := nofun
  separated := List.isChain_nil

theorem extents_founded : (founded region policy).extents = [] :=
  rfl

/-- What lies below the sentinels is held. -/
theorem held_founded {index : Nat} (below : index < region.size) :
    (founded region policy).Held index :=
  .inl (Nat.add_lt_add_right below 16)

end Shape

/-- The prologue of a heap that begins at `start`. -/
def BlockInfo.sentinel (start : Nat) : BlockInfo :=
  ⟨⟨start + 8⟩, 8, true, false⟩

namespace Heap

/-- A region with both sentinels written from `start` on. -/
def sentinels (region : Region) (start : Nat) : Region :=
  ((region.setWord start 0).stamp (.sentinel start)).stampEnd (start + 16)

theorem byte_sentinels (region : Region) {start index : Nat} (below : index < start) :
    (sentinels region start).byte index = region.byte index := by
  have place : (BlockInfo.sentinel start).offset = start + 8 := rfl
  have size : (BlockInfo.sentinel start).size = 8 := rfl
  rw [sentinels, Region.byte_stampEnd_of_outside _ (by omega) (.inl (by omega)),
    Region.byte_stamp_of_untagged _ (by omega) (by omega) (.inl (by omega)),
    Region.byte_setWord_of_outside _ _ (.inl below)]

/-- The heap with both sentinels at the end of its region. -/
def founded (region grown : Region) (policy : Policy) : Heap :=
  { blank region policy with
    region := sentinels grown region.size
    prologue := ⟨region.size + 8⟩ }

theorem shows_founded {region grown : Region} (policy : Policy)
    (size : grown.size = region.size + 16) (limit : grown.limit = region.limit) :
    (founded region grown policy).Shows (Shape.founded region policy) := by
  have aligned := region.size_mod
  have place : (BlockInfo.sentinel region.size).offset = region.size + 8 := rfl
  have sentinelSize : (BlockInfo.sentinel region.size).size = 8 := rfl
  have zeroed : (grown.setWord region.size 0).size = region.size + 16 := by
    rw [Region.size_setWord, size]
  have stamped : ((grown.setWord region.size 0).stamp (.sentinel region.size)).Holds
      (.sentinel region.size) :=
    Region.holds_stamp (by omega) (by omega) (by omega)
      (by rw [sentinelSize]; decide) (by omega) (by omega)
  refine ⟨rfl, ?_, rfl, ⟨?_, ?_, nofun, ?_⟩, ⟨nofun, ?_, fun _ => trivial⟩⟩
  · change (sentinels grown region.size).limit = region.limit
    rw [sentinels, Region.limit_stampEnd, Region.limit_stamp, Region.limit_setWord, limit]
  · change (sentinels grown region.size).size = region.size + 16
    rw [sentinels, Region.size_stampEnd, Region.size_stamp, zeroed]
  · apply stamped.congr (by omega) (by omega)
    · intro index _ below
      exact Region.byte_stampEnd_of_outside _ (by omega) (.inl (by omega))
    · intro index _ below
      exact Region.byte_stampEnd_of_outside _ (by omega) (.inl (by omega))
  · apply Region.headerTag_stampEnd (show 4 ≤ region.size + 16 by omega)
    rw [Region.size_stamp, zeroed]
  · intro cls
    exact Vector.getElem_replicate ..

/-- The first steps of the construction. -/
theorem establish_run (policy : Policy) {region grown : Region}
    (granted : Region.grow 16 region = .ok (.ok region.size) grown)
    (size : grown.size = region.size + 16) :
    establish.run.run (blank region policy) =
      (do
        let _ ← extend policy.initialGrowth
        (report (.initialised (← get).region.size) : HeapM Unit) : AllocM Unit).run.run
        (founded region grown policy) := by
  have aligned := region.size_mod
  have place : (BlockInfo.sentinel region.size).offset = region.size + 8 := rfl
  have sentinelSize : (BlockInfo.sentinel region.size).size = 8 := rfl
  have inside : region.size + 4 ≤ grown.size := by omega
  have zeroed : (grown.setWord region.size 0).size = region.size + 16 := by
    rw [Region.size_setWord, size]
  have written : (BlockInfo.sentinel region.size).block.writeTags 8 true false
      (grown.setWord region.size 0) =
        .ok () ((grown.setWord region.size 0).stamp (.sentinel region.size)) :=
    Block.writeTags_stamp (by omega) (by omega) (by omega) (by omega)
      (by rw [sentinelSize]; decide)
  have stamped : ((grown.setWord region.size 0).stamp (.sentinel region.size)).Holds
      (.sentinel region.size) :=
    Region.holds_stamp (by omega) (by omega) (by omega)
      (by rw [sentinelSize]; decide) (by omega) (by omega)
  have next : (BlockInfo.sentinel region.size).block.next
      ((grown.setWord region.size 0).stamp (.sentinel region.size)) = .ok ⟨region.size + 16⟩ :=
    Block.next_of_tag (Block.tag_of_header stamped.header (by omega)
      (by rw [Region.size_stamp]; omega))
  have closed : (⟨region.size + 16⟩ : Block).stampEnd
      ((grown.setWord region.size 0).stamp (.sentinel region.size)) =
        .ok () (sentinels grown region.size) :=
    Block.stampEnd_of_le (show 4 ≤ region.size + 16 by omega)
      (show region.size + 16 ≤ _ by rw [Region.size_stamp]; omega)
  have named : Block.ofOffset (region.size + 8) = .ok (BlockInfo.sentinel region.size).block :=
    Block.ofOffset_of_mod (by omega)
  rw [establish, AllocM.run_bind (requestSpace_run granted),
    AllocM.run_bind (AllocM.run_change (Region.writeWord_of_le 0 inside)),
    AllocM.run_bind (AllocM.run_except named), AllocM.run_bind (AllocM.run_change written),
    AllocM.run_bind (AllocM.run_read next), AllocM.run_bind (AllocM.run_change closed)]
  rfl

end Heap

/-! ## Construction as an operation -/

namespace Shape

variable {region : Region} {policy : Policy} {later : Shape} {events : List Event}
  {failure : Failure}

/-- How a heap is built at the end of a region. -/
inductive Founds (region : Region) (policy : Policy) : Shape → List Event → Prop where
  | intro {start : BlockInfo} {later : Shape} {events : List Event}
      (sane : policy.defect? = none) (room : region.size + 16 ≤ region.limit)
      (grows : (founded region policy).Grows policy.initialGrowth start later events) :
      Founds region policy later (events ++ [.initialised later.stop])

/-- Why no heap is built at the end of a region, and how far the region has grown. -/
inductive Fails (region : Region) (policy : Policy) : Failure → Nat → Prop where
  | invalid {defect : PolicyDefect} (defective : policy.defect? = some defect) :
      Fails region policy (.invalidPolicy defect) region.size
  | cramped (sane : policy.defect? = none) (lacks : region.limit < region.size + 16) :
      Fails region policy (.refused (.exhausted 16 (region.limit - region.size))) region.size
  | refused {failure : Failure} {events : List Event} (sane : policy.defect? = none)
      (room : region.size + 16 ≤ region.limit)
      (refuses : (founded region policy).Refuses policy.initialGrowth failure events) :
      Fails region policy failure (region.size + 16)

theorem founds_or_fails (region : Region) (policy : Policy) :
    (∃ later events, Founds region policy later events) ∨
      ∃ failure size, Fails region policy failure size := by
  cases judged : policy.defect? with
  | some defect => exact .inr ⟨_, _, .invalid judged⟩
  | none =>
      rcases Nat.lt_or_ge region.limit (region.size + 16) with lacks | room
      · exact .inr ⟨_, _, .cramped judged lacks⟩
      · rcases grows_or_refuses (founded region policy) policy.initialGrowth with
          ⟨start, later, events, grows⟩ | ⟨failure, events, refuses⟩
        · exact .inl ⟨_, _, .intro judged room grows⟩
        · exact .inr ⟨_, _, .refused judged room refuses⟩

/-- The construction up to the first growth. -/
theorem create_run (sane : policy.defect? = none) (room : region.size + 16 ≤ region.limit) :
    ∃ founded : Heap, founded.Shows (Shape.founded region policy) ∧ founded.journal = #[] ∧
      (∀ index < region.size, founded.region.byte index = region.byte index) ∧
      (Heap.create policy).run.run (Heap.blank region policy) =
        (do
          let _ ← Heap.extend policy.initialGrowth
          (Heap.report (.initialised (← get).region.size) : HeapM Unit) : AllocM Unit).run.run
          founded := by
  obtain ⟨grown, granted, size, limit, same⟩ :=
    Region.grow_of_mod (show 16 % 8 = 0 from rfl) room (by decide)
  refine ⟨_, Heap.shows_founded policy size limit, rfl, ?_, ?_⟩
  · intro index below
    exact (Heap.byte_sentinels grown below).trans (same index)
  · rw [Heap.create, sane]
    exact Heap.establish_run policy granted size

theorem Fails.run {size : Nat} (fails : Fails region policy failure size) :
    ∃ after : Heap,
      (Heap.create policy).run.run (Heap.blank region policy) = .ok (.error failure) after ∧
        after.region.size = size ∧
        ∀ index < region.size, after.region.byte index = region.byte index := by
  cases fails with
  | invalid defective =>
      refine ⟨Heap.blank region policy, ?_, rfl, fun _ _ => rfl⟩
      rw [Heap.create, defective]
      exact AllocM.run_throw _
  | cramped sane lacks =>
      have refused : Region.grow 16 region =
          .ok (.error (.exhausted 16 (region.limit - region.size))) region :=
        Region.grow_of_lt lacks
      have requested : (Heap.requestSpace 16).run.run (Heap.blank region policy) = _ :=
        Heap.requestSpace_refused refused
      rw [Heap.create, sane]
      exact ⟨_, AllocM.run_bind_error requested _, rfl, fun _ _ => rfl⟩
  | refused sane room refuses =>
      obtain ⟨founded, shows, -, same, ran⟩ := create_run sane room
      have denied := refuses.denies founded shows
      refine ⟨_, ran.trans (AllocM.run_bind_error denied _), shows.lays.size, same⟩

/-- A construction that fails has added the sentinels at most. -/
theorem Fails.size_le {size : Nat} (fails : Fails region policy failure size) :
    region.size ≤ size := by
  cases fails with
  | invalid | cramped => exact Nat.le_refl _
  | refused => exact Nat.le_add_right ..

namespace Founds

variable (founds : Founds region policy later events)

include founds

theorem valid_later : later.Valid := by
  obtain ⟨sane, room, grows⟩ := founds
  have encodable : region.size + 16 + growth policy.initialGrowth ≤ maxBlock := by
    obtain ⟨encodable, -, -⟩ := grows
    exact encodable
  exact grows.valid (valid_founded (by omega))

theorem later_facts : later.start = region.size + 16 ∧ later.policy = policy ∧
    later.limit = region.limit ∧ later.extents = [] ∧ policy.defect? = none := by
  obtain ⟨sane, room, grows⟩ := founds
  have setting := grows.same_setting
  refine ⟨setting.start, setting.policy, setting.limit, ?_, sane⟩
  rw [extents, grows.allocated_later]
  exact extents_founded

theorem run : ∃ after : Heap,
    (Heap.create policy).run.run (Heap.blank region policy) = .ok (.ok ()) after ∧
      after.Shows later ∧ after.journal = events.toArray ∧
      ∀ index < region.size, after.region.byte index = region.byte index := by
  obtain @⟨start, later, events, sane, room, grows⟩ := founds
  have encodable : region.size + 16 + growth policy.initialGrowth ≤ maxBlock := by
    obtain ⟨encodable, -, -⟩ := grows
    exact encodable
  have foundedValid : (founded region policy).Valid := valid_founded (by omega)
  obtain ⟨founded, shows, journal, same, ran⟩ := create_run sane room
  have growing : (Shape.founded region policy).Grants
      (do
        let _ ← Heap.extend policy.initialGrowth
        (Heap.report (.initialised (← get).region.size) : HeapM Unit) : AllocM Unit)
      () later (events ++ [.initialised later.stop]) (Shape.founded region policy).Held := by
    apply (grows.grants foundedValid.sound foundedValid.complete).bind
    apply Grants.bind_get
    intro heap shows
    rw [shows.lays.size]
    exact Grants.lift (Does.report _ _ _)
  obtain ⟨after, grew, leads⟩ := growing founded shows
  refine ⟨after, ran.trans grew, leads.shows, ?_, fun index below => ?_⟩
  · rw [leads.journal, journal, Array.empty_append]
  · rw [leads.bytes index (held_founded below), same index below]

end Founds

/-- A heap that was built shows what the construction leads to. -/
theorem founds_of_created {heap : Heap}
    (created : (Heap.create policy).run (Heap.blank region policy) = .ok (.ok ()) heap) :
    ∃ later events, Founds region policy later events ∧ heap.Shows later := by
  rcases founds_or_fails region policy with ⟨later, events, founds⟩ | ⟨failure, size, fails⟩
  · obtain ⟨after, ran, shows, -⟩ := founds.run
    cases created.symm.trans ran
    exact ⟨later, events, founds, shows⟩
  · obtain ⟨after, ran, -⟩ := fails.run
    cases created.symm.trans ran

end Shape

end TaggedHeap
