import TaggedHeap.Proofs.Heap.Resize
import TaggedHeap.Proofs.Shape.Vacancy

/-!
Contract: vacant places under the operations of a heap.

Merging, filing and growth leave every vacant place vacant. Serving a block and growing in place
leave every one but the beginning of the block that they answer. What is copied goes into a payload
that is allocated afterwards. The place of a block that is released becomes vacant, wherever the
merge leaves its header.
-/

namespace TaggedHeap.Shape

variable {shape later : Shape} {info first start block result fresh : BlockInfo}
  {front run others back behind : List BlockInfo} {place bytes size target request : Nat}
  {events : List Event}

/-! ## Merging -/

theorem keepsVacant_absorb (sound : shape.Sound) (split : shape.blocks = front ++ (run ++ back))
    {cursor : Nat} (inFront : Tiles shape.start front cursor)
    (listed : ∀ info ∈ run, info ∈ shape.lists info.cls)
    (ends : (shape.lead back).allocated = true) {patience : Nat}
    (patient : run.length < patience) {sum : Nat} (fits : sum + sizeSum run ≤ maxIndex)
    (place : Nat) : shape.KeepsVacant place (Heap.absorb patience ⟨cursor⟩ sum) := by
  induction run generalizing shape front cursor patience sum with
  | nil =>
      obtain ⟨patience, rfl⟩ := Nat.exists_eq_add_one_of_ne_zero (Nat.ne_zero_of_lt patient)
      have read : shape.Sees (Block.isAllocated ⟨cursor⟩) true :=
        ends ▸ sees_isAllocated_lead sound split inFront
      rw [Heap.absorb]
      apply Secures.bind_read read
      rw [if_pos rfl]
      exact Secures.pure _ _ _
  | cons info rest inductionHypothesis =>
      obtain ⟨patience, rfl⟩ := Nat.exists_eq_add_one_of_ne_zero (Nat.ne_zero_of_lt patient)
      have member : info ∈ shape.blocks := by simp [split]
      have ownListed := listed info List.mem_cons_self
      have unfiledSound := sound.without [info]
      obtain ⟨rfl, later, inFrontLater, stillListed⟩ := rest_of_run sound split inFront listed
      rw [sizeSum_cons] at fits
      rw [show (⟨info.offset⟩ : Block) = info.block from rfl, Heap.absorb]
      apply Secures.bind_read (sees_isAllocated sound member)
      rw [sound.orderly.free ownListed, if_neg Bool.false_ne_true]
      apply Secures.bind_unfile sound ownListed
      apply Secures.bind_read (sees_size unfiledSound member)
      apply Secures.bind_read (sees_next unfiledSound member)
      apply Secures.bind_except (total_of_le (by omega))
      exact inductionHypothesis unfiledSound later inFrontLater stillListed ends
        (Nat.lt_of_succ_lt_succ patient)
        (show sum + info.size + sizeSum rest ≤ maxIndex by omega)

theorem keepsVacant_fuse (sound : shape.Sound)
    (split : shape.blocks = front ++ (first :: others ++ back))
    (unlisted : ∀ member ∈ first :: others, shape.Unlisted member) (event : Event) (place : Nat) :
    shape.KeepsVacant place
      (do
        first.block.stamp (sizeSum (first :: others)) false
        Heap.file first.block
        Heap.report event
        return first.block) := by
  have gap := sound.gap split unlisted
  have fusedTiles := tiles_fused sound split
  have laterSound := gap.sound_withBlocks sound fusedTiles
  have member : first ∈ shape.blocks := by simp [split]
  have fusedMember : first.fuse others ∈ front ++ first.fuse others :: back := by simp
  have fusedUnlisted := gap.unlisted_new sound fusedTiles _ List.mem_cons_self
  apply (gap.keepsVacant_stamp sound member fusedTiles nofun).bind
    (gap.does_stamp sound member fusedTiles)
  apply (keepsVacant_file laterSound fusedMember fusedUnlisted place).bind
    (does_file laterSound fusedMember rfl fusedUnlisted)
  exact Secures.bind_report (Secures.pure _ _ _)

theorem keepsVacant_merge_back (sound : shape.Sound)
    (split : shape.blocks = front ++ (info :: run ++ back))
    (listed : ∀ member ∈ info :: run, member ∈ shape.lists member.cls)
    (stays : ¬shape.JoinsFront front) (joins : run ≠ [])
    (ends : (shape.lead back).allocated = true) (place : Nat) :
    shape.KeepsVacant place (Heap.merge info.block) := by
  have member : info ∈ shape.blocks := by simp [split]
  have later : shape.blocks = (front ++ [info]) ++ (run ++ back) := by simp [split]
  obtain ⟨inFront, inGap, -⟩ := sound.tiles_part split
  have upTo := sound.sizeSum_le split
  have widths := maxBlock_le_maxIndex
  have patient := sound.length_lt split
  have inFrontLater : Tiles shape.start (front ++ [info]) (info.offset + info.size) :=
    Tiles.of_middle inFront inGap.2.1 rfl
  have runFree : AllFree run := fun member inRun =>
    sound.orderly.free (listed member (List.mem_cons_of_mem _ inRun))
  have read := sees_joining sound later inFrontLater runFree joins
  have test := mt (joinsFront_test shape front).1 stays
  rw [Bool.not_eq_true] at test
  have ownListed := listed info List.mem_cons_self
  have unfiledSound := sound.without [info]
  have stillListed := (rest_of_run sound split inFront listed).2.2.2
  have patientLater : run.length < shape.stop + 1 := by omega
  rw [sizeSum_cons] at upTo
  have fits : 0 + info.size + sizeSum run ≤ maxIndex := by omega
  rw [Heap.merge]
  apply Secures.bind_read (sees_previous sound split)
  apply Secures.bind_read (sees_tag_trail sound split)
  apply Secures.bind_read (sees_next sound member)
  apply Secures.bind_read read
  simp only [test, Bool.not_false, Bool.not_true, Bool.and_false, Bool.false_eq_true, ↓reduceIte]
  apply Secures.bind_unfile sound ownListed
  apply Secures.bind_read (sees_size unfiledSound member)
  apply Secures.after_idle fun _ _ => HeapM.run_pure
  apply Secures.bind_read (sees_patience _)
  apply Secures.bind_read (sees_next unfiledSound member)
  apply Secures.bind_except (total_of_le (show 0 + info.size ≤ maxIndex by omega))
  apply (keepsVacant_absorb unfiledSound later inFrontLater stillListed ends patientLater fits
    place).bind (does_absorb unfiledSound later inFrontLater stillListed ends patientLater fits)
  rw [without_without, Nat.zero_add]
  exact keepsVacant_fuse (sound.without (info :: run)) split (fun _ => unlisted_without) _ place

theorem keepsVacant_merge_front (sound : shape.Sound)
    (split : shape.blocks = front ++ (first :: info :: run ++ back))
    (listed : ∀ member ∈ first :: info :: run, member ∈ shape.lists member.cls)
    (joins : first.reserved = false) (ends : (shape.lead back).allocated = true) (place : Nat) :
    shape.KeepsVacant place (Heap.merge info.block) := by
  have firstMember : first ∈ shape.blocks := by simp [split]
  have member : info ∈ shape.blocks := by simp [split]
  have atInfo : shape.blocks = (front ++ [first]) ++ info :: (run ++ back) := by simp [split]
  have later : shape.blocks = (front ++ [first, info]) ++ (run ++ back) := by simp [split]
  obtain ⟨inFront, inGap, -⟩ := sound.tiles_part split
  have upTo := sound.sizeSum_le split
  have widths := maxBlock_le_maxIndex
  have patient := sound.length_lt split
  have between : info.offset = first.offset + first.size := inGap.2.2.1
  have inFrontLater : Tiles shape.start (front ++ [first, info]) (info.offset + info.size) :=
    Tiles.of_middle inFront inGap.2.1 ⟨between, inGap.2.2.2.1, by rw [between]; rfl⟩
  have trail : shape.trail (front ++ [first]) = first := Layout.trail_concat ..
  have ownListed := listed info (by simp)
  have test : (!first.tag.allocated && !first.tag.reserved) = true := by
    rw [BlockInfo.allocated_tag, BlockInfo.reserved_tag,
      sound.orderly.free (listed first List.mem_cons_self), joins]
    rfl
  have infoSound := sound.without [info]
  have unfiledSound := infoSound.without [first]
  obtain ⟨firstListed, stillListed⟩ := listed_of_unfiled sound split listed
  rw [List.length_cons] at patient
  have patientLater : run.length < shape.stop + 1 := by omega
  rw [sizeSum_cons, sizeSum_cons] at upTo
  have fits : first.size + info.size + sizeSum run ≤ maxIndex := by omega
  rw [Heap.merge]
  apply Secures.bind_read (sees_previous sound atInfo)
  apply Secures.bind_read (sees_tag_trail sound atInfo)
  apply Secures.bind_read (sees_next sound member)
  apply Secures.bind_read (sees_isAllocated_lead sound later inFrontLater)
  simp only [trail, test, Bool.not_true, Bool.false_and, Bool.false_eq_true, ↓reduceIte]
  apply Secures.bind_unfile sound ownListed
  apply Secures.bind_unfile infoSound firstListed
  apply Secures.bind_read (sees_size unfiledSound member)
  apply Secures.bind_read (sees_size unfiledSound firstMember)
  apply Secures.bind_read (sees_patience _)
  apply Secures.bind_read (sees_next unfiledSound member)
  apply Secures.bind_except (total_of_le (show first.size + info.size ≤ maxIndex by omega))
  apply (keepsVacant_absorb unfiledSound later inFrontLater stillListed ends patientLater fits
    place).bind (does_absorb unfiledSound later inFrontLater stillListed ends patientLater fits)
  rw [without_in_turn, Nat.add_assoc]
  exact keepsVacant_fuse (sound.without (first :: info :: run)) split
    (fun _ => unlisted_without) _ place

theorem Merges.keepsVacant (merges : shape.Merges front info behind start later events)
    (sound : shape.Sound) (complete : shape.Complete)
    (split : shape.blocks = front ++ info :: behind) (free : info.allocated = false)
    (place : Nat) : shape.KeepsVacant place (Heap.merge info.block) := by
  cases merges with
  | alone stays ends =>
      exact Secures.of_run fun heap shows =>
        ⟨_, heap, merge_stays sound split stays ends shows, id⟩
  | behind cut runFree stays joins ends =>
      subst cut
      have allFree := allFree_cons.2 ⟨free, runFree⟩
      exact keepsVacant_merge_back sound split (complete.listed_part split allFree) stays joins
        ends place
  | front last cut runFree firstFree joins ends =>
      subst cut last
      rw [List.append_assoc] at split
      have allFree := allFree_cons.2 ⟨firstFree, allFree_cons.2 ⟨free, runFree⟩⟩
      exact keepsVacant_merge_front sound split (complete.listed_part split allFree) joins ends
        place

/-! ## Growth -/

/-- The new block is free, and the new epilogue lies behind every place of the heap. -/
theorem vacant_stretched (sound : shape.Sound) (wide : 16 ≤ size) (grained : size % 8 = 0)
    (encodable : shape.stop + size ≤ maxBlock) {before region : Region}
    (vacant : before.Vacant place) (sizeIs : before.size = shape.stop)
    (grows : before.size ≤ region.size)
    (same : ∀ index, region.byte index = before.byte index) :
    ((region.stamp (shape.fresh size)).stampEnd (shape.stop + size)).Vacant place := by
  have above := sound.layout.above
  have upTo := sound.layout.tiles.le
  have stopAligned := sound.layout.tiles.stop_mod sound.layout.aligned
  have inside := vacant.inside
  have freshPlace : (shape.fresh size).offset = shape.stop := rfl
  have freshSize : (shape.fresh size).size = size := rfl
  have enlarged : region.Vacant place := vacant.congr grows fun index _ _ => same index
  have stamped : (region.stamp (shape.fresh size)).Vacant place :=
    enlarged.stamp (by omega) (by omega) (by omega) (by omega) nofun
  exact stamped.stampEnd (by omega) (by omega) (by omega)

theorem keepsVacant_settle (encodable : shape.stop + growth bytes ≤ maxBlock)
    (merges : (shape.grown (growth bytes)).Merges shape.blocks (shape.fresh (growth bytes)) []
      start later events) (sound : shape.Sound) (complete : shape.Complete) (place : Nat) :
    (shape.stretched (growth bytes)).KeepsVacant place
      (do
        Heap.file (shape.fresh (growth bytes)).block
        Heap.report (.extended (growth bytes) (← get).region.size)
        Heap.merge (shape.fresh (growth bytes)).block : AllocM Block).run := by
  obtain ⟨wide, grained⟩ := growth_sized bytes
  have member : shape.fresh (growth bytes) ∈ (shape.stretched (growth bytes)).blocks :=
    List.mem_append_right _ (List.mem_singleton_self _)
  have stretchedSound := sound.stretched wide grained encodable
  have unlisted := sound.fresh_unlisted wide
  have grownSound := sound.grown wide grained encodable
  have grownComplete := complete.grown (growth bytes)
  apply (keepsVacant_file stretchedSound member unlisted place).bind_lift
    (does_file stretchedSound member rfl unlisted)
  apply Secures.granted_bind_get
  intro heap shows
  apply Secures.granted_bind_report
  exact (merges.keepsVacant grownSound grownComplete rfl rfl place).lift
    (merges.does grownSound grownComplete rfl rfl)

theorem Grows.keepsVacant (grows : shape.Grows bytes start later events) (sound : shape.Sound)
    (complete : shape.Complete) (place : Nat) :
    shape.KeepsVacant place (Heap.extend bytes).run where
  after shows vacant ran := by
    obtain ⟨encodable, fits, merges⟩ := grows
    obtain ⟨wide, grained⟩ := growth_sized bytes
    obtain ⟨region, grownSize, grownLimit, same, extended⟩ :=
      extend_run sound encodable fits shows
    have stretched := shows_stretched sound wide grained encodable shows grownSize grownLimit same
    have size := shows.lays.size
    rw [extended] at ran
    exact (keepsVacant_settle encodable merges sound complete place).after stretched.shows
      (vacant_stretched sound wide grained encodable vacant size (by omega) same) ran

/-! ## Allocation -/

section Carving

variable (sound : shape.Sound) (split : shape.blocks = front ++ info :: back) (wide : 16 ≤ size)
  (grained : size % 8 = 0) (enough : size ≤ info.size) (elsewhere : info.offset ≠ place)

include sound split wide grained enough elsewhere

theorem keepsVacant_divide (divides : minBlock ≤ info.size - size) :
    (shape.without [info]).KeepsVacant place
      (do
        info.block.stamp size true
        let rest ← info.block.next
        rest.writeTags (info.size - size) false false
        Heap.file rest) where
  after {before _ _} shows vacant ran := by
    have tiles := BlockInfo.tiles_carved (sized_carved sound split) wide grained enough
    have remains : info.remainder size = [info.rest size] := if_pos divides
    have gap := gap_carved sound split
    obtain ⟨stamped, next, written⟩ := writes_divided sound split wide grained enough divides shows
    have twice : before.region.stamps (info.taken size :: info.remainder size) =
        (before.region.stamp (info.taken size)).stamp (info.rest size) := by
      rw [remains]
      rfl
    have divided : Heap.Shows _ (shape.divided front info size back) :=
      gap.shows_stamps (sound.without [info]) tiles shows
    have still := gap.vacant_stamps (sound.without [info]) tiles vacant
      (List.forall_mem_cons.2 ⟨fun _ => elsewhere, fun rest remaining allocated => by
        rw [info.allFree_remainder size rest remaining] at allocated
        exact absurd allocated Bool.false_ne_true⟩)
    have filing := keepsVacant_file (sound_divided sound split wide grained enough)
      (mem_divided_rest divides) (unlisted_rest sound split wide grained enough divides) place
    rw [HeapM.run_bind (HeapM.run_change stamped), HeapM.run_bind (HeapM.run_read next),
      HeapM.run_bind (HeapM.run_change written)] at ran
    rw [twice] at divided still
    exact filing.after divided still ran

theorem keepsVacant_carve (listed : info ∈ shape.lists info.cls) :
    shape.KeepsVacant place (Heap.carve info.block size) := by
  have member : info ∈ shape.blocks := sound.listed listed
  rw [Heap.carve]
  apply Secures.bind_read (sees_size sound member)
  apply Secures.bind_require (decide_eq_true enough)
  apply Secures.bind_unfile sound listed
  by_cases divides : minBlock ≤ info.size - size
  · rw [if_pos divides]
    exact keepsVacant_divide sound split wide grained enough elsewhere divides
  · have tiles := BlockInfo.tiles_carved (sized_carved sound split) wide grained enough
    have remains : info.remainder size = [] := if_neg divides
    have taken : info.taken size = { info with size := info.size, allocated := true } := by
      rw [BlockInfo.taken, if_neg divides]
    rw [remains, taken] at tiles
    rw [if_neg divides]
    exact (gap_carved sound split).keepsVacant_stamp (sound.without [info]) member tiles
      fun _ => elsewhere

/-- The last step of serving a request. -/
theorem keepsVacant_serve (listed : info ∈ shape.lists info.cls) :
    shape.KeepsVacant place
      (do
        Heap.carve info.block size
        return info.block : AllocM Block).run :=
  (keepsVacant_carve sound split wide grained enough elsewhere listed).bind_lift
    (does_carve sound split wide grained enough listed) (Secures.pure _ _ _)

end Carving

theorem Serves.keepsVacant (serves : shape.Serves size block later events) (valid : shape.Valid)
    (wide : 16 ≤ size) (grained : size % 8 = 0) (elsewhere : block.offset ≠ place) :
    shape.KeepsVacant place (Heap.allocateBlock size).run := by
  have sound := valid.sound
  have searched := idles_search sound size
  rw [Heap.allocateBlock]
  cases serves with
  | found fit split =>
      obtain ⟨cls, listed, enough, -⟩ := FreeLists.mem_of_fit fit
      rw [fit] at searched
      apply Secures.granted_after_idle searched
      dsimp only [Option.map]
      apply Secures.granted_after_idle (Idles.pure _ _)
      exact keepsVacant_serve sound split wide grained enough elsewhere (sound.mem_own listed)
  | @grown front back start middle events missing grows split =>
      obtain ⟨listed, -, -, enough⟩ := grows.start_facts valid.complete
      have middleSound := (grows.valid valid).sound
      rw [missing] at searched
      apply Secures.granted_after_idle searched
      dsimp only [Option.map]
      apply Secures.granted_bind_get
      intro heap shows
      rw [shows.policy]
      apply (grows.keepsVacant sound valid.complete place).granted_bind
        (grows.grants sound valid.complete)
      exact keepsVacant_serve middleSound split wide grained
        (Nat.le_trans (Nat.le_max_left ..) enough) elsewhere listed

/-! ## Release -/

/-- The place is vacant, or a block begins there that is about to be released. -/
def Vacating (leaving place : Nat) (region : Region) : Prop :=
  place = leaving ∨ region.Vacant place

theorem KeepsVacant.vacating {α : Type} {step : HeapM α} (keeps : shape.KeepsVacant place step)
    (leaving : Nat) : shape.Secures (Vacating leaving place) step (Vacating leaving place) where
  after shows vacating ran := vacating.imp_right fun vacant => keeps.after shows vacant ran

/-- Freeing the tags of a block makes its place vacant. -/
theorem secures_free (sound : shape.Sound) (split : shape.blocks = front ++ info :: back)
    (allocated : info.allocated = true) (place : Nat) :
    shape.Secures (Vacating info.offset place) (liftM (info.block.stamp info.size false))
      (Region.Vacant place) where
  after shows vacating ran := by
    have member : info ∈ shape.blocks := by simp [split]
    have gap := gap_freed sound split allocated
    have tiles := tiles_freed sound split
    rcases vacating with rfl | vacant
    · obtain ⟨after, ranSo, leads⟩ := gap.does_stamp sound member tiles _ shows
      cases ran.symm.trans ranSo
      have freed : info.freed ∈ (shape.withBlocks (front ++ info.freed :: back)).blocks :=
        List.mem_append_right _ List.mem_cons_self
      have vacant := vacant_of_free (gap.sound_withBlocks sound tiles) leads.shows freed rfl
      exact vacant
    · exact (gap.keepsVacant_stamp sound member tiles nofun).after shows vacant ran

theorem Releases.secures (releases : shape.Releases info later events) (sound : shape.Sound)
    (complete : shape.Complete) (allocated : info.allocated = true) (place : Nat) :
    shape.Secures (Vacating info.offset place) (Heap.releaseBlock info.handle)
      (Region.Vacant place) := by
  obtain @⟨front, back, start, later, merged, split, merges⟩ := releases
  have member : info ∈ shape.blocks := by simp [split]
  have gap := gap_freed sound split allocated
  have tiles := tiles_freed sound split
  have cut : (shape.withBlocks (front ++ info.freed :: back)).blocks =
      (front ++ [info.freed]) ++ back := List.append_cons ..
  have inFront : Tiles shape.start (front ++ [info.freed]) (info.offset + info.size) :=
    Tiles.of_middle gap.inFront tiles.2.1 rfl
  have tagsSound := gap.sound_withBlocks sound tiles
  have freedMember : info.freed ∈ (shape.withBlocks (front ++ info.freed :: back)).blocks :=
    List.mem_append_right _ List.mem_cons_self
  have freedSound := sound_freed sound split allocated
  have unlisted := unlisted_freed sound split allocated
  have releasedSound := sound_released sound split allocated
  have releasedComplete := complete_released sound split complete
  rw [Heap.releaseBlock]
  apply Secures.bind_except (Block.ofOffset_of_mod (sound.offset_mod member))
  apply Secures.bind_read (sees_isAllocated sound member)
  apply Secures.bind_require allocated
  apply Secures.bind_read (sees_size sound member)
  apply (secures_free sound split allocated place).bind (gap.does_stamp sound member tiles)
  apply Secures.bind_read (sees_next tagsSound freedMember)
  apply (keepsVacant_setReserved tagsSound cut inFront false place).bind
    (does_setReserved tagsSound cut inFront false)
  apply (keepsVacant_file freedSound (mem_freed sound split) unlisted place).bind
    (does_file freedSound (mem_freed sound split) rfl unlisted)
  apply Secures.bind_report
  apply (merges.keepsVacant releasedSound releasedComplete (blocks_freed sound split) rfl
    place).bind (merges.does releasedSound releasedComplete (blocks_freed sound split) rfl)
  exact Secures.pure _ _ _

/-! ## Growth in place -/

theorem keepsVacant_unfileUpTo (sound : shape.Sound)
    (split : shape.blocks = front ++ (run ++ back)) {cursor : Nat}
    (inFront : Tiles shape.start front cursor)
    (listed : ∀ info ∈ run, info ∈ shape.lists info.cls) {patience : Nat}
    (patient : run.length < patience) (place : Nat) :
    shape.KeepsVacant place (Heap.unfileUpTo ⟨cursor + sizeSum run⟩ patience ⟨cursor⟩) := by
  induction run generalizing shape front cursor patience with
  | nil =>
      obtain ⟨patience, rfl⟩ := Nat.exists_eq_add_one_of_ne_zero (Nat.ne_zero_of_lt patient)
      rw [Heap.unfileUpTo, sizeSum_nil, Nat.add_zero, if_pos rfl]
      exact Secures.pure _ _ _
  | cons info rest inductionHypothesis =>
      obtain ⟨patience, rfl⟩ := Nat.exists_eq_add_one_of_ne_zero (Nat.ne_zero_of_lt patient)
      have member : info ∈ shape.blocks := by simp [split]
      have ownListed := listed info List.mem_cons_self
      have wide := sound.wide member
      obtain ⟨rfl, later, inFrontLater, stillListed⟩ := rest_of_run sound split inFront listed
      have goesOn := inductionHypothesis (sound.without [info]) later inFrontLater stillListed
        (Nat.lt_of_succ_lt_succ patient)
      have further : (⟨info.offset⟩ : Block) ≠ ⟨info.offset + (info.size + sizeSum rest)⟩ := by
        intro same
        have sameOffset := congrArg Block.offset same
        dsimp only at sameOffset
        omega
      rw [Nat.add_assoc] at goesOn
      rw [sizeSum_cons, Heap.unfileUpTo, if_neg further]
      apply Secures.bind_read (sees_next sound member)
      exact Secures.bind_unfile sound ownListed goesOn

theorem keepsVacant_takeRun (sound : shape.Sound)
    (split : shape.blocks = front ++ (info :: run ++ back)) (allocated : info.allocated = true)
    (listed : ∀ member ∈ run, member ∈ shape.lists member.cls) (elsewhere : info.offset ≠ place) :
    shape.KeepsVacant place (Heap.takeRun info.block info.size
      ⟨sizeSum run, ⟨info.offset + sizeSum (info :: run)⟩⟩) := by
  have member : info ∈ shape.blocks := by simp [split]
  have later : shape.blocks = (front ++ [info]) ++ (run ++ back) := by simp [split]
  obtain ⟨inFront, inRun, -⟩ := sound.tiles_part split
  have upTo := sound.sizeSum_le split
  have widths := maxBlock_le_maxIndex
  have patient := sound.length_lt split
  have patientLater : run.length < shape.stop + 1 := by omega
  have inFrontLater : Tiles shape.start (front ++ [info]) (info.offset + info.size) :=
    Tiles.of_middle inFront inRun.2.1 rfl
  have unfiling := does_unfileUpTo sound later inFrontLater listed patientLater
  have keeping := keepsVacant_unfileUpTo sound later inFrontLater listed patientLater place
  rw [sizeSum_cons] at upTo
  rw [Nat.add_assoc, ← sizeSum_cons] at unfiling keeping
  rw [Heap.takeRun]
  apply Secures.bind_read (sees_patience shape)
  apply Secures.bind_read (sees_next sound member)
  apply keeping.bind unfiling
  apply Secures.bind_except (total_of_le (show info.size + sizeSum run ≤ maxIndex by omega))
  exact (gap_joined sound split allocated).keepsVacant_writeTags (sound.without run)
    (tiles_joined sound split) fun _ => elsewhere

theorem RunAt.keepsVacant (runAt : shape.RunAt front info run back) (sound : shape.Sound)
    (complete : shape.Complete) (elsewhere : info.offset ≠ place) :
    shape.KeepsVacant place (Heap.takeRun info.block info.size
      ⟨sizeSum run, ⟨info.offset + sizeSum (info :: run)⟩⟩) := by
  have later : shape.blocks = (front ++ [info]) ++ (run ++ back) := by simp [runAt.split]
  exact keepsVacant_takeRun sound runAt.split runAt.allocated
    (complete.listed_part later runAt.free) elsewhere

theorem Expands.keepsVacant (expands : shape.Expands info target result later events)
    (valid : shape.Valid) (elsewhere : info.offset ≠ place) :
    shape.KeepsVacant place (Heap.growInPlace info.block target).run := by
  have sound := valid.sound
  rw [Heap.growInPlace]
  cases expands with
  | within runAt enough =>
      apply Secures.granted_after_idle (Idles.read (runAt.sees_current sound))
      apply Secures.granted_after_idle (Idles.read (runAt.sees_run sound))
      apply Secures.granted_after_idle (Idles.except (runAt.total_fits sound))
      rw [if_pos enough]
      exact (runAt.keepsVacant sound valid.complete elsewhere).bind_lift
        (runAt.does_join sound valid.complete) (Secures.pure _ _ _)
  | beyond runAt short grows laterRun enough =>
      have middleValid := grows.valid valid
      have middleSound := middleValid.sound
      apply Secures.granted_after_idle (Idles.read (runAt.sees_current sound))
      apply Secures.granted_after_idle (Idles.read (runAt.sees_run sound))
      apply Secures.granted_after_idle (Idles.except (runAt.total_fits sound))
      rw [if_neg (Nat.not_le.2 short)]
      apply Secures.granted_after_idle (Idles.read (runAt.sees_end sound))
      rw [if_neg fun nonzero => nonzero rfl]
      apply Secures.granted_bind_get
      intro heap shows
      rw [shows.policy]
      apply (grows.keepsVacant sound valid.complete place).granted_bind
        (grows.grants sound valid.complete)
      apply Secures.granted_after_idle (Idles.read (laterRun.sees_run middleSound))
      apply Secures.granted_after_idle (Idles.except (laterRun.total_fits middleSound))
      rw [if_pos enough]
      exact (laterRun.keepsVacant middleSound middleValid.complete elsewhere).bind_lift
        (laterRun.does_join middleSound middleValid.complete) (Secures.pure _ _ _)

/-! ## Moving -/

/-- No allocated block reaches over the place. -/
def Uncovered (shape : Shape) (place : Nat) : Prop :=
  ∀ handle size, (handle, size) ∈ shape.extents →
    place < handle.offset ∨ handle.offset + size ≤ place

theorem keepsVacant_copy (sound : shape.Sound) (member : info ∈ shape.blocks)
    (freshMember : fresh ∈ shape.blocks) (freshAllocated : fresh.allocated = true) {count : Nat}
    (inside : count + 8 ≤ info.size) (freshInside : count + 8 ≤ fresh.size)
    (outside : place < fresh.offset ∨ fresh.offset + fresh.size ≤ place) :
    shape.KeepsVacant place
      (liftM (Region.copy info.offset fresh.offset count) : AllocM Unit).run := by
  have copying := (carries_copy sound member freshMember freshAllocated inside freshInside).grants
  have does : shape.Does (liftM (Region.copy info.offset fresh.offset count) : AllocM Unit).run
    (.ok ()) shape [] (fun index => ¬fresh.Inside index) := copying
  apply does.keepsVacant (Nat.le_refl _)
  rintro index lower upper ⟨first, last⟩
  omega

theorem Moves.secures (moves : shape.Moves info target fresh later events) (valid : shape.Valid)
    (wide : 16 ≤ target) (grained : target % 8 = 0) (member : info ∈ shape.blocks)
    (allocated : info.allocated = true) (enough : request + 8 ≤ target)
    (outside : place < fresh.offset ∨ fresh.offset + fresh.size ≤ place) :
    shape.Secures (Vacating info.offset place)
      (Heap.move info.handle info.size target request).run (Region.Vacant place) := by
  obtain ⟨serves, releases⟩ := moves
  have middleValid := serves.valid_later valid wide grained
  have middleSound := middleValid.sound
  obtain ⟨freshAllocated, -, covers⟩ := serves.block_facts valid
  have freshMember := serves.block_mem valid
  have infoMember := (serves.mem_later valid middleSound member allocated).1
  have infoWide := valid.sound.wide member
  have inside : min (info.size - 8) request + 8 ≤ info.size := by omega
  have freshInside : min (info.size - 8) request + 8 ≤ fresh.size := by omega
  have elsewhere : fresh.offset ≠ place := by omega
  have serving := (serves.keepsVacant valid wide grained elsewhere).vacating info.offset
  have copying := (keepsVacant_copy middleSound infoMember freshMember freshAllocated inside
    freshInside outside).vacating info.offset
  rw [Heap.move]
  apply serving.granted_bind (serves.grants valid wide grained)
  apply Secures.granted_after_idle (Idles.except (difference_of_le (by omega)))
  apply copying.granted_bind
    (carries_copy middleSound infoMember freshMember freshAllocated inside freshInside).grants
  apply (releases.secures middleSound middleValid.complete allocated place).bind_lift
    (releases.does middleSound middleValid.complete allocated)
  exact Secures.granted_bind_report (Secures.pure _ _ _)

/-! ## Resizing -/

theorem keepsVacant_reserveBehind (sound : shape.Sound)
    (present : (result.handle, result.size) ∈ shape.extents) (target place : Nat) :
    shape.KeepsVacant place (Heap.reserveBehind result.block target) := by
  obtain ⟨info, member, -, sameHandle, sameSize⟩ := mem_extents.1 present
  have sameBlock : info.block = result.block := congrArg (Block.mk ∘ Handle.offset) sameHandle
  obtain ⟨front, back, split⟩ := List.append_of_mem member
  have cut : shape.blocks = (front ++ [info]) ++ back := by simp [split]
  have tiles := sound.layout.tiles
  rw [split] at tiles
  obtain ⟨inFront, sized, -⟩ := tiles.middle
  rw [Heap.reserveBehind, ← sameBlock]
  apply Secures.bind_read (sees_size sound member)
  apply Secures.bind_get
  intro heap shows
  split
  · apply Secures.bind_read (sees_next sound member)
    exact keepsVacant_setReserved sound cut (Tiles.of_middle inFront sized rfl) true place
  · exact Secures.pure _ _ _

theorem keepsVacant_finish (sound : shape.Sound)
    (present : (result.handle, result.size) ∈ shape.extents) (target offset request place : Nat) :
    shape.KeepsVacant place
      (do
        Heap.reserveBehind result.block target
        Heap.report (.resized offset request result.offset)
        return result.block : AllocM Block).run := by
  apply (keepsVacant_reserveBehind sound present target place).bind_lift
    (does_reserveBehind sound present target)
  exact Secures.granted_bind_report (Secures.pure _ _ _)

theorem Enlarges.secures (enlarges : shape.Enlarges info target request result later events)
    (valid : shape.Valid) (wide : 16 ≤ target) (grained : target % 8 = 0)
    (member : info ∈ shape.blocks) (allocated : info.allocated = true)
    (enough : request + 8 ≤ target)
    (outside : place < result.offset ∨ result.offset + result.size ≤ place) :
    shape.Secures (Vacating info.offset place)
      (Heap.enlarge info.handle info.block info.size target request).run
      (Region.Vacant place) := by
  rw [Heap.enlarge]
  cases enlarges with
  | inPlace expands =>
      obtain ⟨sameHandle, -, longer, -⟩ := expands.result_facts
      have sameOffset : result.offset = info.offset := congrArg Handle.offset sameHandle
      have infoWide := valid.sound.wide member
      have elsewhere : info.offset ≠ place := by omega
      have growing := (expands.keepsVacant valid elsewhere).strengthen
        fun region (vacating : Vacating info.offset place region) =>
          vacating.resolve_left elsewhere.symm
      apply growing.granted_bind (expands.grants valid)
      rw [if_pos rfl]
      exact Secures.granted_bind_report (Secures.pure _ _ _)
  | moved blocked moves =>
      apply Secures.granted_after_idle (blocked.idles valid.sound)
      rw [if_neg Bool.false_ne_true]
      exact moves.secures valid wide grained member allocated enough outside

theorem Resizes.secures (resizes : shape.Resizes info request result later events)
    (valid : shape.Valid) (tuned : shape.policy.resizeSlack % 8 = 0)
    (member : info ∈ shape.blocks) (allocated : info.allocated = true)
    (uncovered : later.Uncovered place) :
    shape.Secures (Vacating info.offset place) (Heap.resizeBlock info.handle request).run
      (Region.Vacant place) := by
  have sound := valid.sound
  have sees := sees_size sound member
  have named := Block.ofOffset_of_mod (sound.offset_mod member)
  have infoWide := sound.wide member
  have exchanges := resizes.exchanges valid tuned member allocated
  have outside : place < result.offset ∨ result.offset + result.size ≤ place :=
    uncovered _ _ (exchanges.mem_later List.mem_cons_self)
  rw [Heap.resizeBlock]
  cases resizes with
  | @stays needed judged fits enough =>
      have elsewhere : place ≠ info.offset := by omega
      have present := present_of_allocated member allocated
      have finishing := (keepsVacant_finish sound present (needed + shape.policy.resizeSlack)
        info.offset request place).strengthen
          fun region (vacating : Vacating info.offset place region) =>
            vacating.resolve_left elsewhere
      apply Secures.granted_after_idle (Idles.answer judged)
      apply Secures.granted_bind_get
      intro heap shows
      dsimp only
      rw [shows.policy, if_neg (Nat.not_lt.2 fits)]
      apply Secures.granted_after_idle (Idles.except named)
      apply Secures.granted_after_idle (Idles.read sees)
      rw [if_pos enough]
      exact Secures.granted_after_idle (Idles.pure shape info.block) finishing
  | @enlarged needed result middle events judged fits short enlarges =>
      obtain ⟨wide, grained, holds, -⟩ := blockSizeFor_ok judged
      have middleSound :=
        (enlarges.valid_later valid (by omega) (by omega) allocated).sound
      have enlarging := enlarges.secures valid (by omega) (by omega) member allocated
        (show request + 8 ≤ _ by omega) outside
      have granted :=
        (enlarges.carries valid (by omega) (by omega) member allocated (by omega)).grants
      have present : (result.handle, result.size) ∈ middle.extents :=
        (enlarges.exchanges valid (by omega) (by omega) member allocated).mem_later
          List.mem_cons_self
      apply Secures.granted_after_idle (Idles.answer judged)
      apply Secures.granted_bind_get
      intro heap shows
      dsimp only
      rw [shows.policy, if_neg (Nat.not_lt.2 fits)]
      apply Secures.granted_after_idle (Idles.except named)
      apply Secures.granted_after_idle (Idles.read sees)
      rw [if_neg (Nat.not_le.2 short)]
      exact enlarging.granted_bind granted (keepsVacant_finish middleSound present _ _ _ place)

theorem Resizes.secures_resize (resizes : shape.Resizes info request result later events)
    (valid : shape.Valid) (tuned : shape.policy.resizeSlack % 8 = 0)
    (member : info ∈ shape.blocks) (allocated : info.allocated = true)
    (uncovered : later.Uncovered place) (something : request ≠ 0) :
    shape.Secures (Vacating info.offset place) (Heap.resize (some info.handle) request).run
      (Region.Vacant place) := by
  rw [Heap.resize, if_neg something]
  exact (resizes.secures valid tuned member allocated uncovered).granted_bind
    (resizes.carries valid tuned member allocated).grants (Secures.pure _ _ _)

end TaggedHeap.Shape
