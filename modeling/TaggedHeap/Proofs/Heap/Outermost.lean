import TaggedHeap.Proofs.Heap.Resize

/-!
Contract: resizing the last of the allocated blocks.

Behind the last allocated block there is nothing that could stop it from growing, so a resize never
moves it, and it stays the last one. A block that is not the last and moves into a shape whose free
blocks all lie at its end becomes the last one. Marks, and the hole that a moved block leaves, do
not come into this: the place of the block among the allocated ones is all that counts.
-/

namespace TaggedHeap

/-- Behind the block of the handle there are only free ones. -/
def Trails (handle : Handle) (blocks : List BlockInfo) : Prop :=
  ∃ front info behind, blocks = front ++ info :: behind ∧ info.handle = handle ∧ AllFree behind

/-- All free blocks lie behind all allocated ones. -/
def Compact (blocks : List BlockInfo) : Prop :=
  ∃ live free, blocks = live ++ free ∧ (∀ info ∈ live, info.allocated = true) ∧ AllFree free

namespace Shape

variable {shape later : Shape} {info block result : BlockInfo} {handle : Handle}
  {request size target : Nat} {events : List Event}

/-- No allocated block begins behind the handle. -/
def Outermost (shape : Shape) (handle : Handle) : Prop :=
  ∀ other size, (other, size) ∈ shape.extents → other.offset ≤ handle.offset

/-- Every free block begins behind every allocated one. -/
def Compacted (shape : Shape) : Prop :=
  ∀ info ∈ shape.blocks, info.allocated = false →
    ∀ other size, (other, size) ∈ shape.extents → other.offset < info.offset

theorem outermost_of_trails (sound : shape.Sound) (trails : Trails handle shape.blocks) :
    shape.Outermost handle := by
  obtain ⟨front, info, behind, split, rfl, free⟩ := trails
  intro other size present
  obtain ⟨block, member, allocated, rfl, rfl⟩ := mem_extents.1 present
  have tiles := sound.layout.tiles
  rw [split] at member tiles
  rcases List.mem_append.1 member with inFront | notFront
  · exact Nat.le_trans (Nat.le_add_right ..) (tiles.middle.1.le_stop_of_mem inFront)
  · rcases List.mem_cons.1 notFront with rfl | isBehind
    · exact Nat.le_refl _
    · rw [free block isBehind] at allocated
      exact absurd allocated Bool.false_ne_true

theorem compacted_of_compact (sound : shape.Sound) (compact : Compact shape.blocks) :
    shape.Compacted := by
  obtain ⟨live, free, split, allLive, allFree⟩ := compact
  intro info member isFree other size present
  obtain ⟨block, blockMember, allocated, rfl, rfl⟩ := mem_extents.1 present
  obtain ⟨middle, inLive, inFree⟩ := tiles_append.1 (split ▸ sound.layout.tiles)
  have wide := sound.wide blockMember
  rw [split] at member blockMember
  have isLive : block ∈ live := by
    refine (List.mem_append.1 blockMember).resolve_right fun inFree => ?_
    rw [allFree block inFree] at allocated
    exact Bool.false_ne_true allocated
  have inRest : info ∈ free := by
    refine (List.mem_append.1 member).resolve_left fun inLive => ?_
    rw [allLive info inLive] at isFree
    exact Bool.false_ne_true isFree.symm
  have upTo := inLive.le_stop_of_mem isLive
  have lower := inFree.start_le_of_mem inRest
  change block.offset < info.offset
  omega

/-! ## The last allocated block -/

/-- Nothing stands in the way of the last allocated block. -/
theorem Outermost.not_blocked (outermost : shape.Outermost info.handle) (sound : shape.Sound) :
    ¬shape.Blocked info target := by
  rintro @⟨front, run, back, runAt, short, obstacle⟩
  obtain ⟨next, rest, rfl⟩ := List.exists_cons_of_ne_nil obstacle
  have member : next ∈ shape.blocks := by simp [runAt.split]
  have atMost : next.offset ≤ info.offset :=
    outermost _ _ (present_of_allocated member runAt.ends)
  have tiles := sound.layout.tiles
  rw [runAt.split] at tiles
  have lower := tiles.middle.2.2.start_le_of_mem (show next ∈ run ++ next :: rest by simp)
  have wide := tiles.middle.2.1.wide
  omega

theorem Outermost.mono (outermost : shape.Outermost handle)
    (part : later.extents ⊆ shape.extents) : later.Outermost handle :=
  fun other size present => outermost other size (part present)

/-- The block may take another size. -/
theorem Outermost.exchanges {old new : Nat} (outermost : shape.Outermost handle)
    (exchanges : shape.Exchanges later [(handle, old)] [(handle, new)]) :
    later.Outermost handle := by
  obtain ⟨others, before, after⟩ := exchanges
  intro other size present
  rcases List.mem_append.1 (after.subset present) with isNew | stayed
  · rw [List.mem_singleton] at isNew
    cases isNew
    exact Nat.le_refl _
  · exact outermost other size (before.symm.subset (List.mem_append_right _ stayed))

theorem Outermost.resizes (outermost : shape.Outermost info.handle)
    (resizes : shape.Resizes info request result later events) (valid : shape.Valid)
    (tuned : shape.policy.resizeSlack % 8 = 0) (member : info ∈ shape.blocks)
    (allocated : info.allocated = true) :
    result.handle = info.handle ∧ later.Outermost info.handle := by
  have same : result.handle = info.handle := by
    cases resizes with
    | stays judged fits enough => rfl
    | enlarged judged fits short enlarges =>
        cases enlarges with
        | inPlace expands => exact expands.result_facts.1
        | moved blocked moves => exact absurd blocked (outermost.not_blocked valid.sound)
  have exchanges := resizes.exchanges valid tuned member allocated
  rw [same] at exchanges
  exact ⟨same, outermost.exchanges exchanges⟩

/-! ## Shapes whose free blocks all lie at the end -/

/-- A block that grows where it is has free space behind it, or the end of the heap. -/
theorem Compacted.outermost_of_expands (compacted : shape.Compacted) (sound : shape.Sound)
    (expands : shape.Expands info target result later events) (short : info.size < target) :
    shape.Outermost info.handle := by
  cases expands with
  | @within front run back runAt enough =>
      obtain ⟨first, rest, rfl⟩ : ∃ first rest, run = first :: rest := by
        apply List.exists_cons_of_ne_nil
        rintro rfl
        rw [sizeSum_cons, sizeSum_nil] at enough
        omega
      have tiles := sound.layout.tiles
      rw [runAt.split] at tiles
      obtain ⟨place, -⟩ := tiles.middle.2.2
      have firstMember : first ∈ shape.blocks := by simp [runAt.split]
      have infoMember : info ∈ shape.blocks := by simp [runAt.split]
      intro other size present
      have below := compacted first firstMember (runAt.free first List.mem_cons_self) other size
        present
      obtain ⟨block, member, -, rfl, -⟩ := mem_extents.1 present
      change block.offset < first.offset at below
      change block.offset ≤ info.offset
      rcases sound.layout.tiles.apart_of_mem infoMember member with rfl | inFront | behind
      · exact Nat.le_refl _
      · have inFront : info.offset + info.size ≤ block.offset := inFront
        omega
      · have behind : block.offset + block.size ≤ info.offset := behind
        omega
  | beyond runAt short grows laterRun enough =>
      have split := runAt.split
      rw [List.append_nil] at split
      exact outermost_of_trails sound ⟨_, _, _, split, rfl, runAt.free⟩

/-- A block that is served begins behind all others. -/
theorem Compacted.outermost_of_serves (compacted : shape.Compacted) (valid : shape.Valid)
    (serves : shape.Serves size block later events) : later.Outermost block.handle := by
  have extents := serves.extents_later valid
  intro other otherSize present
  rcases List.mem_cons.1 (extents.subset present) with isBlock | wasPresent
  · cases isBlock
    exact Nat.le_refl _
  cases serves with
  | @found front back info fit split =>
      obtain ⟨cls, listed, -⟩ := FreeLists.mem_of_fit fit
      exact Nat.le_of_lt (compacted info (by simp [split]) (valid.sound.orderly.free listed)
        other otherSize wasPresent)
  | @grown front back start middle events missing grows split =>
      have middleSound := (grows.valid valid).sound
      obtain ⟨earlier, blocks, -⟩ := grows.extends_later
      have trails : Trails start.handle middle.blocks := ⟨earlier, start, [], blocks, rfl, nofun⟩
      have same : middle.extents = shape.extents := by
        rw [Shape.extents, grows.allocated_later, Shape.extents]
      exact outermost_of_trails middleSound trails other otherSize (same ▸ wasPresent)

theorem Compacted.resizes (compacted : shape.Compacted)
    (resizes : shape.Resizes info request result later events) (valid : shape.Valid)
    (tuned : shape.policy.resizeSlack % 8 = 0) (allocated : info.allocated = true) :
    result.handle = info.handle ∧ later.Compacted ∨ later.Outermost result.handle := by
  cases resizes with
  | @stays needed judged fits enough =>
      refine .inl ⟨rfl, fun free inBlocks isFree other size present => ?_⟩
      rw [extents_reservedBehind] at present
      unfold reservedBehind at inBlocks
      split at inBlocks
      · obtain ⟨original, wasMember, rfl⟩ := List.mem_map.1 inBlocks
        rw [BlockInfo.allocated_marked] at isFree
        rw [BlockInfo.offset_marked]
        exact compacted original wasMember isFree other size present
      · exact compacted free inBlocks isFree other size present
  | @enlarged needed result middle events judged fits short enlarges =>
      obtain ⟨wide, grained, -⟩ := blockSizeFor_ok judged
      right
      rw [Outermost, extents_reservedBehind]
      cases enlarges with
      | inPlace expands =>
          have outermost := compacted.outermost_of_expands valid.sound expands (by omega)
          have exchanges := expands.exchanges
          rw [expands.result_facts.1] at exchanges ⊢
          exact outermost.exchanges exchanges
      | moved blocked moves =>
          obtain ⟨serves, releases⟩ := moves
          have middleValid := serves.valid_later valid (by omega) (by omega)
          have released := releases.extents_later middleValid.sound allocated
          exact (compacted.outermost_of_serves valid serves).mono fun pair stayed =>
            released.symm.subset (List.mem_cons_of_mem _ stayed)

end Shape

end TaggedHeap
