import TaggedHeap.Proofs.Heap.Resize
import TaggedHeap.Proofs.Shape.Anchor

/-!
Contract: marks under the operations of a heap.

There are three statements for every outcome: which marks there are afterwards, that an anchored
shape stays anchored, and which reserved blocks are kept as they are. Nothing but resizing sets a
mark. A free block that is reserved is lost only to the block in front of it, when that one is
released, moves away or grows.
-/

namespace TaggedHeap

theorem BlockInfo.unreserved_remainder {info rest : BlockInfo} {size : Nat}
    (remains : rest ∈ info.remainder size) : rest.reserved = false := by
  unfold remainder at remains
  split at remains
  · rw [List.mem_singleton.1 remains]
    rfl
  · cases remains

namespace Shape

variable {shape later middle : Shape} {info first held start : BlockInfo}
  {front others run behind back : List BlockInfo} {closing : Bool} {place size bytes : Nat}
  {events : List Event}

/-! ## Merging -/

section Fusing

variable (split : shape.blocks = front ++ (first :: others ++ back))

include split

theorem replaces_fused : shape.Replaces (shape.fused front first others back).toLayout
    (first :: others) [first.fuse others] :=
  ⟨⟨front, back, split, rfl⟩, rfl⟩

theorem marked_of_fused (marked : (shape.fused front first others back).Marked closing place) :
    shape.Marked closing place := by
  refine (replaces_fused split).marked_of_later (fun info isNew reserved => ?_) marked
  rw [List.mem_singleton.1 isNew] at reserved ⊢
  exact ⟨first, List.mem_cons_self, reserved, rfl⟩

/-- Fusing a free run keeps all reserved blocks but the first of the run. -/
theorem mem_fused_of_reserved (anchored : shape.Anchored) (sound : shape.Sound)
    (free : AllFree (first :: others)) (member : held ∈ shape.blocks)
    (reserved : held.reserved = true) :
    held ∈ (shape.fused front first others back).blocks ∨ held = first := by
  refine ((replaces_fused split).mem_later member).imp_right fun inRun => ?_
  rcases List.mem_cons.1 inRun with isFirst | isOther
  · exact isFirst
  · rw [anchored.unreserved_of_run sound split free isOther] at reserved
    exact absurd reserved Bool.false_ne_true

end Fusing

/-- The blocks between which a block lies that joins the one in front of it. -/
theorem split_of_joining {earlier : List BlockInfo}
    (split : shape.blocks = front ++ info :: behind) (last : front = earlier ++ [first])
    (cut : behind = run ++ back) :
    shape.blocks = earlier ++ (first :: info :: run ++ back) := by
  rw [split, last, cut, List.append_assoc]
  rfl

namespace Merges

variable (merges : shape.Merges front info behind start later events)
  (split : shape.blocks = front ++ info :: behind)

include merges split

theorem marked_of_later (marked : later.Marked closing place) : shape.Marked closing place := by
  cases merges with
  | alone stays ends => exact marked
  | behind cut runFree stays joins ends =>
      subst cut
      exact marked_of_fused split marked
  | front last cut runFree firstFree joins ends =>
      exact marked_of_fused (split_of_joining split last cut) marked

variable (anchored : shape.Anchored) (free : info.allocated = false)

include anchored free

theorem anchored_later : later.Anchored := by
  apply anchored.mono merges.same_setting.policy fun closing place => merges.marked_of_later split
  rw [extents.eq_def later, merges.allocated_later split free]
  exact List.Subset.refl _

variable (sound : shape.Sound)

include sound

theorem mem_later_of_reserved (member : held ∈ shape.blocks) (reserved : held.reserved = true) :
    held ∈ later.blocks ∨ held = info := by
  cases merges with
  | alone stays ends => exact .inl member
  | behind cut runFree stays joins ends =>
      subst cut
      exact mem_fused_of_reserved split anchored sound (allFree_cons.2 ⟨free, runFree⟩) member
        reserved
  | front last cut runFree firstFree joins ends =>
      have allFree := allFree_cons.2 ⟨firstFree, allFree_cons.2 ⟨free, runFree⟩⟩
      have kept := mem_fused_of_reserved (split_of_joining split last cut) anchored sound allFree
        member reserved
      refine kept.imp_right ?_
      rintro rfl
      rw [joins] at reserved
      exact absurd reserved Bool.false_ne_true

/-- A reserved block is the beginning of what it merges into. -/
theorem start_of_reserved (reserved : info.reserved = true) :
    start ∈ later.blocks ∧ start.handle = info.handle ∧ start.reserved = true := by
  cases merges with
  | alone stays ends => exact ⟨by simp [split], rfl, reserved⟩
  | behind cut runFree stays joins ends =>
      exact ⟨List.mem_append_right _ List.mem_cons_self, rfl, reserved⟩
  | front last cut runFree firstFree joins ends =>
      have allFree := allFree_cons.2 ⟨firstFree, allFree_cons.2 ⟨free, runFree⟩⟩
      rw [anchored.unreserved_of_run sound (split_of_joining split last cut) allFree
        List.mem_cons_self] at reserved
      exact absurd reserved Bool.false_ne_true

end Merges

/-! ## Growth -/

theorem marked_of_grown (marked : (shape.grown size).Marked closing place) :
    shape.Marked closing place := by
  cases marked with
  | block member reserved =>
      rcases List.mem_append.1 member with old | isFresh
      · exact .block old reserved
      · rw [List.mem_singleton.1 isFresh] at reserved
        exact absurd reserved Bool.false_ne_true
  | epilogue reserved => exact absurd reserved Bool.false_ne_true

theorem Anchored.grown (anchored : shape.Anchored) (size : Nat) :
    (shape.grown size).Anchored := by
  have extents : (shape.grown size).extents = shape.extents := by
    rw [Shape.extents, allocated_grown, Shape.extents]
  intro closing place marked
  rw [extents]
  exact anchored closing place (marked_of_grown marked)

namespace Grows

variable (grows : shape.Grows bytes start later events)

include grows

theorem marked_of_later (marked : later.Marked closing place) : shape.Marked closing place := by
  obtain ⟨-, -, merges⟩ := grows
  exact marked_of_grown (merges.marked_of_later rfl marked)

variable (anchored : shape.Anchored)

include anchored

theorem anchored_later : later.Anchored := by
  obtain ⟨-, -, merges⟩ := grows
  exact merges.anchored_later rfl (anchored.grown _) rfl

/-- Growth keeps every reserved block. -/
theorem mem_later_of_reserved (sound : shape.Sound) (member : held ∈ shape.blocks)
    (reserved : held.reserved = true) : held ∈ later.blocks := by
  obtain ⟨encodable, -, merges⟩ := grows
  obtain ⟨wide, grained⟩ := growth_sized bytes
  have grownMember : held ∈ (shape.grown (growth bytes)).blocks := List.mem_append_left _ member
  have kept := merges.mem_later_of_reserved rfl (anchored.grown _) rfl
    (sound.grown wide grained encodable) grownMember reserved
  refine kept.resolve_right ?_
  rintro rfl
  exact Bool.false_ne_true reserved

end Grows

/-! ## Allocation -/

section Carving

variable (split : shape.blocks = front ++ info :: back)

include split

theorem replaces_carved : shape.Replaces (shape.carved front info size back).toLayout
    [info] (info.taken size :: info.remainder size) := by
  rw [carved_layout]
  exact ⟨⟨front, back, split, rfl⟩, rfl⟩

theorem marked_of_carved (marked : (shape.carved front info size back).Marked closing place) :
    shape.Marked closing place := by
  refine (replaces_carved split).marked_of_later (fun new isNew reserved => ?_) marked
  rcases List.mem_cons.1 isNew with rfl | remains
  · exact ⟨info, List.mem_cons_self, reserved, rfl⟩
  · rw [BlockInfo.unreserved_remainder remains] at reserved
    exact absurd reserved Bool.false_ne_true

/-- Carving a block keeps all others. -/
theorem mem_carved (member : held ∈ shape.blocks) (different : held ≠ info) :
    held ∈ (shape.carved front info size back).blocks := by
  refine ((replaces_carved split).mem_later member).resolve_right fun isInfo => ?_
  exact different (List.mem_singleton.1 isInfo)

end Carving

namespace Serves

variable {block : BlockInfo} (serves : shape.Serves size block later events)

include serves

theorem marked_of_later (marked : later.Marked closing place) : shape.Marked closing place := by
  cases serves with
  | found fit split => exact marked_of_carved split marked
  | grown missing grows split => exact grows.marked_of_later (marked_of_carved split marked)

variable (valid : shape.Valid) (anchored : shape.Anchored)

include valid anchored

theorem anchored_later : later.Anchored := by
  apply anchored.mono serves.same_setting.policy fun closing place => serves.marked_of_later
  intro pair present
  exact (serves.extents_later valid).symm.subset (List.mem_cons_of_mem _ present)

/-- Neither the search nor the growth that serves a request takes a reserved block. -/
theorem mem_later_of_reserved (member : held ∈ shape.blocks) (reserved : held.reserved = true) :
    held ∈ later.blocks := by
  have differs : ∀ info : BlockInfo, info.reserved = false → held ≠ info := by
    rintro info unreserved rfl
    rw [unreserved] at reserved
    exact Bool.false_ne_true reserved
  cases serves with
  | found fit split =>
      obtain ⟨cls, -, -, unreserved⟩ := FreeLists.mem_of_fit fit
      exact mem_carved split member (differs _ unreserved)
  | grown missing grows split =>
      obtain ⟨-, -, unreserved, -⟩ := grows.start_facts valid.complete
      exact mem_carved split (grows.mem_later_of_reserved anchored valid.sound member reserved)
        (differs _ unreserved)

end Serves

/-! ## Release -/

section Releasing

variable (split : shape.blocks = front ++ info :: back)

include split

/-- A freed block has the mark that it had before. -/
theorem marked_of_withBlocks_freed
    (marked : (shape.withBlocks (front ++ info.freed :: back)).Marked closing place) :
    shape.Marked closing place := by
  have replaces : shape.Replaces (shape.withBlocks (front ++ info.freed :: back)).toLayout
      [info] [info.freed] := ⟨⟨front, back, split, rfl⟩, rfl⟩
  refine replaces.marked_of_later (fun new isNew reserved => ?_) marked
  rw [List.mem_singleton.1 isNew] at reserved ⊢
  exact ⟨info, List.mem_cons_self, reserved, rfl⟩

theorem marked_of_released (marked : (shape.released front info back).Marked closing place) :
    shape.Marked closing place ∧ place ≠ info.offset + info.size := by
  have freed : (shape.freed front info back).Marked closing place := marked
  rcases marked_marked freed with ⟨-, impossible⟩ | ⟨elsewhere, kept⟩
  · exact absurd impossible Bool.false_ne_true
  · exact ⟨marked_of_withBlocks_freed split kept, elsewhere⟩

theorem Anchored.released (anchored : shape.Anchored) (allocated : info.allocated = true) :
    (shape.released front info back).Anchored := by
  intro closing place marked
  obtain ⟨was, elsewhere⟩ := marked_of_released split marked
  obtain ⟨margin, handle, size, present, ends⟩ := anchored closing place was
  refine ⟨margin, handle, size, ?_, ends⟩
  rcases List.mem_cons.1 ((extents_released split allocated).subset present) with same | stays
  · cases same
    exact absurd ends.symm elsewhere
  · exact stays

end Releasing

namespace Releases

variable (releases : shape.Releases info later events) (sound : shape.Sound)

include releases sound

theorem marked_of_later (marked : later.Marked closing place) : shape.Marked closing place := by
  obtain ⟨split, merges⟩ := releases
  exact (marked_of_released split (merges.marked_of_later (blocks_freed sound split) marked)).1

variable (anchored : shape.Anchored) (allocated : info.allocated = true)

include anchored allocated

theorem anchored_later : later.Anchored := by
  obtain ⟨split, merges⟩ := releases
  exact merges.anchored_later (blocks_freed sound split) (anchored.released split allocated) rfl

/-- Releasing a block keeps all reserved blocks but the one behind it. -/
theorem stays (member : held ∈ shape.blocks) (reserved : held.reserved = true)
    (elsewhere : held.offset ≠ info.offset + info.size) : held.StaysIn later.blocks := by
  obtain @⟨front, back, start, later, events, split, merges⟩ := releases
  have releasedSound := sound_released sound split allocated
  have releasedAnchored := anchored.released split allocated
  have blocks := blocks_freed sound split
  by_cases own : held = info
  · subst held
    obtain ⟨startMember, handle, startReserved⟩ :=
      merges.start_of_reserved blocks releasedAnchored rfl releasedSound reserved
    refine ⟨start, startMember, handle, startReserved, fun free => ?_⟩
    rw [allocated] at free
    exact absurd free.symm Bool.false_ne_true
  have stays : held ∈ (shape.released front info back).blocks := by
    change held ∈ (shape.freed front info back).blocks
    rw [blocks]
    rw [split, List.mem_append, List.mem_cons] at member
    rcases member with inFront | isInfo | inBack
    · exact List.mem_append_left _ inFront
    · exact absurd isInfo own
    · refine List.mem_append_right _ (List.mem_cons_of_mem _ ?_)
      exact List.mem_map.2 ⟨held, inBack, BlockInfo.marked_of_ne elsewhere⟩
  have kept := merges.mem_later_of_reserved blocks releasedAnchored rfl releasedSound stays reserved
  refine BlockInfo.staysIn_of_mem (kept.resolve_right ?_) reserved
  rintro rfl
  exact own (sound.layout.tiles.eq_of_offset member (by simp [split]) rfl)

end Releases

/-! ## Growth in place -/

section Joining

variable (split : shape.blocks = front ++ (info :: run ++ back))

include split

theorem replaces_joined : shape.Replaces (shape.joined front info run back).toLayout
    (info :: run) [info.joined run] :=
  ⟨⟨front, back, split, rfl⟩, rfl⟩

/-- A mark behind the block before it was joined is a mark behind it only if nothing was joined. -/
theorem marked_of_joined (sound : shape.Sound) (allocated : info.allocated = true)
    (marked : (shape.joined front info run back).Marked closing place) :
    shape.Marked closing place ∧
      (place = info.offset + info.size → (info.joined run).size = info.size) := by
  constructor
  · refine (replaces_joined split).marked_of_later (fun new isNew reserved => ?_) marked
    rw [List.mem_singleton.1 isNew] at reserved
    exact absurd reserved Bool.false_ne_true
  · intro ends
    have wide := sound.wide (show info ∈ shape.blocks by simp [split])
    have size : (info.joined run).size = info.size + sizeSum run := rfl
    have outside := outside_of_marked (sound_joined sound split allocated) marked
      (List.mem_append_right front List.mem_cons_self)
    have offset : (info.joined run).offset = info.offset := rfl
    omega

theorem Anchored.joined (anchored : shape.Anchored) (sound : shape.Sound)
    (allocated : info.allocated = true) (free : AllFree run) :
    (shape.joined front info run back).Anchored := by
  intro closing place marked
  obtain ⟨was, unlessJoined⟩ := marked_of_joined split sound allocated marked
  obtain ⟨margin, handle, size, present, ends⟩ := anchored closing place was
  refine ⟨margin, handle, size, ?_, ends⟩
  obtain ⟨others, before, after⟩ := exchanges_joined split allocated free
  rcases List.mem_cons.1 (before.subset present) with same | stays
  · cases same
    have unchanged : sizeSum (info :: run) = info.size := unlessJoined ends.symm
    rw [unchanged] at after
    exact after.symm.subset List.mem_cons_self
  · exact after.symm.subset (List.mem_cons_of_mem _ stays)

/-- Joining a block with the run behind it keeps all reserved blocks but these two. -/
theorem mem_joined_of_reserved (anchored : shape.Anchored) (sound : shape.Sound)
    (free : AllFree run) (member : held ∈ shape.blocks) (reserved : held.reserved = true)
    (different : held ≠ info) (elsewhere : held.offset ≠ info.offset + info.size) :
    held ∈ (shape.joined front info run back).blocks := by
  refine ((replaces_joined split).mem_later member).resolve_right fun isOld => ?_
  have inRun := (List.mem_cons.1 isOld).resolve_left different
  cases run with
  | nil => cases inRun
  | cons next rest =>
      have place : next.offset = info.offset + info.size :=
        (sound.tiles_part split).2.1.2.2.1
      rcases List.mem_cons.1 inRun with rfl | inRest
      · exact elsewhere place
      · have shifted : shape.blocks = (front ++ [info]) ++ (next :: rest ++ back) := by
          simp [split]
        rw [anchored.unreserved_of_run sound shifted free inRest] at reserved
        exact Bool.false_ne_true reserved

end Joining

namespace Expands

variable {target : Nat} {result : BlockInfo}
  (expands : shape.Expands info target result later events) (valid : shape.Valid)

include expands valid

theorem marked_of_later (marked : later.Marked closing place) : shape.Marked closing place := by
  cases expands with
  | within runAt enough =>
      exact (marked_of_joined runAt.split valid.sound runAt.allocated marked).1
  | beyond runAt short grows laterRun enough =>
      exact grows.marked_of_later (marked_of_joined laterRun.split (grows.valid valid).sound
        laterRun.allocated marked).1

variable (anchored : shape.Anchored)

include anchored

theorem anchored_later : later.Anchored := by
  cases expands with
  | within runAt enough =>
      exact anchored.joined runAt.split valid.sound runAt.allocated runAt.free
  | beyond runAt short grows laterRun enough =>
      exact (grows.anchored_later anchored).joined laterRun.split (grows.valid valid).sound
        laterRun.allocated laterRun.free

theorem mem_later_of_reserved (member : held ∈ shape.blocks) (reserved : held.reserved = true)
    (different : held ≠ info) (elsewhere : held.offset ≠ info.offset + info.size) :
    held ∈ later.blocks := by
  cases expands with
  | within runAt enough =>
      exact mem_joined_of_reserved runAt.split anchored valid.sound runAt.free member reserved
        different elsewhere
  | beyond runAt short grows laterRun enough =>
      have middleMember := grows.mem_later_of_reserved anchored valid.sound member reserved
      exact mem_joined_of_reserved laterRun.split (grows.anchored_later anchored)
        (grows.valid valid).sound laterRun.free middleMember reserved different elsewhere

end Expands

/-! ## Moving -/

namespace Moves

variable {target : Nat} {fresh : BlockInfo} (moves : shape.Moves info target fresh later events)
  (valid : shape.Valid) (wide : 16 ≤ target) (grained : target % 8 = 0)

include moves valid wide grained

theorem marked_of_later (marked : later.Marked closing place) : shape.Marked closing place := by
  obtain ⟨serves, releases⟩ := moves
  have middleSound := (serves.valid_later valid wide grained).sound
  exact serves.marked_of_later (releases.marked_of_later middleSound marked)

variable (anchored : shape.Anchored) (allocated : info.allocated = true)

include anchored allocated

theorem anchored_later : later.Anchored := by
  obtain ⟨serves, releases⟩ := moves
  exact releases.anchored_later (serves.valid_later valid wide grained).sound
    (serves.anchored_later valid anchored) allocated

theorem stays (member : held ∈ shape.blocks) (reserved : held.reserved = true)
    (elsewhere : held.offset ≠ info.offset + info.size) : held.StaysIn later.blocks := by
  obtain ⟨serves, releases⟩ := moves
  exact releases.stays (serves.valid_later valid wide grained).sound
    (serves.anchored_later valid anchored) allocated
    (serves.mem_later_of_reserved valid anchored member reserved) reserved elsewhere

end Moves

/-! ## Resizing -/

section Reserving

variable {result : BlockInfo} {target : Nat}

/-- The only mark that is set is that behind the result. -/
theorem marked_of_reservedBehind
    (marked : (shape.reservedBehind result target).Marked closing place) :
    shape.Marked closing place ∨
      place = result.offset + result.size ∧ 0 < shape.policy.reserveMargin := by
  unfold reservedBehind at marked
  split at marked
  · rename_i close
    rcases marked_marked marked with ⟨atEnd, -⟩ | ⟨-, was⟩
    · exact .inr ⟨atEnd, Nat.zero_lt_of_lt close⟩
    · exact .inl was
  · exact .inl marked

theorem Anchored.reservedBehind (anchored : shape.Anchored)
    (present : (result.handle, result.size) ∈ shape.extents) (target : Nat) :
    (shape.reservedBehind result target).Anchored := by
  intro closing place marked
  rw [extents_reservedBehind, (same_setting_reservedBehind shape result target).policy]
  rcases marked_of_reservedBehind marked with was | ⟨atEnd, margin⟩
  · exact anchored closing place was
  · exact ⟨margin, result.handle, result.size, present, atEnd.symm⟩

theorem stays_reservedBehind (stays : held.StaysIn shape.blocks) (result : BlockInfo)
    (target : Nat) : held.StaysIn (shape.reservedBehind result target).blocks := by
  refine stays.trans fun after member reserved => BlockInfo.staysIn_of_mem ?_ reserved
  unfold Shape.reservedBehind
  split
  · exact mem_marked_of_reserved member reserved _
  · exact member

end Reserving

namespace Enlarges

variable {result : BlockInfo} {target request : Nat}
  (enlarges : shape.Enlarges info target request result later events)
  (valid : shape.Valid) (wide : 16 ≤ target) (grained : target % 8 = 0)

include enlarges valid wide grained

theorem marked_of_later (marked : later.Marked closing place) : shape.Marked closing place := by
  cases enlarges with
  | inPlace expands => exact expands.marked_of_later valid marked
  | moved blocked moves => exact moves.marked_of_later valid wide grained marked

variable (anchored : shape.Anchored)

include anchored

theorem anchored_later (allocated : info.allocated = true) : later.Anchored := by
  cases enlarges with
  | inPlace expands => exact expands.anchored_later valid anchored
  | moved blocked moves => exact moves.anchored_later valid wide grained anchored allocated

/-- Enlarging a block keeps all reserved blocks but the one behind it, and the block itself if it
grows where it is. -/
theorem stays (member : held ∈ shape.blocks) (reserved : held.reserved = true)
    (allocated : info.allocated = true) (elsewhere : held.offset ≠ info.offset + info.size)
    (unlessOwn : result.handle = info.handle → held ≠ info) : held.StaysIn later.blocks := by
  cases enlarges with
  | inPlace expands =>
      obtain ⟨sameHandle, -⟩ := expands.result_facts
      exact BlockInfo.staysIn_of_mem (expands.mem_later_of_reserved valid anchored member reserved
        (unlessOwn sameHandle) elsewhere) reserved
  | moved blocked moves =>
      exact moves.stays valid wide grained anchored allocated member reserved elsewhere

end Enlarges

namespace Resizes

variable {result : BlockInfo} {request : Nat}
  (resizes : shape.Resizes info request result later events) (valid : shape.Valid)
  (tuned : shape.policy.resizeSlack % 8 = 0)

include resizes valid tuned

theorem marked_of_later (marked : later.Marked closing place) :
    shape.Marked closing place ∨ place = result.offset + result.size := by
  cases resizes with
  | stays judged fits enough => exact (marked_of_reservedBehind marked).imp_right And.left
  | enlarged judged fits short enlarges =>
      obtain ⟨wide, grained, -⟩ := blockSizeFor_ok judged
      refine (marked_of_reservedBehind marked).imp (fun was => ?_) And.left
      exact enlarges.marked_of_later valid (by omega) (by omega) was

variable (anchored : shape.Anchored) (member : info ∈ shape.blocks)
  (allocated : info.allocated = true)

include anchored member allocated

theorem anchored_later : later.Anchored := by
  cases resizes with
  | stays judged fits enough =>
      exact anchored.reservedBehind (present_of_allocated member allocated) _
  | enlarged judged fits short enlarges =>
      obtain ⟨wide, grained, -⟩ := blockSizeFor_ok judged
      have exchanges := enlarges.exchanges valid (by omega) (by omega) member allocated
      exact (enlarges.anchored_later valid (by omega) (by omega) anchored allocated).reservedBehind
        (exchanges.mem_later List.mem_cons_self) _

/-- A resize keeps a reserved block, unless it moves or enlarges the block in front of that one, or
enlarges the reserved block itself where it is. -/
theorem stays_or_enlarges (heldMember : held ∈ shape.blocks) (reserved : held.reserved = true) :
    held.StaysIn later.blocks ∨ info.size < result.size ∧
      (held.offset = info.offset + info.size ∨ result.handle = info.handle ∧ held = info) := by
  cases resizes with
  | stays judged fits enough =>
      exact .inl (stays_reservedBehind (BlockInfo.staysIn_of_mem heldMember reserved) _ _)
  | enlarged judged fits short enlarges =>
      obtain ⟨wide, grained, -⟩ := blockSizeFor_ok judged
      obtain ⟨covers, -⟩ :=
        enlarges.result_facts valid (by omega) (by omega) member allocated
      by_cases lost : held.offset = info.offset + info.size ∨
          result.handle = info.handle ∧ held = info
      · exact .inr ⟨by omega, lost⟩
      · rw [not_or, not_and] at lost
        have stays := enlarges.stays valid (by omega) (by omega) anchored heldMember reserved
          allocated lost.1 lost.2
        exact .inl (stays_reservedBehind stays _ _)

end Resizes

end Shape

end TaggedHeap
