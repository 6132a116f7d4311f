import TaggedHeap.Proofs.Heap.Move

/-!
Contract: resizing in terms of shapes.

`Resizes` lists the ways in which a request is granted: the block stays, grows in place or moves,
and then the block behind the result may be reserved. `Rejects` lists the ways in which it fails,
none of which has changed the shape.
-/

namespace TaggedHeap

theorem BlockInfo.Admits.reserve {info next : BlockInfo} (admits : info.Admits next)
    (place : Nat) : (info.marked place true).Admits (next.marked place true) := by
  rcases admits with allocated | reserved | nextAllocated
  · exact .inl (BlockInfo.allocated_marked.trans allocated)
  · refine .inr (.inl ?_)
    unfold BlockInfo.marked
    split
    · rfl
    · exact reserved
  · exact .inr (.inr (BlockInfo.allocated_marked.trans nextAllocated))

namespace Shape

variable {shape middle later : Shape} {info result : BlockInfo} {target request : Nat}
  {events : List Event} {failure : Failure}

/-! ## Reserving the block behind -/

/-- The shape with the block behind the result reserved, if little room is left beyond
`target` bytes. -/
def reservedBehind (shape : Shape) (result : BlockInfo) (target : Nat) : Shape :=
  if result.size - target < shape.policy.reserveMargin then
    shape.marked (result.offset + result.size) true
  else
    shape

theorem same_setting_reservedBehind (shape : Shape) (result : BlockInfo) (target : Nat) :
    shape.SameSetting (shape.reservedBehind result target) := by
  unfold reservedBehind
  split <;> exact ⟨rfl, rfl, rfl⟩

theorem extents_reservedBehind (shape : Shape) (result : BlockInfo) (target : Nat) :
    (shape.reservedBehind result target).extents = shape.extents := by
  unfold reservedBehind
  split
  · exact extents_marked ..
  · rfl

theorem held_reservedBehind {index : Nat} :
    (shape.reservedBehind result target).Held index ↔ shape.Held index := by
  unfold reservedBehind
  split
  · exact held_marked
  · exact Iff.rfl

theorem Valid.reserve (valid : shape.Valid) (place : Nat) : (shape.marked place true).Valid where
  sound := valid.sound.marked place true
  complete := by
    intro info member free
    obtain ⟨original, inBlocks, rfl⟩ := List.mem_map.1 member
    rw [BlockInfo.allocated_marked] at free
    rw [BlockInfo.cls_marked]
    exact FreeLists.mem_marked.2 ⟨original, valid.complete original inBlocks free, rfl⟩
  separated := by
    apply (List.isChain_map _).2
    exact valid.separated.imp fun _ _ admits => admits.reserve place

theorem valid_reservedBehind (valid : shape.Valid) (result : BlockInfo) (target : Nat) :
    (shape.reservedBehind result target).Valid := by
  unfold reservedBehind
  split
  · exact valid.reserve _
  · exact valid

theorem does_reserveBehind (sound : shape.Sound)
    (present : (result.handle, result.size) ∈ shape.extents) (target : Nat) :
    shape.Does (Heap.reserveBehind result.block target) () (shape.reservedBehind result target) []
      shape.Held := by
  obtain ⟨info, member, -, sameHandle, sameSize⟩ := mem_extents.1 present
  have sameOffset : info.offset = result.offset := congrArg Handle.offset sameHandle
  have sameBlock : info.block = result.block := congrArg Block.mk sameOffset
  obtain ⟨front, back, split⟩ := List.append_of_mem member
  have cut : shape.blocks = (front ++ [info]) ++ back := by simp [split]
  have tiles := sound.layout.tiles
  rw [split] at tiles
  obtain ⟨inFront, sized, -⟩ := tiles.middle
  rw [Heap.reserveBehind, reservedBehind, ← sameBlock, ← sameOffset, ← sameSize]
  apply Does.bind_read (sees_size sound member)
  apply Does.bind_get
  intro heap shows
  rw [shows.policy]
  split
  · apply Does.bind_read (sees_next sound member)
    exact does_setReserved sound cut (Tiles.of_middle inFront sized rfl) true
  · exact Does.pure _ _ _

/-- The last steps of a resize. -/
theorem grants_finish (sound : shape.Sound)
    (present : (result.handle, result.size) ∈ shape.extents) (target offset request : Nat) :
    shape.Grants
      (do
        Heap.reserveBehind result.block target
        Heap.report (.resized offset request result.offset)
        return result.block)
      result.block (shape.reservedBehind result target) [.resized offset request result.offset]
      shape.Held := by
  apply (Grants.lift (does_reserveBehind sound present target)).bind
  rw [← List.append_nil [_]]
  apply (Grants.lift (Does.report _ _ _)).bind
  exact Grants.pure _ _ _

/-! ## Enlarging -/

/-- How a block is enlarged to at least `target` bytes. -/
inductive Enlarges (shape : Shape) (info : BlockInfo) (target request : Nat) :
    BlockInfo → Shape → List Event → Prop where
  | inPlace {result : BlockInfo} {later : Shape} {events : List Event}
      (expands : shape.Expands info target result later events) :
      Enlarges shape info target request result later
        (events ++ [.grewInPlace info.offset request])
  | moved {fresh : BlockInfo} {later : Shape} {events : List Event}
      (blocked : shape.Blocked info target) (moves : shape.Moves info target fresh later events) :
      Enlarges shape info target request fresh later
        (events ++ [.moved info.offset request fresh.offset])

/-- Why a block cannot be enlarged to `target` bytes. -/
inductive Withholds (shape : Shape) (info : BlockInfo) (target : Nat) :
    Failure → List Event → Prop where
  | confined {failure : Failure} {events : List Event}
      (confined : shape.Confined info target failure events) :
      Withholds shape info target failure events
  | lacking {failure : Failure} {events : List Event} (blocked : shape.Blocked info target)
      (lacks : shape.Lacks target failure events) : Withholds shape info target failure events

theorem enlarges_or_withholds (valid : shape.Valid) (member : info ∈ shape.blocks)
    (allocated : info.allocated = true) (target request : Nat) (wide : 16 ≤ target)
    (grained : target % 8 = 0) :
    (∃ result later events, shape.Enlarges info target request result later events) ∨
      ∃ failure events, shape.Withholds info target failure events := by
  rcases expands_or_not member allocated target with
    ⟨result, later, events, expands⟩ | blocked | ⟨failure, events, confined⟩
  · exact .inl ⟨_, _, _, .inPlace expands⟩
  · rcases serves_or_lacks valid target with
      ⟨fresh, middle, events, serves⟩ | ⟨failure, events, lacks⟩
    · have middleValid := serves.valid_later valid wide grained
      have middleMember := (serves.mem_later valid middleValid.sound member allocated).1
      obtain ⟨later, more, releases⟩ := exists_releases middleMember
      exact .inl ⟨_, _, _, .moved blocked (.intro serves releases)⟩
    · exact .inr ⟨_, _, .lacking blocked lacks⟩
  · exact .inr ⟨_, _, .confined confined⟩

theorem Withholds.denies (withholds : shape.Withholds info target failure events)
    (sound : shape.Sound) (request : Nat) :
    shape.Denies (Heap.enlarge info.handle info.block info.size target request) failure
      events := by
  rw [Heap.enlarge]
  cases withholds with
  | confined confined => exact (confined.denies sound).bind _
  | lacking blocked lacks =>
      apply Denies.after_idle (blocked.idles sound)
      rw [if_neg Bool.false_ne_true, Heap.move]
      exact (lacks.denies sound).bind _

namespace Enlarges

variable (enlarges : shape.Enlarges info target request result later events)

include enlarges

theorem same_setting : shape.SameSetting later := by
  cases enlarges with
  | inPlace expands => exact expands.same_setting
  | moved blocked moves => exact moves.same_setting

variable (valid : shape.Valid) (wide : 16 ≤ target) (grained : target % 8 = 0)
  (member : info ∈ shape.blocks) (allocated : info.allocated = true)

include valid wide grained

theorem valid_later (allocated : info.allocated = true) : later.Valid := by
  cases enlarges with
  | inPlace expands => exact expands.valid_later valid
  | moved blocked moves => exact moves.valid_later valid wide grained allocated

include member allocated

theorem exchanges : shape.Exchanges later [(info.handle, info.size)]
    [(result.handle, result.size)] := by
  cases enlarges with
  | inPlace expands => exact expands.exchanges
  | moved blocked moves => exact moves.exchanges valid wide grained member allocated

/-- A block that stays where it is does not shrink. -/
theorem result_facts : target ≤ result.size ∧
    (result.handle = info.handle → info.size ≤ result.size) := by
  cases enlarges with
  | inPlace expands =>
      obtain ⟨-, enough, longer, -⟩ := expands.result_facts
      exact ⟨enough, fun _ => longer⟩
  | moved blocked moves =>
      obtain ⟨enough, different⟩ := moves.result_facts valid wide grained member allocated
      exact ⟨enough, fun same => absurd same different⟩

theorem carries (enough : request + 8 ≤ target) :
    shape.Carries (Heap.enlarge info.handle info.block info.size target request) result.block
      later events (fun index => shape.Held index ∧ later.Held index) info.offset result.offset
      (min (info.size - 8) request) := by
  rw [Heap.enlarge]
  cases enlarges with
  | inPlace expands =>
      obtain ⟨sameHandle, -, -, -⟩ := expands.result_facts
      have sameOffset : result.offset = info.offset := congrArg Handle.offset sameHandle
      have sameBlock : result.block = info.block := congrArg Block.mk sameOffset
      rw [sameOffset, sameBlock]
      have present := present_of_allocated member allocated
      have keeps : ∀ index < min (info.size - 8) request, shape.Held (info.offset + index) :=
        fun index below => held_of_present present (by omega)
      have growing := (Carries.of_grants (expands.grants valid) keeps).weaken
        fun index (held : shape.Held index ∧ later.Held index) => held.1
      refine growing.bind ?_ (fun index => And.right) ?_
      · rw [if_pos rfl, ← List.append_nil [_]]
        apply (Grants.lift (Does.report _ _ _)).bind
        exact Grants.pure _ _ _
      · exact fun index below => expands.held_later valid (keeps index below)
  | moved blocked moves =>
      apply Carries.after_idle (blocked.idles valid.sound)
      rw [if_neg Bool.false_ne_true]
      exact moves.carries valid wide grained member allocated enough

end Enlarges

/-! ## Resizing -/

/-- How the payload of an allocated block is resized to at least `request` bytes. -/
inductive Resizes (shape : Shape) (info : BlockInfo) (request : Nat) :
    BlockInfo → Shape → List Event → Prop where
  | stays {needed : Nat} (judged : blockSizeFor request = .ok needed)
      (fits : needed + shape.policy.resizeSlack ≤ maxBlock) (enough : needed ≤ info.size) :
      Resizes shape info request info
        (shape.reservedBehind info (needed + shape.policy.resizeSlack))
        [.resized info.offset request info.offset]
  | enlarged {needed : Nat} {result : BlockInfo} {middle : Shape} {events : List Event}
      (judged : blockSizeFor request = .ok needed)
      (fits : needed + shape.policy.resizeSlack ≤ maxBlock) (short : info.size < needed)
      (enlarges : shape.Enlarges info (needed + shape.policy.resizeSlack) request result middle
        events) :
      Resizes shape info request result
        (middle.reservedBehind result (needed + shape.policy.resizeSlack))
        (events ++ [.resized info.offset request result.offset])

/-- Why the payload of a block cannot be resized to `request` bytes. -/
inductive Rejects (shape : Shape) (info : BlockInfo) (request : Nat) :
    Failure → List Event → Prop where
  | excessive {failure : Failure} (judged : blockSizeFor request = .error failure) :
      Rejects shape info request failure []
  | padded {needed : Nat} (judged : blockSizeFor request = .ok needed)
      (exceeds : maxBlock < needed + shape.policy.resizeSlack) :
      Rejects shape info request (.tooLarge request) []
  | withheld {needed : Nat} {failure : Failure} {events : List Event}
      (judged : blockSizeFor request = .ok needed)
      (fits : needed + shape.policy.resizeSlack ≤ maxBlock) (short : info.size < needed)
      (withholds : shape.Withholds info (needed + shape.policy.resizeSlack) failure events) :
      Rejects shape info request failure events

theorem resizes_or_rejects (valid : shape.Valid) (tuned : shape.policy.resizeSlack % 8 = 0)
    (member : info ∈ shape.blocks) (allocated : info.allocated = true) (request : Nat) :
    (∃ result later events, shape.Resizes info request result later events) ∨
      ∃ failure events, shape.Rejects info request failure events := by
  cases judged : blockSizeFor request with
  | error failure => exact .inr ⟨_, _, .excessive judged⟩
  | ok needed =>
      obtain ⟨wide, grained, -⟩ := blockSizeFor_ok judged
      rcases Nat.lt_or_ge maxBlock (needed + shape.policy.resizeSlack) with exceeds | fits
      · exact .inr ⟨_, _, .padded judged exceeds⟩
      · rcases Nat.lt_or_ge info.size needed with short | enough
        · rcases enlarges_or_withholds valid member allocated
              (needed + shape.policy.resizeSlack) request (by omega) (by omega) with
            ⟨result, later, events, enlarges⟩ | ⟨failure, events, withholds⟩
          · exact .inl ⟨_, _, _, .enlarged judged fits short enlarges⟩
          · exact .inr ⟨_, _, .withheld judged fits short withholds⟩
        · exact .inl ⟨_, _, _, .stays judged fits enough⟩

theorem Rejects.denies (rejects : shape.Rejects info request failure events)
    (sound : shape.Sound) (member : info ∈ shape.blocks) :
    shape.Denies (Heap.resizeBlock info.handle request) failure events := by
  rw [Heap.resizeBlock]
  cases rejects with
  | excessive judged =>
      exact (Denies.answer judged).bind _
  | padded judged exceeds =>
      apply Denies.after_idle (Idles.answer judged)
      apply Denies.bind_get
      intro heap shows
      dsimp only
      rw [shows.policy, if_pos exceeds]
      exact (Denies.throw shape _).bind _
  | @withheld needed _ _ judged fits short withholds =>
      apply Denies.after_idle (Idles.answer judged)
      apply Denies.bind_get
      intro heap shows
      dsimp only
      rw [shows.policy, if_neg (Nat.not_lt.2 fits)]
      apply Denies.bind_except (Block.ofOffset_of_mod (sound.offset_mod member))
      apply Denies.bind_read (sees_size sound member)
      rw [if_neg (Nat.not_le.2 short)]
      exact (withholds.denies sound request).bind _

namespace Resizes

variable (resizes : shape.Resizes info request result later events)

include resizes

theorem same_setting : shape.SameSetting later := by
  cases resizes with
  | stays judged fits enough => exact same_setting_reservedBehind ..
  | enlarged judged fits short enlarges =>
      exact enlarges.same_setting.trans (same_setting_reservedBehind ..)

variable (valid : shape.Valid) (tuned : shape.policy.resizeSlack % 8 = 0)
  (member : info ∈ shape.blocks) (allocated : info.allocated = true)

include valid tuned

theorem valid_later (allocated : info.allocated = true) : later.Valid := by
  cases resizes with
  | stays judged fits enough => exact valid_reservedBehind valid _ _
  | enlarged judged fits short enlarges =>
      obtain ⟨wide, grained, -⟩ := blockSizeFor_ok judged
      exact valid_reservedBehind
        (enlarges.valid_later valid (by omega) (by omega) allocated) _ _

include member allocated

theorem exchanges : shape.Exchanges later [(info.handle, info.size)]
    [(result.handle, result.size)] := by
  cases resizes with
  | stays judged fits enough =>
      have without := List.perm_cons_erase (present_of_allocated member allocated)
      refine ⟨_, without, ?_⟩
      rw [extents_reservedBehind]
      exact without
  | enlarged judged fits short enlarges =>
      obtain ⟨wide, grained, -⟩ := blockSizeFor_ok judged
      rw [Exchanges, extents_reservedBehind]
      exact enlarges.exchanges valid (by omega) (by omega) member allocated

/-- The result holds the request, and a block that stays where it is does not shrink. -/
theorem result_facts : request + 8 ≤ result.size ∧
    (result.handle = info.handle → info.size ≤ result.size) := by
  cases resizes with
  | stays judged fits enough =>
      obtain ⟨-, -, holds, -⟩ := blockSizeFor_ok judged
      exact ⟨Nat.le_trans holds enough, fun _ => Nat.le_refl _⟩
  | enlarged judged fits short enlarges =>
      obtain ⟨wide, grained, holds, -⟩ := blockSizeFor_ok judged
      obtain ⟨covers, longer⟩ :=
        enlarges.result_facts valid (by omega) (by omega) member allocated
      exact ⟨by omega, longer⟩

theorem carries :
    shape.Carries (Heap.resizeBlock info.handle request) result.block later events
      (fun index => shape.Held index ∧ later.Held index) info.offset result.offset
      (min (info.size - 8) request) := by
  have sound := valid.sound
  have sees := sees_size sound member
  have named := Block.ofOffset_of_mod (sound.offset_mod member)
  have infoWide := sound.wide member
  have present := present_of_allocated member allocated
  rw [Heap.resizeBlock]
  cases resizes with
  | @stays needed judged fits enough =>
      have keeps : ∀ index < min (info.size - 8) request, shape.Held (info.offset + index) :=
        fun index below => held_of_present present (by omega)
      have finishing := grants_finish sound present (needed + shape.policy.resizeSlack)
        info.offset request
      apply Carries.after_idle (Idles.answer judged)
      apply Carries.bind_get
      intro heap shows
      dsimp only
      rw [shows.policy, if_neg (Nat.not_lt.2 fits)]
      apply Carries.bind_except named
      apply Carries.bind_read sees
      rw [if_pos enough]
      apply Carries.after_idle (Idles.pure shape info.block)
      exact (Carries.of_grants finishing keeps).weaken fun _ => And.left
  | @enlarged needed result middle events judged fits short enlarges =>
      obtain ⟨wide, grained, holds, -⟩ := blockSizeFor_ok judged
      have middleValid := enlarges.valid_later valid (by omega) (by omega) allocated
      have enlarging := enlarges.carries valid (by omega) (by omega) member allocated (by omega)
      obtain ⟨covers, -⟩ := enlarges.result_facts valid (by omega) (by omega) member allocated
      have exchanges := enlarges.exchanges valid (by omega) (by omega) member allocated
      have present : (result.handle, result.size) ∈ middle.extents :=
        exchanges.mem_later List.mem_cons_self
      have finishing := grants_finish middleValid.sound present
        (needed + shape.policy.resizeSlack) info.offset request
      apply Carries.after_idle (Idles.answer judged)
      apply Carries.bind_get
      intro heap shows
      dsimp only
      rw [shows.policy, if_neg (Nat.not_lt.2 fits)]
      apply Carries.bind_except named
      apply Carries.bind_read sees
      rw [if_neg (Nat.not_le.2 short)]
      refine Carries.bind (enlarging.weaken ?_) finishing (fun _ => ?_) ?_
      · exact fun index held => ⟨held.1, held_reservedBehind.1 held.2⟩
      · exact fun held => held_reservedBehind.1 held.2
      · exact fun index below => held_of_present present (by omega)

theorem carries_resize (something : request ≠ 0) :
    shape.Carries (Heap.resize (some info.handle) request) (some result.handle) later events
      (fun index => shape.Held index ∧ later.Held index) info.offset result.offset
      (min (info.size - 8) request) := by
  obtain ⟨covers, -⟩ := resizes.result_facts valid tuned member allocated
  have exchanges := resizes.exchanges valid tuned member allocated
  have present : (result.handle, result.size) ∈ later.extents :=
    exchanges.mem_later List.mem_cons_self
  have resizing := resizes.carries valid tuned member allocated
  rw [Heap.resize, if_neg something, ← List.append_nil events]
  apply resizing.bind (Grants.pure later (some result.handle) later.Held) (fun _ => And.right)
  exact fun index below => held_of_present present (by omega)

end Resizes

end Shape

end TaggedHeap
