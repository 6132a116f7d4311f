import TaggedHeap.Proofs.Shape.Valid

/-!
Contract: reserving a block and clearing the mark.

The mark is one bit of one header, and a block may be marked whether it is allocated, free and
listed, or the epilogue. Nothing else of a shape depends on it. The main statement is
`does_setReserved`, at any offset where a block or the epilogue begins.
-/

namespace TaggedHeap

/-- The block with another mark, if it begins at `place`. -/
def BlockInfo.marked (place : Nat) (reserved : Bool) (info : BlockInfo) : BlockInfo :=
  if info.offset = place then { info with reserved := reserved } else info

namespace BlockInfo

variable {place : Nat} {reserved : Bool} {info other : BlockInfo}

theorem marked_of_ne (different : info.offset ≠ place) : info.marked place reserved = info :=
  if_neg different

theorem marked_self (info : BlockInfo) (reserved : Bool) :
    info.marked info.offset reserved = { info with reserved := reserved } :=
  if_pos rfl

@[simp] theorem handle_marked : (info.marked place reserved).handle = info.handle := by
  unfold marked
  split <;> rfl

@[simp] theorem offset_marked : (info.marked place reserved).offset = info.offset :=
  congrArg Handle.offset handle_marked

@[simp] theorem size_marked : (info.marked place reserved).size = info.size := by
  unfold marked
  split <;> rfl

@[simp] theorem allocated_marked : (info.marked place reserved).allocated = info.allocated := by
  unfold marked
  split <;> rfl

@[simp] theorem block_marked : (info.marked place reserved).block = info.block := by
  unfold marked
  split <;> rfl

@[simp] theorem cls_marked : (info.marked place reserved).cls = info.cls := by
  unfold marked
  split <;> rfl

theorem apart_marked : (info.marked place reserved).Apart (other.marked place reserved) ↔
    info.Apart other := by
  simp only [Apart, offset_marked, size_marked]

end BlockInfo

/-! ## The mark in a region -/

/-- Replaces the mark in the header at `place`. -/
def Region.mark (region : Region) (place : Nat) (reserved : Bool) : Region :=
  region.setWord (place - 4) (Tag.markWord (region.word (place - 4)) reserved)

namespace Region

variable {region : Region} {place : Nat} {reserved : Bool} {info : BlockInfo}

@[simp] theorem size_mark (region : Region) (place : Nat) (reserved : Bool) :
    (region.mark place reserved).size = region.size :=
  size_setWord ..

@[simp] theorem limit_mark (region : Region) (place : Nat) (reserved : Bool) :
    (region.mark place reserved).limit = region.limit :=
  limit_setWord ..

theorem byte_mark_of_outside (above : 4 ≤ place) {index : Nat}
    (outside : index + 4 < place ∨ place ≤ index) :
    (region.mark place reserved).byte index = region.byte index :=
  byte_setWord_of_outside _ _ (by omega)

/-- Reserving a block again changes no byte. -/
theorem byte_mark_of_reserved (reserved : (region.headerTag place).reserved = true) (index : Nat) :
    (region.mark place true).byte index = region.byte index := by
  rw [mark, Tag.markWord_of_reserved reserved]
  exact byte_setWord_word ..

theorem headerTag_mark_self (above : 4 ≤ place) (inside : place ≤ region.size) :
    (region.mark place reserved).headerTag place =
      { region.headerTag place with reserved := reserved } := by
  rw [headerTag, mark, word_setWord _ _ (by omega), Tag.ofWord_markWord]
  rfl

theorem headerTag_mark_of_ne {other : Nat} (above : 4 ≤ place) (otherAbove : 4 ≤ other)
    (aligned : place % 8 = 0) (otherAligned : other % 8 = 0) (different : other ≠ place) :
    (region.mark place reserved).headerTag other = region.headerTag other := by
  apply headerTag_congr otherAbove
  intro index lower upper
  exact byte_mark_of_outside above (by omega)

theorem Holds.mark (holds : region.Holds info) (above : 8 ≤ place) (infoAbove : 8 ≤ info.offset)
    (aligned : place % 8 = 0) (infoAligned : info.offset % 8 = 0) (wide : 8 ≤ info.size)
    (grained : info.size % 8 = 0) (inside : place ≤ region.size) :
    (region.mark place reserved).Holds (info.marked place reserved) where
  header := by
    rw [BlockInfo.offset_marked]
    by_cases same : info.offset = place
    · subst place
      rw [headerTag_mark_self (by omega) inside, holds.header, BlockInfo.marked_self]
      rfl
    · rw [headerTag_mark_of_ne (by omega) (by omega) aligned infoAligned same, holds.header,
        BlockInfo.marked_of_ne same]
  footer := by
    have footTag : (info.marked place reserved).footTag = info.footTag := by
      simp only [BlockInfo.footTag, BlockInfo.size_marked, BlockInfo.allocated_marked]
    rw [footTag, ← holds.footer, BlockInfo.offset_marked, BlockInfo.size_marked]
    apply footerTag_congr (by omega)
    intro index lower upper
    exact byte_mark_of_outside (by omega) (by omega)

end Region

/-! ## The mark in the lists -/

theorem firstOr_map (change : BlockInfo → BlockInfo)
    (same : ∀ info, (change info).block = info.block) (members : List BlockInfo)
    (next : Option Block) : firstOr (members.map change) next = firstOr members next := by
  cases members with
  | nil => rfl
  | cons info rest => exact congrArg some (same info)

theorem linked_map (change : BlockInfo → BlockInfo)
    (same : ∀ info, (change info).block = info.block) {region : Region}
    {members : List BlockInfo} {previous next : Option Block} :
    Linked region previous (members.map change) next ↔ Linked region previous members next := by
  induction members generalizing previous with
  | nil => exact Iff.rfl
  | cons info rest inductionHypothesis =>
      rw [List.map_cons, Linked, Linked, same, firstOr_map change same, inductionHypothesis]

namespace FreeLists

/-- The lists with another mark on the member that begins at `place`. -/
def marked (lists : FreeLists) (place : Nat) (reserved : Bool) : FreeLists :=
  fun cls => (lists cls).map (BlockInfo.marked place reserved)

variable {lists : FreeLists} {region : Region} {heads : Vector (Option Block) 20}
  {place : Nat} {reserved : Bool}

theorem mem_marked {info : BlockInfo} {cls : SizeClass} :
    info ∈ lists.marked place reserved cls ↔
      ∃ member ∈ lists cls, member.marked place reserved = info :=
  List.mem_map

theorem Orderly.marked (orderly : lists.Orderly)
    (distinct : ∀ {cls info other}, info ∈ lists cls → other ∈ lists cls →
      info.offset = other.offset → info = other) :
    (lists.marked place reserved).Orderly where
  free member := by
    obtain ⟨info, inList, rfl⟩ := mem_marked.1 member
    rw [BlockInfo.allocated_marked]
    exact orderly.free inList
  classed member := by
    obtain ⟨info, inList, rfl⟩ := mem_marked.1 member
    rw [BlockInfo.cls_marked]
    exact orderly.classed inList
  sorted cls := by
    apply (orderly.sorted cls).map
    intro info other noLarger
    rw [BlockInfo.NoLarger, BlockInfo.size_marked, BlockInfo.size_marked]
    exact noLarger
  distinct cls := by
    apply (orderly.distinct cls).map_on
    intro info member other otherMember same
    have sameOffset := congrArg BlockInfo.offset same
    rw [BlockInfo.offset_marked, BlockInfo.offset_marked] at sameOffset
    exact distinct member otherMember sameOffset
  apart member otherMember := by
    obtain ⟨info, inList, rfl⟩ := mem_marked.1 member
    obtain ⟨other, otherInList, rfl⟩ := mem_marked.1 otherMember
    rcases orderly.apart inList otherInList with rfl | apart
    · exact .inl rfl
    · exact .inr (BlockInfo.apart_marked.2 apart)

/-- A mark lies in no links. -/
theorem Stored.marked (stored : Stored region heads lists) (above : 8 ≤ place)
    (aligned : place % 8 = 0) (inside : place ≤ region.size)
    (membersAligned : ∀ {cls info}, info ∈ lists cls → info.offset % 8 = 0)
    (boundary : ∀ {cls info}, info ∈ lists cls →
      info.offset + info.size ≤ place ∨ place ≤ info.offset) :
    Stored (region.mark place reserved) heads (lists.marked place reserved) where
  resident member := by
    obtain ⟨info, inList, rfl⟩ := mem_marked.1 member
    have resident := stored.resident inList
    refine ⟨by simpa using resident.above, by simpa using resident.wide,
      by simpa using resident.inside, by simpa using resident.encodable, ?_⟩
    rw [BlockInfo.offset_marked]
    by_cases same : info.offset = place
    · subst place
      rw [Region.headerTag_mark_self (by omega) inside, resident.header, BlockInfo.marked_self]
      rfl
    · rw [Region.headerTag_mark_of_ne (by omega) resident.above aligned (membersAligned inList)
        same, resident.header, BlockInfo.marked_of_ne same]
  first cls := by
    rw [FreeLists.marked, firstOr_map _ fun _ => BlockInfo.block_marked]
    exact stored.first cls
  linked cls := by
    rw [FreeLists.marked, linked_map _ fun _ => BlockInfo.block_marked]
    apply (stored.linked cls).congr
    intro info member
    have wide := (stored.resident member).wide
    have apart := boundary member
    apply Region.linksAt_congr
    intro index lower upper
    rw [BlockInfo.offset_block] at lower upper
    exact Region.byte_mark_of_outside (by omega) (by omega)

end FreeLists

/-! ## The mark in a shape -/

theorem Tiles.marked {start stop : Nat} {blocks : List BlockInfo}
    (tiles : Tiles start blocks stop) (place : Nat) (reserved : Bool) :
    Tiles start (blocks.map (BlockInfo.marked place reserved)) stop := by
  induction blocks generalizing start with
  | nil => exact tiles
  | cons info rest inductionHypothesis =>
      obtain ⟨lies, sized, behind⟩ := tiles
      refine ⟨BlockInfo.offset_marked.trans lies, ⟨?_, ?_⟩, ?_⟩
      · rw [BlockInfo.size_marked]
        exact sized.wide
      · rw [BlockInfo.size_marked]
        exact sized.grained
      · rw [BlockInfo.size_marked]
        exact inductionHypothesis behind

/-- No block is marked where none begins. -/
theorem map_marked_of_tiles {start stop place : Nat} {reserved : Bool} {blocks : List BlockInfo}
    (tiles : Tiles start blocks stop) (outside : stop ≤ place ∨ place < start) :
    blocks.map (BlockInfo.marked place reserved) = blocks := by
  induction blocks generalizing start with
  | nil => rfl
  | cons info rest inductionHypothesis =>
      obtain ⟨lies, sized, behind⟩ := tiles
      have wide := sized.wide
      have upTo := behind.le
      rw [List.map_cons, BlockInfo.marked_of_ne (by omega),
        inductionHypothesis behind (by omega)]

namespace Shape

/-- The shape with another mark on the block or the epilogue that begins at `place`. -/
def marked (shape : Shape) (place : Nat) (reserved : Bool) : Shape :=
  { shape with
    blocks := shape.blocks.map (BlockInfo.marked place reserved)
    stopReserved := if place = shape.stop then reserved else shape.stopReserved
    lists := shape.lists.marked place reserved }

variable {shape : Shape} {place : Nat} {reserved : Bool} {front back : List BlockInfo}

theorem Sound.marked (sound : shape.Sound) (place : Nat) (reserved : Bool) :
    (shape.marked place reserved).Sound where
  layout := ⟨sound.layout.aligned, sound.layout.above, sound.layout.tiles.marked place reserved,
    sound.layout.encodable⟩
  orderly := sound.orderly.marked fun member otherMember same =>
    sound.layout.tiles.eq_of_offset (sound.listed member) (sound.listed otherMember) same
  listed listed := by
    obtain ⟨info, inList, rfl⟩ := FreeLists.mem_marked.1 listed
    exact List.mem_map_of_mem (sound.listed inList)

theorem marked_blocks_split {middle : Nat} (split : shape.blocks = front ++ back)
    (inFront : Tiles shape.start front middle) (reserved : Bool) :
    (shape.marked middle reserved).blocks =
      front ++ back.map (BlockInfo.marked middle reserved) := by
  change shape.blocks.map _ = _
  rw [split, List.map_append, map_marked_of_tiles inFront (.inl (Nat.le_refl _))]

/-- The header behind the first blocks says what was marked there. -/
theorem reserved_of_shows_marked (sound : shape.Sound) (split : shape.blocks = front ++ back)
    (inFront : Tiles shape.start front place) {heap : Heap}
    (shows : heap.Shows (shape.marked place reserved)) :
    (heap.region.headerTag place).reserved = reserved := by
  have tiles := sound.layout.tiles
  rw [split, tiles_append] at tiles
  obtain ⟨middle, tilesFront, behind⟩ := tiles
  obtain rfl : place = middle := inFront.stop_eq.trans tilesFront.stop_eq.symm
  have marked := marked_blocks_split split inFront reserved
  have header := shows.lays.lead_header (behind.marked place reserved)
    (fun info member => by simp [marked, member])
  rw [header]
  cases back with
  | nil => exact if_pos behind
  | cons first rest =>
      have begins : first.offset = place := behind.1
      change (first.marked place reserved).reserved = reserved
      rw [← begins, BlockInfo.marked_self]

theorem extents_marked (shape : Shape) (place : Nat) (reserved : Bool) :
    (shape.marked place reserved).extents = shape.extents := by
  have kept : (shape.marked place reserved).allocated =
      shape.allocated.map (BlockInfo.marked place reserved) := by
    rw [allocated, marked, List.filter_map]
    exact congrArg (List.map _) (List.filter_congr fun info _ => BlockInfo.allocated_marked)
  rw [extents, kept, List.map_map]
  apply List.map_congr_left
  intro info _
  rw [Function.comp_apply, BlockInfo.handle_marked, BlockInfo.size_marked]

theorem held_marked {index : Nat} :
    (shape.marked place reserved).Held index ↔ shape.Held index := by
  simp [marked, Layout.Held]

/-- No block reaches over the seam behind the first blocks. -/
theorem seam_of_split (sound : shape.Sound) (split : shape.blocks = front ++ back)
    (inFront : Tiles shape.start front place) :
    place ≤ shape.stop ∧ ∀ info ∈ shape.blocks,
      info.offset + info.size ≤ place ∨ place ≤ info.offset := by
  have tiles := sound.layout.tiles
  rw [split, tiles_append] at tiles
  obtain ⟨middle, tilesFront, behind⟩ := tiles
  obtain rfl : place = middle := inFront.stop_eq.trans tilesFront.stop_eq.symm
  refine ⟨behind.le, fun info member => ?_⟩
  rw [split, List.mem_append] at member
  rcases member with isFront | isBack
  · exact .inl (inFront.le_stop_of_mem isFront)
  · exact .inr (behind.start_le_of_mem isBack)

theorem lays_marked (sound : shape.Sound) {region : Region} (lays : region.Lays shape.toLayout)
    (lower : shape.start ≤ place) (upper : place ≤ shape.stop) (aligned : place % 8 = 0)
    (reserved : Bool) :
    (region.mark place reserved).Lays (shape.marked place reserved).toLayout := by
  have above := sound.layout.above
  refine ⟨(Region.size_mark ..).trans lays.size, ?_, ?_, ?_⟩
  · apply lays.prologue.congr (show 4 ≤ shape.start - 8 by omega) (Nat.le_refl 8)
    · intro index _ below
      have below : index < shape.start - 8 := below
      exact Region.byte_mark_of_outside (by omega) (by omega)
    · intro index _ below
      have below : index + 4 < shape.start - 8 + 8 := below
      exact Region.byte_mark_of_outside (by omega) (by omega)
  · intro info member
    obtain ⟨original, inBlocks, rfl⟩ := List.mem_map.1 member
    have size : region.size = shape.stop := lays.size
    have wide := sound.wide inBlocks
    have originalAbove := sound.above inBlocks
    exact (lays.blocks original inBlocks).mark (by omega) (by omega) aligned
      (sound.offset_mod inBlocks) (by omega) (sound.grained inBlocks) (by omega)
  · change (region.mark place reserved).headerTag shape.stop =
      ⟨0, true, if place = shape.stop then reserved else shape.stopReserved⟩
    have size : region.size = shape.stop := lays.size
    have last := lays.epilogue
    by_cases atEnd : place = shape.stop
    · subst place
      rw [Region.headerTag_mark_self (by omega) (by omega), last, if_pos rfl]
      rfl
    · rw [Region.headerTag_mark_of_ne (by omega) (by omega) aligned
        (sound.layout.tiles.stop_mod sound.layout.aligned) (Ne.symm atEnd), last, if_neg atEnd]
      rfl

/-- Marking the block or the epilogue behind the first blocks. -/
theorem does_setReserved (sound : shape.Sound) (split : shape.blocks = front ++ back)
    (inFront : Tiles shape.start front place) (reserved : Bool) :
    shape.Does (liftM (Block.setReserved ⟨place⟩ reserved)) () (shape.marked place reserved) []
      shape.Held := by
  have above := sound.layout.above
  have aligned := inFront.stop_mod sound.layout.aligned
  have lower := inFront.le
  obtain ⟨upper, boundary⟩ := seam_of_split sound split inFront
  intro before shows
  have size : before.region.size = shape.stop := shows.lays.size
  have ran : Block.setReserved ⟨place⟩ reserved before.region =
      .ok () (before.region.mark place reserved) :=
    Block.setReserved_of_le reserved (show 4 ≤ place by omega)
      (show place ≤ before.region.size by omega)
  refine ⟨_, HeapM.run_change ran, ⟨shows.policy, (Region.limit_mark ..).trans shows.limit,
    shows.prologue, lays_marked sound shows.lays lower upper aligned reserved, ?_⟩, by simp, ?_⟩
  · exact shows.stored.marked (by omega) aligned (by omega)
      (fun member => sound.offset_mod (sound.listed member))
      fun member => boundary _ (sound.listed member)
  · intro index held
    apply Region.byte_mark_of_outside (by omega)
    rcases held with below | ⟨info, member, -, inPayload, upTo⟩
    · omega
    · have apart := boundary info member
      omega

end Shape

end TaggedHeap
