import TaggedHeap.Proofs.Shape.Mark

/-!
Contract: marks and what anchors them.

A mark belongs to a place: that of the block, or of the epilogue, whose header carries it. In an
anchored shape every mark lies directly behind an allocated block, the one that it keeps room for.
So a reserved block never follows a free one, and no run of free blocks is longer than two.
-/

namespace TaggedHeap

namespace Layout

variable {layout : Layout} {info : BlockInfo}

/-- The blocks and the epilogue that closes them. -/
def closed (layout : Layout) : List BlockInfo :=
  layout.blocks ++ [layout.epilogue]

@[simp] theorem mem_closed :
    info ∈ layout.closed ↔ info ∈ layout.blocks ∨ info = layout.epilogue := by
  simp [closed]

/-- The header at a place carries the mark, be it that of a block or the one that closes the
heap. -/
inductive Marked (layout : Layout) : Bool → Nat → Prop where
  | block {info : BlockInfo} (member : info ∈ layout.blocks) (reserved : info.reserved = true) :
      Marked layout false info.offset
  | epilogue (reserved : layout.stopReserved = true) : Marked layout true layout.stop

theorem Marked.exists_block {place : Nat} (marked : layout.Marked false place) :
    ∃ info ∈ layout.blocks, info.reserved = true ∧ info.offset = place := by
  cases marked with
  | @block info member reserved => exact ⟨info, member, reserved, rfl⟩

theorem Marked.at_stop {place : Nat} (marked : layout.Marked true place) :
    place = layout.stop ∧ layout.stopReserved = true := by
  cases marked with
  | epilogue reserved => exact ⟨rfl, reserved⟩

theorem marked_of_closed (member : info ∈ layout.closed) (reserved : info.reserved = true) :
    ∃ closing, layout.Marked closing info.offset := by
  rcases mem_closed.1 member with inBlocks | rfl
  · exact ⟨false, .block inBlocks reserved⟩
  · exact ⟨true, .epilogue reserved⟩

/-! ## Other blocks in the place of some -/

/-- The blocks `new` are in the place of the blocks `old`, and nothing else is different. -/
structure Replaces (layout later : Layout) (old new : List BlockInfo) : Prop where
  blocks : ∃ front back, layout.blocks = front ++ (old ++ back) ∧
    later.blocks = front ++ (new ++ back)
  epilogue : later.epilogue = layout.epilogue

namespace Replaces

variable {later : Layout} {old new : List BlockInfo} {closing : Bool} {place : Nat}
  (replaces : layout.Replaces later old new)

include replaces

/-- No mark is set if every new block that is reserved begins where a reserved one began. -/
theorem marked_of_later (inherits : ∀ info ∈ new, info.reserved = true →
      ∃ held ∈ old, held.reserved = true ∧ held.offset = info.offset)
    (marked : later.Marked closing place) : layout.Marked closing place := by
  obtain ⟨front, back, split, laterSplit⟩ := replaces.blocks
  have wasMarked : ∀ held ∈ front ++ (old ++ back), held.reserved = true →
      layout.Marked false held.offset :=
    fun held member => .block (split ▸ member)
  cases marked with
  | @block info member reserved =>
      simp only [laterSplit, List.mem_append] at member
      by_cases isNew : info ∈ new
      · obtain ⟨held, isOld, wasReserved, same⟩ := inherits info isNew reserved
        rw [← same]
        exact wasMarked held (by simp [isOld]) wasReserved
      · exact wasMarked info (by simp only [List.mem_append]; tauto) reserved
  | epilogue reserved =>
      have stop : later.stop = layout.stop := congrArg BlockInfo.offset replaces.epilogue
      have mark : later.stopReserved = layout.stopReserved :=
        congrArg BlockInfo.reserved replaces.epilogue
      rw [stop]
      exact .epilogue (mark.symm.trans reserved)

theorem mem_later (member : info ∈ layout.blocks) : info ∈ later.blocks ∨ info ∈ old := by
  obtain ⟨front, back, split, laterSplit⟩ := replaces.blocks
  simp only [split, laterSplit, List.mem_append] at member ⊢
  tauto

end Replaces

end Layout

/-- A reserved block is still there and still reserved, and if it is free nothing of it has
changed. -/
def BlockInfo.StaysIn (held : BlockInfo) (blocks : List BlockInfo) : Prop :=
  ∃ after ∈ blocks, after.handle = held.handle ∧ after.reserved = true ∧
    (held.allocated = false → after = held)

namespace BlockInfo

variable {held : BlockInfo} {blocks laterBlocks : List BlockInfo}

theorem staysIn_of_mem (member : held ∈ blocks) (reserved : held.reserved = true) :
    held.StaysIn blocks :=
  ⟨held, member, rfl, reserved, fun _ => rfl⟩

theorem StaysIn.trans (stays : held.StaysIn blocks)
    (onwards : ∀ after ∈ blocks, after.reserved = true → after.StaysIn laterBlocks) :
    held.StaysIn laterBlocks := by
  obtain ⟨middle, member, handle, reserved, unchanged⟩ := stays
  obtain ⟨after, laterMember, laterHandle, laterReserved, laterUnchanged⟩ :=
    onwards middle member reserved
  refine ⟨after, laterMember, laterHandle.trans handle, laterReserved, fun free => ?_⟩
  obtain rfl := unchanged free
  exact laterUnchanged free

end BlockInfo

namespace Shape

variable {shape later : Shape} {closing reserved : Bool} {place other : Nat} {info held : BlockInfo}
  {front run back : List BlockInfo}

/-- Every mark lies directly behind an allocated block, and is there only if the policy reserves
anything at all. -/
def Anchored (shape : Shape) : Prop :=
  ∀ closing place, shape.Marked closing place → 0 < shape.policy.reserveMargin ∧
    ∃ handle size, (handle, size) ∈ shape.extents ∧ handle.offset + size = place

theorem Anchored.exists_anchor (anchored : shape.Anchored) (marked : shape.Marked closing place) :
    ∃ anchor ∈ shape.blocks, anchor.allocated = true ∧ anchor.offset + anchor.size = place := by
  obtain ⟨-, handle, size, present, ends⟩ := anchored closing place marked
  obtain ⟨anchor, member, allocated, rfl, rfl⟩ := mem_extents.1 present
  exact ⟨anchor, member, allocated, ends⟩

/-- A shape stays anchored where no mark is set and no allocated block is lost. -/
theorem Anchored.mono (anchored : shape.Anchored) (policy : later.policy = shape.policy)
    (marks : ∀ closing place, later.Marked closing place → shape.Marked closing place)
    (extents : shape.extents ⊆ later.extents) : later.Anchored := by
  intro closing place marked
  obtain ⟨margin, handle, size, present, ends⟩ :=
    anchored closing place (marks closing place marked)
  exact ⟨policy ▸ margin, handle, size, extents present, ends⟩

/-- No mark lies inside a block. -/
theorem outside_of_marked (sound : shape.Sound) (marked : shape.Marked closing place)
    (member : info ∈ shape.blocks) : place ≤ info.offset ∨ info.offset + info.size ≤ place := by
  cases marked with
  | block inBlocks reserved =>
      rcases sound.layout.tiles.apart_of_mem member inBlocks with rfl | apart
      · exact .inl (Nat.le_refl _)
      · have separated := apart.separated
        omega
  | epilogue reserved => exact .inr (sound.inside member)

/-- A block or the epilogue begins where those in front of it end. -/
theorem tiles_closed (sound : shape.Sound) (split : shape.closed = front ++ held :: back) :
    Tiles shape.start front held.offset ∧ front ⊆ shape.blocks := by
  have tiles := sound.layout.tiles
  obtain rfl | ⟨others, last, rfl⟩ := back.eq_nil_or_concat
  · obtain ⟨rfl, same⟩ := List.append_inj' split rfl
    rw [← List.head_eq_of_cons_eq same]
    exact ⟨tiles, List.Subset.refl _⟩
  · rw [List.concat_eq_append, ← List.cons_append, ← List.append_assoc] at split
    obtain ⟨blocks, -⟩ := List.append_inj' split rfl
    rw [blocks] at tiles ⊢
    exact ⟨tiles.middle.1, List.subset_append_left _ _⟩

/-! ## Changes of one mark -/

theorem marked_marked (marked : (shape.marked place reserved).Marked closing other) :
    other = place ∧ reserved = true ∨ other ≠ place ∧ shape.Marked closing other := by
  cases marked with
  | block member isReserved =>
      obtain ⟨original, wasMember, rfl⟩ := List.mem_map.1 member
      rw [BlockInfo.offset_marked]
      by_cases same : original.offset = place
      · subst place
        rw [BlockInfo.marked_self] at isReserved
        exact .inl ⟨rfl, isReserved⟩
      · rw [BlockInfo.marked_of_ne same] at isReserved
        exact .inr ⟨same, .block wasMember isReserved⟩
  | epilogue isReserved =>
      have mark : (if place = shape.stop then reserved else shape.stopReserved) = true := isReserved
      by_cases same : place = shape.stop
      · rw [if_pos same] at mark
        exact .inl ⟨same.symm, mark⟩
      · rw [if_neg same] at mark
        exact .inr ⟨Ne.symm same, .epilogue mark⟩

/-- Setting a mark keeps the reserved blocks. -/
theorem mem_marked_of_reserved (member : held ∈ shape.blocks) (isReserved : held.reserved = true)
    (place : Nat) : held ∈ (shape.marked place true).blocks := by
  have same : held.marked place true = held := by
    unfold BlockInfo.marked
    split
    · rw [← isReserved]
    · rfl
  rw [← same]
  exact List.mem_map_of_mem member

/-! ## What lies in front of a mark -/

section Neighbours

variable (anchored : shape.Anchored) (sound : shape.Sound)

include anchored sound

/-- The block in front of a mark is allocated. -/
theorem Anchored.allocated_before (marked : shape.Marked closing place)
    (member : info ∈ shape.blocks) (ends : info.offset + info.size = place) :
    info.allocated = true := by
  obtain ⟨anchor, anchorMember, allocated, anchorEnds⟩ := anchored.exists_anchor marked
  rwa [sound.layout.tiles.eq_of_end member anchorMember (ends.trans anchorEnds.symm)]

/-- Of a run of free blocks at most the first is reserved. -/
theorem Anchored.unreserved_of_run (split : shape.blocks = front ++ (info :: run ++ back))
    (free : AllFree (info :: run)) (member : held ∈ run) : held.reserved = false := by
  obtain ⟨earlier, later, rfl⟩ := List.append_of_mem member
  obtain ⟨others, last, cut⟩ : ∃ others last, info :: earlier = others ++ [last] :=
    ⟨_, _, (List.dropLast_append_getLast (List.cons_ne_nil info earlier)).symm⟩
  have isFree : last.allocated = false := by
    apply free last
    rw [← List.cons_append, cut]
    simp
  have whole : shape.blocks = (front ++ others) ++ last :: (held :: (later ++ back)) := by
    rw [split, ← List.cons_append, cut]
    simp
  have tiles := sound.layout.tiles
  rw [whole] at tiles
  obtain ⟨-, -, place, -⟩ := tiles.middle
  by_contra reserved
  have marked : shape.Marked false held.offset :=
    .block (by simp [whole]) (Bool.eq_true_of_not_eq_false reserved)
  have allocated := anchored.allocated_before sound marked
    (show last ∈ shape.blocks by simp [whole]) place.symm
  rw [isFree] at allocated
  exact Bool.false_ne_true allocated

/-- What lies directly in front of a mark is an allocated block. -/
theorem Anchored.exists_before (split : shape.closed = front ++ held :: back)
    (reserved : held.reserved = true) :
    ∃ earlier before, front = earlier ++ [before] ∧ before ∈ shape.blocks ∧
      before.allocated = true ∧ before.offset + before.size = held.offset := by
  obtain ⟨inFront, part⟩ := tiles_closed sound split
  have isClosed : held ∈ shape.closed := by simp [split]
  obtain ⟨closing, marked⟩ := Layout.marked_of_closed isClosed reserved
  obtain rfl | ⟨earlier, before, rfl⟩ := front.eq_nil_or_concat
  · obtain ⟨anchor, member, -, ends⟩ := anchored.exists_anchor marked
    have first : shape.start = held.offset := inFront
    have lower := sound.layout.tiles.start_le_of_mem member
    have wide := sound.wide member
    omega
  · rw [List.concat_eq_append] at inFront part ⊢
    have member : before ∈ shape.blocks := part (by simp)
    have ends : before.offset + before.size = held.offset := inFront.middle.2.2
    exact ⟨earlier, before, rfl, member, anchored.allocated_before sound marked member ends, ends⟩

end Neighbours

/-! ## Runs of free blocks -/

/-- Of two free neighbours the first is reserved. -/
theorem Valid.reserved_of_neighbours (valid : shape.Valid)
    (split : shape.blocks = front ++ info :: held :: back) (free : info.allocated = false)
    (heldFree : held.allocated = false) : info.reserved = true := by
  have separated := valid.separated
  rw [split, separated_split, separated_cons] at separated
  rcases separated.2.1 held rfl with allocated | reserved | allocated
  · rw [free] at allocated
    exact absurd allocated Bool.false_ne_true
  · exact reserved
  · rw [heldFree] at allocated
    exact absurd allocated Bool.false_ne_true

/-- A run of free blocks is a single block, or a reserved one with one behind it that is not. -/
theorem Anchored.run_cases (anchored : shape.Anchored) (valid : shape.Valid)
    (split : shape.blocks = front ++ (run ++ back)) (free : AllFree run) :
    run.length ≤ 1 ∨ ∃ first second, run = [first, second] ∧ first.reserved = true ∧
      second.reserved = false := by
  match run, split, free with
  | [], _, _ => exact .inl (Nat.zero_le _)
  | [_], _, _ => exact .inl (Nat.le_refl _)
  | [first, second], split, free =>
      have reserved := valid.reserved_of_neighbours split (free first (by simp))
        (free second (by simp))
      exact .inr ⟨first, second, rfl, reserved,
        anchored.unreserved_of_run valid.sound split free List.mem_cons_self⟩
  | first :: second :: third :: rest, split, free =>
      have shifted : shape.blocks = (front ++ [first]) ++ second :: third :: (rest ++ back) := by
        simp [split]
      have reserved := valid.reserved_of_neighbours shifted (free second (by simp))
        (free third (by simp))
      rw [anchored.unreserved_of_run valid.sound split free List.mem_cons_self] at reserved
      exact absurd reserved Bool.false_ne_true

end Shape

end TaggedHeap
