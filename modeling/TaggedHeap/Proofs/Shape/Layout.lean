import TaggedHeap.Proofs.Shape.Tiling

/-!
Contract: layouts, the division of a region into blocks.

A layout names the blocks between the two sentinels. The sentinels are blocks as well: the
prologue, of size eight, ends where the first block begins, and the epilogue, of size zero,
begins where the last block ends. `Region.Lays` says that the words of a region describe a
layout. The main statements say what the words next to a block read, and which changes of the
region replace some blocks by others.
-/

namespace TaggedHeap

structure Layout where
  /-- Where the first block begins. -/
  start : Nat
  blocks : List BlockInfo
  /-- Where the last block ends, which is where the region ends. -/
  stop : Nat
  /-- Whether the epilogue is reserved. -/
  stopReserved : Bool

namespace Layout

def prologue (layout : Layout) : BlockInfo :=
  ⟨⟨layout.start - 8⟩, 8, true, false⟩

def epilogue (layout : Layout) : BlockInfo :=
  ⟨⟨layout.stop⟩, 0, true, layout.stopReserved⟩

/-- The first of the last blocks. -/
def lead (layout : Layout) (back : List BlockInfo) : BlockInfo :=
  back.headD layout.epilogue

/-- The last of the first blocks. -/
def trail (layout : Layout) (front : List BlockInfo) : BlockInfo :=
  front.getLastD layout.prologue

structure Sound (layout : Layout) : Prop where
  aligned : layout.start % 8 = 0
  above : 16 ≤ layout.start
  tiles : Tiles layout.start layout.blocks layout.stop
  encodable : layout.stop ≤ maxBlock

/-- The byte belongs to the payload of a block. -/
def Inner (layout : Layout) (index : Nat) : Prop :=
  ∃ info ∈ layout.blocks, info.offset ≤ index ∧ index + 8 < info.offset + info.size

/-- The byte is not the heap's own: it belongs to an allocated payload or lies in front of all
that the heap has laid out. -/
def Held (layout : Layout) (index : Nat) : Prop :=
  index + 16 < layout.start ∨
    ∃ info ∈ layout.blocks, info.allocated = true ∧
      info.offset ≤ index ∧ index + 8 < info.offset + info.size

variable {layout : Layout} {front back : List BlockInfo} {info : BlockInfo}

theorem lead_mem (layout : Layout) (back : List BlockInfo) :
    layout.lead back ∈ back ∨ back = [] ∧ layout.lead back = layout.epilogue := by
  cases back with
  | nil => exact .inr ⟨rfl, rfl⟩
  | cons info rest => exact .inl List.mem_cons_self

theorem trail_concat (layout : Layout) (front : List BlockInfo) (info : BlockInfo) :
    layout.trail (front ++ [info]) = info := by
  simp [trail]

theorem offset_lead {middle : Nat} (behind : Tiles middle back layout.stop) :
    (layout.lead back).offset = middle := by
  cases back with
  | nil => exact behind.symm
  | cons info rest => exact behind.1

/-- The block in front ends where the next one begins. -/
theorem trail_end (above : 16 ≤ layout.start) {middle : Nat}
    (inFront : Tiles layout.start front middle) :
    (layout.trail front).offset + (layout.trail front).size = middle := by
  obtain rfl | ⟨earlier, last, rfl⟩ := front.eq_nil_or_concat
  · have startIs : layout.start = middle := inFront
    change layout.start - 8 + 8 = middle
    omega
  · rw [List.concat_eq_append] at inFront ⊢
    rw [trail_concat]
    exact inFront.middle.2.2

theorem Sound.withBlocks (sound : layout.Sound) {blocks : List BlockInfo}
    (tiles : Tiles layout.start blocks layout.stop) :
    Sound { layout with blocks := blocks } :=
  ⟨sound.aligned, sound.above, tiles, sound.encodable⟩

theorem Sound.offset_mod_of_mem (sound : layout.Sound) (member : info ∈ layout.blocks) :
    info.offset % 8 = 0 :=
  sound.tiles.offset_mod_of_mem sound.aligned member

theorem Sound.apart_prologue (sound : layout.Sound) (other : BlockInfo)
    (member : other ∈ layout.blocks) :
    layout.prologue = other ∨ layout.prologue.Apart other := by
  have above := sound.above
  have first := sound.tiles.start_le_of_mem member
  exact .inr (.inl (show layout.start - 8 + 8 ≤ other.offset by omega))

theorem Sound.apart_epilogue (sound : layout.Sound) (other : BlockInfo)
    (member : other ∈ layout.blocks) :
    layout.epilogue = other ∨ layout.epilogue.Apart other :=
  .inr (.inr (sound.tiles.le_stop_of_mem member))

theorem not_inner_of_header
    (apart : ∀ other ∈ layout.blocks, info = other ∨ info.Apart other) {index : Nat}
    (lower : info.offset ≤ index + 4) (upper : index < info.offset) : ¬layout.Inner index := by
  rintro ⟨other, member, first, last⟩
  rcases apart other member with rfl | separate
  · omega
  · have separated := separate.separated
    omega

theorem not_inner_of_footer
    (apart : ∀ other ∈ layout.blocks, info = other ∨ info.Apart other) {index : Nat}
    (lower : info.offset + info.size ≤ index + 8)
    (upper : index + 4 < info.offset + info.size) : ¬layout.Inner index := by
  rintro ⟨other, member, first, last⟩
  rcases apart other member with rfl | separate
  · omega
  · have separated := separate.separated
    omega

theorem Held.not_inner_of_free (sound : layout.Sound) {index : Nat} (held : layout.Held index)
    (member : info ∈ layout.blocks) (free : info.allocated = false) :
    index < info.offset ∨ info.offset + info.size ≤ index + 8 := by
  have above := sound.tiles.start_le_of_mem member
  rcases held with below | ⟨other, otherMember, allocated, lower, upper⟩
  · omega
  · rcases sound.tiles.apart_of_mem member otherMember with rfl | apart
    · rw [free] at allocated
      exact absurd allocated Bool.false_ne_true
    · have separated := apart.separated
      omega

theorem Held.outside_tags (sound : layout.Sound) {index : Nat} (held : layout.Held index)
    (member : info ∈ layout.blocks) : info.Untagged index := by
  have above := sound.tiles.start_le_of_mem member
  rcases held with below | ⟨other, otherMember, -, lower, upper⟩
  · exact .inl (by omega)
  · rcases sound.tiles.apart_of_mem member otherMember with rfl | behind | inFront
    · exact .inr ⟨lower, .inl upper⟩
    · have behind : info.offset + info.size ≤ other.offset := behind
      exact .inr ⟨by omega, .inr (by omega)⟩
    · have inFront : other.offset + other.size ≤ info.offset := inFront
      exact .inl (by omega)

end Layout

/-- The words of a region describe a layout. -/
structure Region.Lays (region : Region) (layout : Layout) : Prop where
  size : region.size = layout.stop
  prologue : region.Holds layout.prologue
  blocks : ∀ info ∈ layout.blocks, region.Holds info
  epilogue : region.headerTag layout.stop = layout.epilogue.tag

namespace Region.Lays

variable {region after : Region} {layout : Layout} {front old new back : List BlockInfo}
  {info : BlockInfo}

/-! ## What is read -/

theorem lead_header (lays : region.Lays layout) {middle : Nat}
    (behind : Tiles middle back layout.stop) (part : ∀ info ∈ back, info ∈ layout.blocks) :
    region.headerTag middle = (layout.lead back).tag := by
  rw [← Layout.offset_lead behind]
  rcases layout.lead_mem back with member | ⟨rfl, last⟩
  · exact (lays.blocks _ (part _ member)).header
  · rw [last]
    exact lays.epilogue

theorem trail_holds (lays : region.Lays layout) (part : ∀ info ∈ front, info ∈ layout.blocks) :
    region.Holds (layout.trail front) := by
  obtain rfl | ⟨earlier, last, rfl⟩ := front.eq_nil_or_concat
  · exact lays.prologue
  · rw [List.concat_eq_append] at part ⊢
    rw [layout.trail_concat]
    exact lays.blocks _ (part _ (by simp))

/-! ## What a change leaves alone -/

/-- A change of payloads only. -/
theorem congr (lays : region.Lays layout) (sound : layout.Sound)
    (size : after.size = region.size)
    (same : ∀ index, ¬layout.Inner index → after.byte index = region.byte index) :
    after.Lays layout where
  size := size.trans lays.size
  prologue := by
    have above : 16 ≤ layout.start := sound.above
    refine lays.prologue.congr (show 4 ≤ layout.start - 8 by omega) (Nat.le_refl 8) ?_ ?_
    · intro index lower upper
      exact same index (Layout.not_inner_of_header sound.apart_prologue lower upper)
    · intro index lower upper
      exact same index (Layout.not_inner_of_footer sound.apart_prologue lower upper)
  blocks info member := by
    have above := sound.above
    have first := sound.tiles.start_le_of_mem member
    have wide := (sound.tiles.sized_of_mem member).wide
    refine (lays.blocks info member).congr (by omega) (by omega) ?_ ?_
    · intro index lower upper
      exact same index
        (Layout.not_inner_of_header (fun _ => sound.tiles.apart_of_mem member) lower upper)
    · intro index lower upper
      exact same index
        (Layout.not_inner_of_footer (fun _ => sound.tiles.apart_of_mem member) lower upper)
  epilogue := by
    have above := sound.above
    have last := sound.tiles.le
    rw [← lays.epilogue]
    apply headerTag_congr (by omega)
    intro index lower upper
    exact same index (Layout.not_inner_of_header sound.apart_epilogue lower upper)

/-- Other blocks take the place of `old`, between `first` and `last`. -/
theorem replace (lays : region.Lays layout) (sound : layout.Sound)
    (split : layout.blocks = front ++ (old ++ back)) {first last : Nat}
    (inFront : Tiles layout.start front first) (behind : Tiles last back layout.stop)
    (size : after.size = region.size)
    (same : ∀ index, index + 4 < first ∨ last ≤ index + 4 →
      after.byte index = region.byte index)
    (held : ∀ info ∈ new, after.Holds info) :
    after.Lays { layout with blocks := front ++ (new ++ back) } where
  size := size.trans lays.size
  prologue := by
    have above : 16 ≤ layout.start := sound.above
    have upTo := inFront.le
    refine lays.prologue.congr (show 4 ≤ layout.start - 8 by omega) (Nat.le_refl 8) ?_ ?_
    · intro index lower upper
      have upper : index < layout.start - 8 := upper
      exact same index (.inl (by omega))
    · intro index lower upper
      have upper : index + 4 < layout.start - 8 + 8 := upper
      exact same index (.inl (by omega))
  blocks info member := by
    have above := sound.above
    rcases List.mem_append.1 member with isFront | notFront
    · have lower := inFront.start_le_of_mem isFront
      have upper := inFront.le_stop_of_mem isFront
      have wide := (inFront.sized_of_mem isFront).wide
      have before := lays.blocks info (by simp [split, isFront])
      exact before.congr (by omega) (by omega)
        (fun index _ _ => same index (.inl (by omega)))
        (fun index _ _ => same index (.inl (by omega)))
    rcases List.mem_append.1 notFront with isNew | inBack
    · exact held info isNew
    · have lower := behind.start_le_of_mem inBack
      have wide := (behind.sized_of_mem inBack).wide
      have upTo := inFront.le
      have inBlocks : info ∈ layout.blocks := by simp [split, inBack]
      have above := sound.tiles.start_le_of_mem inBlocks
      exact (lays.blocks info inBlocks).congr (by omega) (by omega)
        (fun index _ _ => same index (.inr (by omega)))
        (fun index _ _ => same index (.inr (by omega)))
  epilogue := by
    have above := sound.above
    have whole := sound.tiles.le
    have upTo := behind.le
    rw [show Layout.epilogue { layout with blocks := front ++ (new ++ back) } = layout.epilogue
      from rfl, ← lays.epilogue]
    apply headerTag_congr (show 4 ≤ layout.stop by omega)
    intro index lower upper
    exact same index (.inr (by omega))

end Region.Lays

end TaggedHeap
