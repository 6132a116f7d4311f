import TaggedHeap.Proofs.Shape.Edit

/-!
Contract: other blocks in the place of some.

Splitting, fusing, taking and freeing all write the tags of some blocks into the space of
others. `Region.stamps` writes them, one block after the other. The main statement is
`Gap.does_stamps`: it needs no more than that the new blocks tile the space of the old ones and
that no list has one of the old ones.
-/

namespace TaggedHeap

/-- Writes the tags of some blocks. -/
def Region.stamps (region : Region) : List BlockInfo → Region
  | [] => region
  | info :: rest => (region.stamp info).stamps rest

namespace Region

variable {region : Region} {infos : List BlockInfo} {info : BlockInfo} {first last : Nat}

@[simp] theorem size_stamps (region : Region) (infos : List BlockInfo) :
    (region.stamps infos).size = region.size := by
  induction infos generalizing region with
  | nil => rfl
  | cons info rest inductionHypothesis => rw [stamps, inductionHypothesis, size_stamp]

@[simp] theorem limit_stamps (region : Region) (infos : List BlockInfo) :
    (region.stamps infos).limit = region.limit := by
  induction infos generalizing region with
  | nil => rfl
  | cons info rest inductionHypothesis => rw [stamps, inductionHypothesis, limit_stamp]

theorem byte_stamps_of_untagged (tiles : Tiles first infos last) (above : 4 ≤ first)
    {index : Nat} (untagged : ∀ info ∈ infos, info.Untagged index) :
    (region.stamps infos).byte index = region.byte index := by
  induction infos generalizing region first with
  | nil => rfl
  | cons info rest inductionHypothesis =>
      obtain ⟨place, sized, behind⟩ := tiles
      have wide := sized.wide
      rw [stamps, inductionHypothesis behind (by omega)
        (fun other member => untagged other (List.mem_cons_of_mem _ member)),
        byte_stamp_of_untagged _ (by omega) (by omega) (untagged info List.mem_cons_self)]

theorem byte_stamps_of_outside (tiles : Tiles first infos last) (above : 4 ≤ first)
    {index : Nat} (outside : index + 4 < first ∨ last ≤ index + 4) :
    (region.stamps infos).byte index = region.byte index := by
  apply byte_stamps_of_untagged tiles above
  intro info member
  have lower := tiles.start_le_of_mem member
  have upper := tiles.le_stop_of_mem member
  have wide := (tiles.sized_of_mem member).wide
  rcases outside with below | beyond
  · exact .inl (by omega)
  · exact .inr ⟨by omega, .inr (by omega)⟩

theorem Holds.stamps (holds : region.Holds info) (tiles : Tiles first infos last)
    (above : 4 ≤ first) (lower : 4 ≤ info.offset) (wide : 8 ≤ info.size)
    (inFront : info.offset + info.size ≤ first) : (region.stamps infos).Holds info := by
  apply holds.congr lower wide
  all_goals
    intro index _ _
    exact byte_stamps_of_outside tiles above (.inl (by omega))

theorem holds_stamps (tiles : Tiles first infos last) (above : 4 ≤ first)
    (aligned : first % 8 = 0) (inside : last ≤ region.size) (encodable : last ≤ maxBlock) :
    ∀ info ∈ infos, (region.stamps infos).Holds info := by
  induction infos generalizing region first with
  | nil =>
      intro info member
      cases member
  | cons head rest inductionHypothesis =>
      obtain ⟨rfl, sized, behind⟩ := tiles
      have wide := sized.wide
      have grained := sized.grained
      have upTo := behind.le
      intro info member
      rcases List.mem_cons.1 member with rfl | inRest
      · have stamped : (region.stamp info).Holds info :=
          holds_stamp above (by omega) grained (by omega) (by omega) (by omega)
        exact stamped.stamps behind (by omega) above (by omega) (Nat.le_refl _)
      · apply inductionHypothesis behind (by omega) (by omega) ?_ info inRest
        rw [size_stamp]
        exact inside

end Region

namespace Shape

variable {shape : Shape} {info : BlockInfo} {front old new back : List BlockInfo}
  {first last : Nat}

/-- The blocks between `first` and `last`, none of which is listed. -/
structure Gap (shape : Shape) (front old back : List BlockInfo) (first last : Nat) : Prop where
  split : shape.blocks = front ++ (old ++ back)
  inFront : Tiles shape.start front first
  behind : Tiles last back shape.stop
  unlisted : ∀ info ∈ old, shape.Unlisted info

theorem Sound.gap (sound : shape.Sound) (split : shape.blocks = front ++ (info :: old ++ back))
    (unlisted : ∀ member ∈ info :: old, shape.Unlisted member) :
    shape.Gap front (info :: old) back info.offset (info.offset + sizeSum (info :: old)) := by
  obtain ⟨inFront, -, behind⟩ := sound.tiles_part split
  exact ⟨split, inFront, behind, unlisted⟩

namespace Gap

variable (gap : shape.Gap front old back first last) (sound : shape.Sound)

include gap sound

theorem mem_rest {cls : SizeClass} (listed : info ∈ shape.lists cls) :
    info ∈ front ∨ info ∈ back := by
  have member := sound.listed listed
  rw [gap.split, List.mem_append, List.mem_append] at member
  rcases member with inFront | inOld | inBack
  · exact .inl inFront
  · exact absurd listed (gap.unlisted info inOld cls)
  · exact .inr inBack

theorem sound_withBlocks (tiles : Tiles first new last) :
    (shape.withBlocks (front ++ (new ++ back))).Sound where
  layout := by
    apply sound.layout.withBlocks
    rw [tiles_append]
    exact ⟨first, gap.inFront, tiles_append.2 ⟨last, tiles, gap.behind⟩⟩
  orderly := sound.orderly
  listed listed := by
    change _ ∈ front ++ (new ++ back)
    rw [List.mem_append, List.mem_append]
    rcases gap.mem_rest sound listed with inFront | inBack
    · exact .inl inFront
    · exact .inr (.inr inBack)

/-- The new blocks are not listed either. -/
theorem unlisted_new (tiles : Tiles first new last) :
    ∀ info ∈ new, (shape.withBlocks (front ++ (new ++ back))).Unlisted info := by
  intro info member cls listed
  have listed : info ∈ shape.lists cls := listed
  have lower := tiles.start_le_of_mem member
  have upper := tiles.le_stop_of_mem member
  have wide := (tiles.sized_of_mem member).wide
  rcases gap.mem_rest sound listed with inFront | inBack
  · have upTo := gap.inFront.le_stop_of_mem inFront
    omega
  · have beyond := gap.behind.start_le_of_mem inBack
    omega

theorem shows_stamps (tiles : Tiles first new last) {heap : Heap} (shows : heap.Shows shape) :
    Heap.Shows { heap with region := heap.region.stamps new }
      (shape.withBlocks (front ++ (new ++ back))) := by
  have above := sound.layout.above
  have aligned := gap.inFront.stop_mod sound.layout.aligned
  have lower := gap.inFront.le
  have upper := gap.behind.le
  have encodable := sound.layout.encodable
  have size : heap.region.size = shape.stop := shows.lays.size
  have same : ∀ index, index + 4 < first ∨ last ≤ index + 4 →
      (heap.region.stamps new).byte index = heap.region.byte index :=
    fun index outside => Region.byte_stamps_of_outside tiles (by omega) outside
  have held : ∀ info ∈ new, (heap.region.stamps new).Holds info :=
    Region.holds_stamps tiles (by omega) aligned (by omega) (by omega)
  refine ⟨shows.policy, (Region.limit_stamps ..).trans shows.limit, shows.prologue, ?_, ?_⟩
  · exact shows.lays.replace sound.layout gap.split gap.inFront gap.behind
      (Region.size_stamps ..) same held
  · apply shows.stored.congr (Region.size_stamps ..).ge
    intro cls info listed index lower upper
    have wide := sound.wide (sound.listed listed)
    rcases gap.mem_rest sound listed with inFront | inBack
    · have upTo := gap.inFront.le_stop_of_mem inFront
      exact same index (.inl (by omega))
    · have beyond := gap.behind.start_le_of_mem inBack
      exact same index (.inr (by omega))

theorem leads_stamps (tiles : Tiles first new last) {heap : Heap} (shows : heap.Shows shape) :
    heap.Leads { heap with region := heap.region.stamps new }
      (shape.withBlocks (front ++ (new ++ back))) []
      (shape.withBlocks (front ++ (new ++ back))).Held where
  shows := gap.shows_stamps sound tiles shows
  journal := by simp
  bytes index held := by
    have above := sound.layout.above
    have lower := gap.inFront.le
    apply Region.byte_stamps_of_untagged tiles (by omega)
    intro info member
    exact held.outside_tags (gap.sound_withBlocks sound tiles).layout
      (show info ∈ front ++ (new ++ back) by simp [member])

omit sound in
/-- What was held outside the gap is held. -/
theorem held_of_held (new : List BlockInfo) (inGap : ∀ info ∈ old, info.allocated = true → ∀ index,
      info.offset ≤ index → index + 8 < info.offset + info.size →
        (shape.withBlocks (front ++ (new ++ back))).Held index)
    {index : Nat} (held : shape.Held index) :
    (shape.withBlocks (front ++ (new ++ back))).Held index := by
  rcases held with below | ⟨info, member, allocated, lower, upper⟩
  · exact .inl below
  · rw [gap.split, List.mem_append, List.mem_append] at member
    rcases member with inFront | inOld | inBack
    · exact .inr ⟨info, by simp [withBlocks, inFront], allocated, lower, upper⟩
    · exact inGap info inOld allocated index lower upper
    · exact .inr ⟨info, by simp [withBlocks, inBack], allocated, lower, upper⟩

omit sound in
theorem held_of_free (new : List BlockInfo) (free : AllFree old)
    {index : Nat} (held : shape.Held index) :
    (shape.withBlocks (front ++ (new ++ back))).Held index := by
  apply gap.held_of_held new ?_ held
  intro info inGap allocated
  rw [free info inGap] at allocated
  exact absurd allocated Bool.false_ne_true

theorem writeTags_eq (tiles : Tiles first [info] last) {heap : Heap} (shows : heap.Shows shape) :
    info.block.writeTags info.size info.allocated info.reserved heap.region =
      .ok () (heap.region.stamp info) := by
  have size : heap.region.size = shape.stop := shows.lays.size
  have above := sound.layout.above
  have lower := gap.inFront.le
  have upper := gap.behind.le
  have encodable := sound.layout.encodable
  have place := tiles.1
  have wide := tiles.2.1.wide
  have stopIs : first + info.size = last := tiles.2.2
  exact Block.writeTags_stamp (by omega) (by omega) (by omega) tiles.2.1.grained (by omega)

theorem stamp_eq (member : info ∈ shape.blocks) {size : Nat} {allocated : Bool}
    (tiles : Tiles first [{ info with size := size, allocated := allocated }] last) {heap : Heap}
    (shows : heap.Shows shape) :
    info.block.stamp size allocated heap.region =
      .ok () (heap.region.stamp { info with size := size, allocated := allocated }) :=
  (Block.stamp_of_tag size allocated (shows.tag_of_mem sound member)).trans
    (gap.writeTags_eq sound tiles shows)

theorem does_writeTags (tiles : Tiles first [info] last) :
    shape.Does (liftM (info.block.writeTags info.size info.allocated info.reserved)) ()
      (shape.withBlocks (front ++ info :: back)) []
      (shape.withBlocks (front ++ info :: back)).Held :=
  fun _ shows => ⟨_, HeapM.run_change (gap.writeTags_eq sound tiles shows),
    gap.leads_stamps sound tiles shows⟩

theorem does_stamp (member : info ∈ shape.blocks) {size : Nat} {allocated : Bool}
    (tiles : Tiles first [{ info with size := size, allocated := allocated }] last) :
    shape.Does (liftM (info.block.stamp size allocated)) ()
      (shape.withBlocks (front ++ { info with size := size, allocated := allocated } :: back)) []
      (shape.withBlocks
        (front ++ { info with size := size, allocated := allocated } :: back)).Held :=
  fun _ shows => ⟨_, HeapM.run_change (gap.stamp_eq sound member tiles shows),
    gap.leads_stamps sound tiles shows⟩

end Gap

end Shape

end TaggedHeap
