import TaggedHeap.Proofs.Shape.Execution

/-!
Contract: the edits that operations are made of.

A block is filed or unfiled. Each edit has a statement for shapes, that the edited shape is
sound, and one for heaps, that the edit leads from the one shape to the other.
-/

namespace TaggedHeap.Shape

/-- The shape with some blocks taken from its lists. -/
def without (shape : Shape) (removed : List BlockInfo) : Shape :=
  { shape with lists := shape.lists.without removed }

/-- The shape with one more block in its lists. -/
def filed (shape : Shape) (info : BlockInfo) : Shape :=
  { shape with lists := shape.lists.filed info }

def withBlocks (shape : Shape) (blocks : List BlockInfo) : Shape :=
  { shape with blocks := blocks }

/-- No list has the block as a member. -/
def Unlisted (shape : Shape) (info : BlockInfo) : Prop :=
  ∀ cls, info ∉ shape.lists cls

variable {shape : Shape} {info : BlockInfo}

theorem without_without (shape : Shape) (removed more : List BlockInfo) :
    (shape.without removed).without more = shape.without (removed ++ more) := by
  rw [without, without, without, FreeLists.without_without]

theorem without_nil (shape : Shape) : shape.without [] = shape := by
  rw [without, FreeLists.without_nil]

theorem without_congr (shape : Shape) {removed others : List BlockInfo}
    (same : ∀ info, info ∈ removed ↔ info ∈ others) :
    shape.without removed = shape.without others := by
  rw [without, without, shape.lists.without_congr same]

theorem unlisted_without {removed : List BlockInfo} (member : info ∈ removed) :
    (shape.without removed).Unlisted info := by
  intro cls listed
  exact (FreeLists.mem_without.1 listed).2 member

theorem Sound.unlisted_of_allocated (sound : shape.Sound) (allocated : info.allocated = true) :
    shape.Unlisted info := by
  intro cls member
  rw [sound.orderly.free member] at allocated
  exact Bool.false_ne_true allocated

/-! ## Filing -/

theorem Sound.without (sound : shape.Sound) (removed : List BlockInfo) :
    (shape.without removed).Sound where
  layout := sound.layout
  orderly := sound.orderly.without removed
  listed member := sound.listed (FreeLists.mem_without.1 member).1

theorem Sound.apart_listed (sound : shape.Sound) (member : info ∈ shape.blocks)
    (unlisted : shape.Unlisted info) {cls : SizeClass} {other : BlockInfo}
    (listed : other ∈ shape.lists cls) : info.Apart other := by
  rcases sound.layout.tiles.apart_of_mem member (sound.listed listed) with rfl | apart
  · exact absurd listed (unlisted cls)
  · exact apart

theorem Sound.filed (sound : shape.Sound) (member : info ∈ shape.blocks)
    (free : info.allocated = false) (unlisted : shape.Unlisted info) :
    (shape.filed info).Sound where
  layout := sound.layout
  orderly := sound.orderly.filed free unlisted (sound.apart_listed member unlisted)
  listed inLists := by
    rcases FreeLists.mem_filed.1 inLists with old | ⟨rfl, -⟩
    · exact sound.listed old
    · exact member

theorem does_unfile (sound : shape.Sound) (member : info ∈ shape.lists info.cls) :
    shape.Does (Heap.unfile info.block) () (shape.without [info]) [] shape.Held := by
  intro before shows
  obtain ⟨region, heads, ran, stored, relinked⟩ :=
    Heap.unfile_stored shows.stored sound.orderly member
  refine ⟨_, ran, ⟨shows.policy, relinked.limit.trans shows.limit, shows.prologue, ?_, stored⟩,
    by simp, ?_⟩
  · apply shows.lays.congr sound.layout relinked.size
    intro index outside
    exact relinked.byte index (sound.unlinked_of_not_inner outside)
  · intro index held
    exact relinked.byte index (sound.unlinked_of_held held)

theorem does_file (sound : shape.Sound) (member : info ∈ shape.blocks)
    (free : info.allocated = false) (unlisted : shape.Unlisted info) :
    shape.Does (Heap.file info.block) () (shape.filed info) [] shape.Held := by
  intro before shows
  obtain ⟨region, heads, ran, stored, relinked⟩ :=
    Heap.file_stored shows.stored sound.orderly (shows.resident sound member)
      (sound.apart_listed member unlisted)
  have filedSound := sound.filed member free unlisted
  refine ⟨_, ran, ⟨shows.policy, relinked.limit.trans shows.limit, shows.prologue, ?_, stored⟩,
    by simp, ?_⟩
  · apply shows.lays.congr sound.layout relinked.size
    intro index outside
    exact relinked.byte index (filedSound.unlinked_of_not_inner outside)
  · intro index held
    exact relinked.byte index (filedSound.unlinked_of_held held)

/-- After its first block was unfiled, the rest of a run is a run again. -/
theorem rest_of_run (sound : shape.Sound) {front rest back : List BlockInfo} {start : Nat}
    (split : shape.blocks = front ++ (info :: rest ++ back))
    (inFront : Tiles shape.start front start)
    (listed : ∀ member ∈ info :: rest, member ∈ shape.lists member.cls) :
    start = info.offset ∧ (shape.without [info]).blocks = (front ++ [info]) ++ (rest ++ back) ∧
      Tiles shape.start (front ++ [info]) (info.offset + info.size) ∧
      ∀ member ∈ rest, member ∈ (shape.without [info]).lists member.cls := by
  obtain ⟨-, inRun, -⟩ := sound.tiles_part split
  obtain ⟨here, later, inFrontLater⟩ := sound.layout.tiles.advance split inFront
  have first := (List.nodup_cons.1 inRun.nodup).1
  refine ⟨here, later, inFrontLater, fun member inRest => ?_⟩
  refine FreeLists.mem_without.2 ⟨listed member (List.mem_cons_of_mem _ inRest), ?_⟩
  intro removed
  exact first (List.mem_singleton.1 removed ▸ inRest)

end TaggedHeap.Shape
