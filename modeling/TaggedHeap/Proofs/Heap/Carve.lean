import TaggedHeap.Heap.Allocate
import TaggedHeap.Proofs.Shape.Retag
import TaggedHeap.Proofs.Shape.Valid

/-!
Contract: carving in terms of shapes.

A free block is taken out of its list and allocated, whole or up to the size that was asked for.
What remains is filed if it can stand as a block of its own.
-/

namespace TaggedHeap

namespace BlockInfo

/-- The allocated block that `size` bytes are carved into. -/
def taken (info : BlockInfo) (size : Nat) : BlockInfo :=
  { info with
    size := if minBlock ≤ info.size - size then size else info.size
    allocated := true }

def rest (info : BlockInfo) (size : Nat) : BlockInfo :=
  ⟨⟨info.offset + size⟩, info.size - size, false, false⟩

/-- What remains of a free block that `size` bytes were carved from. -/
def remainder (info : BlockInfo) (size : Nat) : List BlockInfo :=
  if minBlock ≤ info.size - size then [info.rest size] else []

variable {info : BlockInfo} {size : Nat}

theorem le_size_taken (enough : size ≤ info.size) : size ≤ (info.taken size).size := by
  unfold taken
  dsimp only
  split
  · exact Nat.le_refl size
  · exact enough

theorem allFree_remainder (info : BlockInfo) (size : Nat) : AllFree (info.remainder size) := by
  unfold remainder
  split
  · exact allFree_cons.2 ⟨rfl, nofun⟩
  · exact nofun

theorem tiles_carved (sized : info.Sized) (wide : 16 ≤ size) (grained : size % 8 = 0)
    (enough : size ≤ info.size) :
    Tiles info.offset (info.taken size :: info.remainder size) (info.offset + info.size) := by
  have infoGrained := sized.grained
  unfold taken remainder
  split
  · rename_i divides
    have divides : 16 ≤ info.size - size := divides
    refine ⟨rfl, ⟨wide, grained⟩, rfl, ⟨divides, ?_⟩, ?_⟩
    · change (info.size - size) % 8 = 0
      omega
    · change info.offset + size + (info.size - size) = info.offset + info.size
      omega
  · exact ⟨rfl, ⟨sized.wide, infoGrained⟩, rfl⟩

end BlockInfo

namespace Shape

variable {shape : Shape} {info : BlockInfo} {front back : List BlockInfo} {size : Nat}

/-- The shape with an allocated block of `size` bytes and a remainder in the place of a free
block. The remainder is not listed. -/
def divided (shape : Shape) (front : List BlockInfo) (info : BlockInfo) (size : Nat)
    (back : List BlockInfo) : Shape :=
  (shape.without [info]).withBlocks (front ++ (info.taken size :: info.remainder size ++ back))

/-- The shape after `size` bytes were carved from a free block. -/
def carved (shape : Shape) (front : List BlockInfo) (info : BlockInfo) (size : Nat)
    (back : List BlockInfo) : Shape :=
  if minBlock ≤ info.size - size then (shape.divided front info size back).filed (info.rest size)
  else shape.divided front info size back

theorem carved_layout (shape : Shape) (front : List BlockInfo) (info : BlockInfo) (size : Nat)
    (back : List BlockInfo) : (shape.carved front info size back).toLayout =
      (shape.divided front info size back).toLayout := by
  unfold carved
  split <;> rfl

theorem same_setting_carved (shape : Shape) (front : List BlockInfo) (info : BlockInfo)
    (size : Nat) (back : List BlockInfo) :
    shape.SameSetting (shape.carved front info size back) := by
  unfold carved
  split <;> exact ⟨rfl, rfl, rfl⟩

theorem mem_divided_rest (divides : minBlock ≤ info.size - size) :
    info.rest size ∈ (shape.divided front info size back).blocks := by
  have remains : info.remainder size = [info.rest size] := if_pos divides
  change info.rest size ∈ front ++ (info.taken size :: info.remainder size ++ back)
  rw [remains]
  simp

section Carving

variable (sound : shape.Sound) (split : shape.blocks = front ++ info :: back)
  (wide : 16 ≤ size) (grained : size % 8 = 0) (enough : size ≤ info.size)

include sound split

theorem gap_carved :
    (shape.without [info]).Gap front [info] back info.offset (info.offset + info.size) :=
  (sound.without [info]).gap split fun _ => unlisted_without

theorem sized_carved : info.Sized :=
  sound.layout.tiles.sized_of_mem (by simp [split])

include wide grained enough

theorem sound_divided : (shape.divided front info size back).Sound :=
  (gap_carved sound split).sound_withBlocks (sound.without [info])
    (BlockInfo.tiles_carved (sized_carved sound split) wide grained enough)

theorem unlisted_rest (divides : minBlock ≤ info.size - size) :
    (shape.divided front info size back).Unlisted (info.rest size) := by
  have remains : info.remainder size = [info.rest size] := if_pos divides
  apply (gap_carved sound split).unlisted_new (sound.without [info])
    (BlockInfo.tiles_carved (sized_carved sound split) wide grained enough)
  rw [remains]
  simp

theorem sound_carved : (shape.carved front info size back).Sound := by
  have divided := sound_divided sound split wide grained enough
  unfold carved
  split
  · rename_i divides
    exact divided.filed (mem_divided_rest divides) rfl
      (unlisted_rest sound split wide grained enough divides)
  · exact divided

/-- What is written when a block is divided. -/
theorem writes_divided (divides : minBlock ≤ info.size - size) {heap : Heap}
    (shows : heap.Shows (shape.without [info])) :
    info.block.stamp size true heap.region = .ok () (heap.region.stamp (info.taken size)) ∧
      info.block.next (heap.region.stamp (info.taken size)) = .ok (info.rest size).block ∧
      (info.rest size).block.writeTags (info.size - size) false false
        (heap.region.stamp (info.taken size)) =
          .ok () ((heap.region.stamp (info.taken size)).stamp (info.rest size)) := by
  have unlistedSound := sound.without [info]
  have member : info ∈ (shape.without [info]).blocks := by
    change info ∈ shape.blocks
    simp [split]
  have above := unlistedSound.above member
  have inside := unlistedSound.inside member
  have encodable := unlistedSound.layout.encodable
  have aligned := unlistedSound.offset_mod member
  have sizeIs : heap.region.size = (shape.without [info]).stop := shows.lays.size
  have taken : info.taken size = { info with size := size, allocated := true } := by
    rw [BlockInfo.taken, if_pos divides]
  have takenSize : (info.taken size).size = size := by rw [taken]
  have takenPlace : (info.taken size).offset = info.offset := rfl
  have restSized : (info.rest size).Sized := by
    have tiles := BlockInfo.tiles_carved (sized_carved sound split) wide grained enough
    rw [show info.remainder size = [info.rest size] from if_pos divides] at tiles
    exact tiles.2.2.2.1
  have restWide := restSized.wide
  have restSize : (info.rest size).size = info.size - size := rfl
  have restPlace : (info.rest size).offset = info.offset + size := rfl
  refine ⟨?_, ?_, ?_⟩
  · have tagged : (info.taken size).block.writeTags (info.taken size).size true info.reserved
        heap.region = .ok () (heap.region.stamp (info.taken size)) :=
      Block.writeTags_stamp (by omega) (by omega) (by omega) (by omega) (by omega)
    rw [takenSize] at tagged
    rw [Block.stamp_of_tag size true (shows.tag_of_mem unlistedSound member)]
    exact tagged
  · have holds : (heap.region.stamp (info.taken size)).Holds (info.taken size) :=
      Region.holds_stamp (by omega) (by omega) (by omega) (by omega) (by omega) (by omega)
    have read : info.block.tag (heap.region.stamp (info.taken size)) =
        .ok (info.taken size).tag :=
      Block.tag_of_header holds.header (by omega) (by rw [Region.size_stamp]; omega)
    rw [Block.next_of_tag read, BlockInfo.size_tag, takenSize]
    rfl
  · exact Block.writeTags_stamp (by omega) (by omega) (by rw [Region.size_stamp]; omega)
      restSized.grained (by omega)

theorem does_divide (divides : minBlock ≤ info.size - size) :
    (shape.without [info]).Does
      (do
        info.block.stamp size true
        let rest ← info.block.next
        rest.writeTags (info.size - size) false false
        Heap.file rest)
      () (shape.carved front info size back) [] (shape.divided front info size back).Held := by
  have tiles := BlockInfo.tiles_carved (sized_carved sound split) wide grained enough
  have remains : info.remainder size = [info.rest size] := if_pos divides
  have result : shape.carved front info size back =
      (shape.divided front info size back).filed (info.rest size) := if_pos divides
  intro before shows
  obtain ⟨stamped, next, written⟩ := writes_divided sound split wide grained enough divides shows
  have leads := (gap_carved sound split).leads_stamps (sound.without [info]) tiles shows
  have dividedSound := sound_divided sound split wide grained enough
  have filed := does_file dividedSound (mem_divided_rest divides) rfl
    (unlisted_rest sound split wide grained enough divides)
  rw [remains] at leads
  rw [result]
  rw [divided, remains] at filed ⊢
  obtain ⟨after, ran, leadsOn⟩ := filed _ leads.shows
  refine ⟨after, ?_, leads.trans leadsOn⟩
  rw [HeapM.run_bind (HeapM.run_change stamped), HeapM.run_bind (HeapM.run_read next),
    HeapM.run_bind (HeapM.run_change written)]
  exact ran

theorem does_carve (listed : info ∈ shape.lists info.cls) :
    shape.Does (Heap.carve info.block size) () (shape.carved front info size back) []
      shape.Held := by
  have member : info ∈ shape.blocks := sound.listed listed
  have unlistedSound := sound.without [info]
  have free : AllFree [info] := allFree_cons.2 ⟨sound.orderly.free listed, nofun⟩
  have gap := gap_carved sound split
  have stays : ∀ index, shape.Held index → (shape.divided front info size back).Held index :=
    fun index held => gap.held_of_free (info.taken size :: info.remainder size) free held
  rw [Heap.carve]
  apply Does.bind_read (sees_size sound member)
  apply (Does.require (decide_eq_true enough) _ _).bind
  apply (does_unfile sound listed).bind
  by_cases divides : minBlock ≤ info.size - size
  · rw [if_pos divides]
    exact (does_divide sound split wide grained enough divides).weaken stays
  · have remains : info.remainder size = [] := if_neg divides
    have taken : info.taken size = { info with size := info.size, allocated := true } := by
      rw [BlockInfo.taken, if_neg divides]
    have tiles := BlockInfo.tiles_carved (sized_carved sound split) wide grained enough
    rw [remains, taken] at tiles
    have stamped := gap.does_stamp unlistedSound member tiles
    have result : shape.carved front info size back = (shape.without [info]).withBlocks
        (front ++ { info with size := info.size, allocated := true } :: back) := by
      rw [carved, if_neg divides, divided, remains, taken]
      rfl
    rw [if_neg divides, result]
    apply stamped.weaken
    intro index held
    exact gap.held_of_free [_] free held

end Carving

theorem blocks_carved (shape : Shape) (front : List BlockInfo) (info : BlockInfo) (size : Nat)
    (back : List BlockInfo) : (shape.carved front info size back).blocks =
      front ++ (info.taken size :: (info.remainder size ++ back)) :=
  congrArg Layout.blocks (shape.carved_layout front info size back)

theorem complete_carved (sound : shape.Sound) (complete : shape.Complete)
    (split : shape.blocks = front ++ info :: back) :
    (shape.carved front info size back).Complete := by
  have distinct := sound.layout.tiles.nodup
  rw [split, List.nodup_middle, List.nodup_cons, List.mem_append, not_or] at distinct
  obtain ⟨⟨notFront, notBack⟩, -⟩ := distinct
  have kept : ∀ member ∈ shape.blocks, member.allocated = false → member ≠ info →
      member ∈ shape.lists.without [info] member.cls := by
    intro member inBlocks free different
    exact FreeLists.mem_without.2 ⟨complete member inBlocks free, by simpa using different⟩
  intro member inBlocks free
  rw [blocks_carved, List.mem_append, List.mem_cons, List.mem_append] at inBlocks
  have old : (member ∈ front ∨ member ∈ back) →
      member ∈ shape.lists.without [info] member.cls := by
    rintro (inFront | inBack)
    · exact kept member (by simp [split, inFront]) free fun same => notFront (same ▸ inFront)
    · exact kept member (by simp [split, inBack]) free fun same => notBack (same ▸ inBack)
  unfold carved
  split
  · rename_i divides
    apply FreeLists.mem_filed.2
    rw [BlockInfo.remainder, if_pos divides, List.mem_singleton] at inBlocks
    rcases inBlocks with inFront | rfl | rfl | inBack
    · exact .inl (old (.inl inFront))
    · exact absurd free.symm Bool.false_ne_true
    · exact .inr ⟨rfl, rfl⟩
    · exact .inl (old (.inr inBack))
  · rename_i whole
    rw [BlockInfo.remainder, if_neg whole] at inBlocks
    rcases inBlocks with inFront | rfl | none | inBack
    · exact old (.inl inFront)
    · exact absurd free.symm Bool.false_ne_true
    · cases none
    · exact old (.inr inBack)

/-- Nothing but the new block becomes allocated. -/
theorem allocated_carved (split : shape.blocks = front ++ info :: back)
    (free : info.allocated = false) :
    (shape.carved front info size back).allocated.Perm (info.taken size :: shape.allocated) := by
  have nothing : [info].filter BlockInfo.allocated = [] :=
    filter_allocated_of_free (allFree_cons.2 ⟨free, nofun⟩)
  have before : shape.allocated =
      front.filter BlockInfo.allocated ++ back.filter BlockInfo.allocated := by
    rw [allocated, split, List.append_cons, List.filter_append, List.filter_append, nothing,
      List.append_nil]
  have later : (shape.carved front info size back).allocated = front.filter BlockInfo.allocated ++
      info.taken size :: back.filter BlockInfo.allocated := by
    have isAllocated : (info.taken size).allocated = true := rfl
    rw [allocated, blocks_carved, List.filter_append, List.filter_cons_of_pos isAllocated,
      List.filter_append, filter_allocated_of_free (info.allFree_remainder size),
      List.nil_append]
  rw [before, later]
  exact List.perm_middle

theorem separated_carved (split : shape.blocks = front ++ info :: back)
    (separated : Separated shape.blocks) (free : info.allocated = false)
    (unreserved : info.reserved = false) :
    Separated (shape.carved front info size back).blocks := by
  rw [split, separated_split] at separated
  obtain ⟨inFront, behind⟩ := separated
  obtain ⟨next, inBack⟩ := separated_cons.1 behind
  have rest : Separated (info.remainder size ++ back) := by
    unfold BlockInfo.remainder
    split
    · refine separated_cons.2 ⟨fun first isFirst => ?_, inBack⟩
      rcases next first isFirst with allocated | reserved | admitted
      · rw [free] at allocated
        exact absurd allocated Bool.false_ne_true
      · rw [unreserved] at reserved
        exact absurd reserved Bool.false_ne_true
      · exact .inr (.inr admitted)
    · exact inBack
  rw [blocks_carved, separated_split]
  exact ⟨(separated_concat.1 inFront).1.concat_of_allocated rfl, rest.cons_of_allocated rfl⟩

theorem valid_carved (valid : shape.Valid) (split : shape.blocks = front ++ info :: back)
    (free : info.allocated = false) (unreserved : info.reserved = false) (wide : 16 ≤ size)
    (grained : size % 8 = 0) (enough : size ≤ info.size) :
    (shape.carved front info size back).Valid where
  sound := sound_carved valid.sound split wide grained enough
  complete := complete_carved valid.sound valid.complete split
  separated := separated_carved split valid.separated free unreserved

end Shape

end TaggedHeap
