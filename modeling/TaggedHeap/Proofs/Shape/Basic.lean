import TaggedHeap.Proofs.FreeList.Filing
import TaggedHeap.Proofs.FreeList.Search
import TaggedHeap.Proofs.Shape.Layout

/-!
Contract: shapes, all that a heap is but for the bytes of its clients.

Two heaps of one shape differ in their journals and in the bytes that they do not own, and every
operation of the heap does the same to both. `Heap.Shows` ties a heap to its shape, and
`Heap.Leads` says what an operation made of a heap: the shape that it now has, the events that
were reported, and the bytes that were kept.
-/

namespace TaggedHeap

structure Shape extends Layout where
  policy : Policy
  /-- Size that the region must not exceed. -/
  limit : Nat
  lists : FreeLists

namespace Shape

/-- What no operation changes: where the first block begins, the policy and the limit. -/
structure SameSetting (shape later : Shape) : Prop where
  start : later.start = shape.start
  policy : later.policy = shape.policy
  limit : later.limit = shape.limit

theorem SameSetting.refl (shape : Shape) : shape.SameSetting shape :=
  ⟨rfl, rfl, rfl⟩

theorem SameSetting.trans {shape middle later : Shape} (first : shape.SameSetting middle)
    (second : middle.SameSetting later) : shape.SameSetting later where
  start := second.start.trans first.start
  policy := second.policy.trans first.policy
  limit := second.limit.trans first.limit

/-- The lists hold free blocks of the layout, in good order. -/
structure Sound (shape : Shape) : Prop where
  layout : shape.toLayout.Sound
  orderly : shape.lists.Orderly
  listed : ∀ {cls info}, info ∈ shape.lists cls → info ∈ shape.blocks

variable {shape : Shape} {cls : SizeClass} {info other : BlockInfo}
  {front part back : List BlockInfo}

namespace Sound

variable (sound : shape.Sound)

include sound

theorem wide (member : info ∈ shape.blocks) : 16 ≤ info.size :=
  (sound.layout.tiles.sized_of_mem member).wide

theorem grained (member : info ∈ shape.blocks) : info.size % 8 = 0 :=
  (sound.layout.tiles.sized_of_mem member).grained

theorem offset_mod (member : info ∈ shape.blocks) : info.offset % 8 = 0 :=
  sound.layout.offset_mod_of_mem member

theorem above (member : info ∈ shape.blocks) : 16 ≤ info.offset :=
  Nat.le_trans sound.layout.above (sound.layout.tiles.start_le_of_mem member)

theorem inside (member : info ∈ shape.blocks) : info.offset + info.size ≤ shape.stop :=
  sound.layout.tiles.le_stop_of_mem member

theorem encodable (member : info ∈ shape.blocks) : info.offset + info.size ≤ maxBlock :=
  Nat.le_trans (sound.inside member) sound.layout.encodable

theorem mem_own (member : info ∈ shape.lists cls) : info ∈ shape.lists info.cls :=
  (sound.orderly.classed member).symm ▸ member

/-- A part of the blocks tiles a part of the region. -/
theorem tiles_part (split : shape.blocks = front ++ (info :: part ++ back)) :
    Tiles shape.start front info.offset ∧
      Tiles info.offset (info :: part) (info.offset + sizeSum (info :: part)) ∧
      Tiles (info.offset + sizeSum (info :: part)) back shape.stop := by
  have tiles := sound.layout.tiles
  rw [split, tiles_append] at tiles
  obtain ⟨_, inFront, rest⟩ := tiles
  obtain ⟨last, inPart, behind⟩ := tiles_append.1 rest
  obtain rfl := inPart.1
  obtain rfl := inPart.stop_eq
  exact ⟨inFront, inPart, behind⟩

theorem sizeSum_le (split : shape.blocks = front ++ (info :: part ++ back)) :
    info.offset + sizeSum (info :: part) ≤ maxBlock :=
  Nat.le_trans (sound.tiles_part split).2.2.le sound.layout.encodable

theorem length_lt (split : shape.blocks = front ++ (info :: part ++ back)) :
    part.length < shape.stop := by
  obtain ⟨-, inPart, behind⟩ := sound.tiles_part split
  have counted := inPart.length_le
  have upTo := behind.le
  rw [List.length_cons] at counted
  omega

/-- Links lie in the payloads of free blocks. -/
theorem unlinked_of_not_inner {index : Nat} (outside : ¬shape.Inner index) :
    shape.lists.Unlinked index := by
  intro cls info member
  have inBlocks := sound.listed member
  have wide := sound.wide inBlocks
  by_contra reached
  exact outside ⟨info, inBlocks, by omega, by omega⟩

theorem unlinked_of_held {index : Nat} (held : shape.Held index) :
    shape.lists.Unlinked index := by
  intro cls info member
  have inBlocks := sound.listed member
  have wide := sound.wide inBlocks
  have outside := held.not_inner_of_free sound.layout inBlocks (sound.orderly.free member)
  omega

end Sound

end Shape

namespace Heap

structure Shows (heap : Heap) (shape : Shape) : Prop where
  policy : heap.policy = shape.policy
  limit : heap.region.limit = shape.limit
  prologue : heap.prologue.offset + 8 = shape.start
  lays : heap.region.Lays shape.toLayout
  stored : FreeLists.Stored heap.region heap.heads shape.lists

/-- What an operation made of the heap `before`. -/
structure Leads (before after : Heap) (later : Shape) (events : List Event)
    (kept : Nat → Prop) : Prop where
  shows : after.Shows later
  journal : after.journal = before.journal ++ events.toArray
  bytes : ∀ index, kept index → after.region.byte index = before.region.byte index

variable {heap before middle after : Heap} {shape later last : Shape} {info : BlockInfo}
  {front back : List BlockInfo}

theorem Leads.trans {events more : List Event} {kept : Nat → Prop}
    (first : before.Leads middle later events kept) (second : middle.Leads after last more kept) :
    before.Leads after last (events ++ more) kept where
  shows := second.shows
  journal := by
    have joined : events.toArray ++ more.toArray = (events ++ more).toArray := by simp
    rw [second.journal, first.journal, Array.append_assoc, joined]
  bytes index isKept := (second.bytes index isKept).trans (first.bytes index isKept)

theorem Leads.weaken {events : List Event} {kept fewer : Nat → Prop}
    (leads : before.Leads after later events kept) (part : ∀ index, fewer index → kept index) :
    before.Leads after later events fewer where
  shows := leads.shows
  journal := leads.journal
  bytes index isKept := leads.bytes index (part index isKept)

namespace Shows

variable (shows : heap.Shows shape) (sound : shape.Sound)

include shows sound

theorem resident (member : info ∈ shape.blocks) : heap.region.Resident info where
  above := Nat.le_trans (by decide) (sound.above member)
  wide := sound.wide member
  inside := by
    have inside := sound.inside member
    have size : heap.region.size = shape.stop := shows.lays.size
    omega
  encodable := Nat.lt_of_le_of_lt (Nat.le_trans (Nat.le_add_right ..) (sound.encodable member))
    (by decide)
  header := (shows.lays.blocks info member).header

theorem tag_of_mem (member : info ∈ shape.blocks) :
    info.block.tag heap.region = .ok info.tag :=
  (shows.resident sound member).tag_eq

/-- The tag behind the first blocks is that of the next block, or of the epilogue. -/
theorem tag_lead (split : shape.blocks = front ++ back) {stop : Nat}
    (inFront : Tiles shape.start front stop) :
    (⟨stop⟩ : Block).tag heap.region = .ok (shape.lead back).tag := by
  have tiles := sound.layout.tiles
  rw [split, tiles_append] at tiles
  obtain ⟨middle, tilesFront, behind⟩ := tiles
  obtain rfl : stop = middle := inFront.stop_eq.trans tilesFront.stop_eq.symm
  have header := shows.lays.lead_header behind (fun info member => by simp [split, member])
  have above := sound.layout.above
  have upTo := inFront.le
  have inside := behind.le
  have size : heap.region.size = shape.stop := shows.lays.size
  have read : (⟨stop⟩ : Block).tag heap.region = .ok (heap.region.headerTag stop) :=
    Block.tag_of_le (show 4 ≤ stop by omega) (show stop ≤ heap.region.size by omega)
  rw [read, header]

/-- The block in front of a block is found by its footer, and so is the prologue. -/
theorem trail_facts (split : shape.blocks = front ++ info :: back) :
    heap.region.Holds (shape.trail front) ∧
      (shape.trail front).offset + (shape.trail front).size = info.offset ∧
      8 ≤ (shape.trail front).offset ∧ info.offset ≤ heap.region.size := by
  have tiles := sound.layout.tiles
  rw [split] at tiles
  obtain ⟨inFront, -, behind⟩ := tiles.middle
  have above := sound.layout.above
  have upTo := behind.le
  have size : heap.region.size = shape.stop := shows.lays.size
  refine ⟨shows.lays.trail_holds fun member isFront => ?_, Layout.trail_end above inFront, ?_,
    by omega⟩
  · rw [split]
    exact List.mem_append_left _ isFront
  · obtain rfl | ⟨earlier, last, rfl⟩ := front.eq_nil_or_concat
    · change 8 ≤ shape.start - 8
      omega
    · rw [List.concat_eq_append] at inFront ⊢
      rw [Layout.trail_concat]
      have first := inFront.middle.1.le
      omega

theorem previous_of_split (split : shape.blocks = front ++ info :: back) :
    info.block.previous heap.region = .ok (shape.trail front).block := by
  obtain ⟨holds, ends, above, inside⟩ := shows.trail_facts sound split
  have footSize : (heap.region.footerTag info.offset).size = (shape.trail front).size := by
    rw [← ends, holds.footer]
    rfl
  have found : info.block.previous heap.region =
      .ok ⟨info.offset - (heap.region.footerTag info.offset).size⟩ :=
    Block.previous_of_le (show 8 ≤ info.offset by omega)
      (show info.offset ≤ heap.region.size + 4 by omega)
      (show (heap.region.footerTag info.offset).size ≤ info.offset by omega)
  have place : info.offset - (heap.region.footerTag info.offset).size =
      (shape.trail front).offset := by omega
  rw [found, place]
  rfl

theorem tag_trail (split : shape.blocks = front ++ info :: back) :
    (shape.trail front).block.tag heap.region = .ok (shape.trail front).tag := by
  obtain ⟨holds, ends, above, inside⟩ := shows.trail_facts sound split
  exact Block.tag_of_header holds.header (by omega) (by omega)

end Shows

end Heap

end TaggedHeap
