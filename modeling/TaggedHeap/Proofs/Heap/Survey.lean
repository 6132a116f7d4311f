import TaggedHeap.Heap.Survey
import TaggedHeap.Proofs.Shape.Execution

/-!
Contract: the views of a heap in terms of shapes.

On a heap that shows a sound shape the walk over the blocks yields the blocks of the shape, and the
walk over a list its members.
-/

namespace TaggedHeap

namespace Shape

variable {shape : Shape} {heap : Heap} {front back : List BlockInfo} {start : Nat}

theorem first_block (shows : heap.Shows shape) (sound : shape.Sound) :
    heap.prologue.next heap.region = .ok ⟨shape.start⟩ := by
  have above := sound.layout.above
  have upTo := sound.layout.tiles.le
  have size : heap.region.size = shape.stop := shows.lays.size
  have place := shows.prologue
  have isPrologue : shape.prologue.block = heap.prologue := by
    have offset : shape.start - 8 = heap.prologue.offset := by omega
    exact congrArg Block.mk offset
  have tag : shape.prologue.block.tag heap.region = .ok shape.prologue.tag :=
    Block.tag_of_header shows.lays.prologue.header (show 4 ≤ shape.start - 8 by omega)
      (show shape.start - 8 ≤ heap.region.size by omega)
  rw [← isPrologue, Block.next_of_tag tag]
  congr 2
  change shape.start - 8 + 8 = shape.start
  omega

theorem sees_surveyFrom (sound : shape.Sound) (split : shape.blocks = front ++ back)
    (inFront : Tiles shape.start front start) {count : Nat} (enough : back.length < count)
    (seen : Array BlockInfo) :
    shape.Sees (Heap.surveyFrom count ⟨start⟩ seen) (seen ++ back.toArray) := by
  intro heap shows
  induction back generalizing front start count seen with
  | nil =>
      obtain ⟨count, rfl⟩ := Nat.exists_eq_add_one_of_ne_zero (Nat.ne_zero_of_lt enough)
      have tag : (Block.tag ⟨start⟩).run heap.region = .ok (shape.lead []).tag :=
        shows.tag_lead sound split inFront
      have size : (shape.lead []).tag.size = 0 := rfl
      rw [Heap.surveyFrom, Array.append_empty]
      change ReaderT.run _ heap.region = _
      rw [ReadM.run_bind tag, if_pos size]
      rfl
  | cons info rest inductionHypothesis =>
      obtain ⟨count, rfl⟩ := Nat.exists_eq_add_one_of_ne_zero (Nat.ne_zero_of_lt enough)
      have member : info ∈ shape.blocks := by simp [split]
      have wide := sound.wide member
      obtain ⟨rfl, later, inFrontLater⟩ := sound.layout.tiles.advance split inFront
      have tag : info.block.tag.run heap.region = .ok info.tag := shows.tag_of_mem sound member
      have nonzero : info.tag.size ≠ 0 := by
        change info.size ≠ 0
        omega
      have goesOn := inductionHypothesis later inFrontLater (Nat.lt_of_succ_lt_succ enough)
        (seen.push info)
      rw [show seen ++ (info :: rest).toArray = seen.push info ++ rest.toArray by simp,
        ← goesOn, Heap.surveyFrom]
      change ReaderT.run _ heap.region = _
      rw [show (⟨info.offset⟩ : Block) = info.block from rfl, ReadM.run_bind tag, if_neg nonzero]
      rfl

end Shape

namespace Heap

theorem membersFrom_of_linked {region : Region} {members : List BlockInfo}
    {previous : Option Block} (linked : Linked region previous members none)
    (resident : ∀ member ∈ members, region.Resident member)
    (free : ∀ member ∈ members, member.allocated = false) {count : Nat}
    (enough : members.length < count) (seen : Array Block) :
    (membersFrom count (firstOr members none) seen).run region =
      .ok (seen ++ (members.map BlockInfo.block).toArray) := by
  induction members generalizing previous count seen with
  | nil =>
      obtain ⟨count, rfl⟩ := Nat.exists_eq_add_one_of_ne_zero (Nat.ne_zero_of_lt enough)
      rw [List.map_nil, Array.append_empty]
      rfl
  | cons member rest inductionHypothesis =>
      obtain ⟨count, rfl⟩ := Nat.exists_eq_add_one_of_ne_zero (Nat.ne_zero_of_lt enough)
      have links : (member.block.links).run region = .ok ⟨previous, firstOr rest none⟩ := by
        rw [← linked.1]
        exact (resident member List.mem_cons_self).links_eq (free member List.mem_cons_self)
      have goesOn := inductionHypothesis linked.2
        (fun other inRest => resident other (List.mem_cons_of_mem _ inRest))
        (fun other inRest => free other (List.mem_cons_of_mem _ inRest))
        (Nat.lt_of_succ_lt_succ enough) (seen.push member.block)
      have shift : seen ++ ((member :: rest).map BlockInfo.block).toArray =
          seen.push member.block ++ (rest.map BlockInfo.block).toArray := by simp
      rw [shift, ← goesOn, firstOr, membersFrom, ReadM.run_bind links]

/-- What the headers of a heap say: its blocks, and the epilogue as a block behind them. -/
structure Displays (heap : Heap) (blocks : List BlockInfo) (epilogue : BlockInfo) : Prop where
  blocks : heap.blocks = .ok blocks
  place : epilogue.handle = ⟨heap.region.size⟩
  header : (Block.tag ⟨heap.region.size⟩).run heap.region = .ok epilogue.tag

namespace Shows

variable {shape : Shape} {heap : Heap} (shows : heap.Shows shape) (sound : shape.Sound)

include shows sound

theorem blocks_eq : heap.blocks = .ok shape.blocks := by
  have first := Shape.first_block shows sound
  have counted := sound.layout.tiles.length_le
  have size : heap.region.size = shape.stop := shows.lays.size
  have split : shape.blocks = [] ++ shape.blocks := rfl
  have seen := Shape.sees_surveyFrom sound split rfl
    (show shape.blocks.length < heap.region.size + 1 by omega) #[] heap shows
  simp only [Heap.blocks, Heap.firstBlocks, first, bind, Except.bind, seen]
  simp [pure, Except.pure]

theorem displays : heap.Displays shape.blocks shape.epilogue where
  blocks := shows.blocks_eq sound
  place := by
    rw [shows.lays.size]
    rfl
  header := by
    rw [shows.lays.size]
    exact shows.tag_lead sound (List.append_nil _).symm sound.layout.tiles

theorem members_eq (cls : SizeClass) :
    heap.members cls = .ok ((shape.lists cls).map BlockInfo.handle) := by
  have stored := shows.stored
  have fewer := stored.length_le sound.orderly cls
  have collected : membersFrom (heap.region.size + 1) (heap.head cls) #[] heap.region =
      .ok ((shape.lists cls).map BlockInfo.block).toArray := by
    have walked := membersFrom_of_linked (stored.linked cls) (fun _ => stored.resident)
      (fun _ => sound.orderly.free) (Nat.lt_succ_of_le fewer) #[]
    rw [← stored.first cls, Array.empty_append] at walked
    exact walked
  have handles : ((shape.lists cls).map BlockInfo.block).map Block.handle =
      (shape.lists cls).map BlockInfo.handle := by
    rw [List.map_map]
    rfl
  simp only [members, firstMembers, collected, bind, Except.bind, pure, Except.pure, handles,
    List.length_map, if_neg (Nat.not_lt.2 fewer)]

theorem occupancy_eq : heap.occupancy =
    .ok (shape.blocks.foldl Occupancy.add ⟨heap.region.size, 0, 0, 0, 0⟩) := by
  simp only [occupancy, shows.blocks_eq sound, bind, Except.bind, pure, Except.pure]

theorem describe_eq : heap.describe = .ok
    (s!"heap [0, {heap.region.size}) prologue at {heap.prologue.offset}\n" ++
      String.join (shape.blocks.map describeBlock) ++ "buckets:" ++
      String.join ((List.finRange 20).map fun cls =>
        describeClass cls (shape.lists cls).length) ++ "\n") := by
  have counted : (List.finRange 20).mapM (fun cls => do
      return describeClass cls (← heap.members cls).length) =
        (.ok ((List.finRange 20).map fun cls => describeClass cls (shape.lists cls).length) :
          Except Fault (List String)) := by
    simp only [shows.members_eq sound, bind, Except.bind, List.length_map]
    exact List.mapM_pure
  rw [describe, shows.blocks_eq sound, counted]
  rfl

end Shows

end Heap

end TaggedHeap
