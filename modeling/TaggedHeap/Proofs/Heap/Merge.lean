import TaggedHeap.Heap.Merge
import TaggedHeap.Proofs.Shape.Retag
import TaggedHeap.Proofs.Shape.Valid

/-!
Contract: merging in terms of shapes.

Some neighbouring free blocks become one: they leave their lists, the first of them takes the
size of all, and it is filed anew. `Shape.fused` is that change. Which blocks join is decided by
the block in front, which must be free and not reserved, and by the run of free blocks behind.
-/

namespace TaggedHeap

/-- The first of some neighbouring blocks with the size of all of them, free. -/
def BlockInfo.fuse (first : BlockInfo) (others : List BlockInfo) : BlockInfo :=
  { first with size := sizeSum (first :: others), allocated := false }

theorem BlockInfo.sized_fuse {first : BlockInfo} {others : List BlockInfo} {start stop : Nat}
    (tiles : Tiles start (first :: others) stop) : (first.fuse others).Sized where
  wide := Nat.le_trans tiles.2.1.wide (Nat.le_add_right ..)
  grained := tiles.sizeSum_mod

namespace Shape

variable {shape : Shape} {info first : BlockInfo} {front run others back : List BlockInfo}

/-- The shape with the blocks between `front` and `back` fused. -/
def fused (shape : Shape) (front : List BlockInfo) (first : BlockInfo)
    (others back : List BlockInfo) : Shape :=
  ((shape.without (first :: others)).withBlocks
    (front ++ first.fuse others :: back)).filed (first.fuse others)

theorem does_absorb (sound : shape.Sound) (split : shape.blocks = front ++ (run ++ back))
    {start : Nat} (inFront : Tiles shape.start front start)
    (listed : ∀ info ∈ run, info ∈ shape.lists info.cls)
    (ends : (shape.lead back).allocated = true) {patience : Nat}
    (patient : run.length < patience) {sum : Nat} (fits : sum + sizeSum run ≤ maxIndex) :
    shape.Does (Heap.absorb patience ⟨start⟩ sum) (sum + sizeSum run) (shape.without run) []
      shape.Held := by
  induction run generalizing shape front start patience sum with
  | nil =>
      obtain ⟨patience, rfl⟩ := Nat.exists_eq_add_one_of_ne_zero (Nat.ne_zero_of_lt patient)
      rw [Heap.absorb, without_nil]
      have read : shape.Sees (Block.isAllocated ⟨start⟩) true :=
        ends ▸ sees_isAllocated_lead sound split inFront
      apply Does.bind_read read
      rw [if_pos rfl]
      exact Does.pure shape sum shape.Held
  | cons info rest inductionHypothesis =>
      obtain ⟨patience, rfl⟩ := Nat.exists_eq_add_one_of_ne_zero (Nat.ne_zero_of_lt patient)
      have member : info ∈ shape.blocks := by simp [split]
      have ownListed := listed info List.mem_cons_self
      have unfiledSound := sound.without [info]
      obtain ⟨rfl, later, inFrontLater, stillListed⟩ := rest_of_run sound split inFront listed
      rw [sizeSum_cons] at fits
      rw [show (⟨info.offset⟩ : Block) = info.block from rfl, Heap.absorb]
      apply Does.bind_read (sees_isAllocated sound member)
      rw [sound.orderly.free ownListed, if_neg Bool.false_ne_true]
      apply Does.bind (does_unfile sound ownListed)
      apply Does.bind_read (sees_size unfiledSound member)
      apply Does.bind_read (sees_next unfiledSound member)
      apply Does.bind_except (total_of_le (by omega))
      have absorbed := inductionHypothesis unfiledSound later inFrontLater stillListed ends
        (Nat.lt_of_succ_lt_succ patient)
        (show sum + info.size + sizeSum rest ≤ maxIndex by omega)
      rw [without_without, Nat.add_assoc] at absorbed
      exact absorbed

theorem tiles_fused (sound : shape.Sound)
    (split : shape.blocks = front ++ (first :: others ++ back)) :
    Tiles first.offset [first.fuse others] (first.offset + sizeSum (first :: others)) :=
  ⟨rfl, BlockInfo.sized_fuse (sound.tiles_part split).2.1, rfl⟩

/-- Writing and filing the block that takes the place of unlisted free ones. -/
theorem does_fuse (sound : shape.Sound) (split : shape.blocks = front ++ (first :: others ++ back))
    (free : AllFree (first :: others))
    (unlisted : ∀ member ∈ first :: others, shape.Unlisted member) (event : Event) :
    shape.Does
      (do
        first.block.stamp (sizeSum (first :: others)) false
        Heap.file first.block
        Heap.report event
        return first.block)
      first.block
      ((shape.withBlocks (front ++ first.fuse others :: back)).filed (first.fuse others))
      [event] shape.Held := by
  have gap := sound.gap split unlisted
  have fusedTiles := tiles_fused sound split
  have laterSound := gap.sound_withBlocks sound fusedTiles
  have member : first ∈ shape.blocks := by simp [split]
  have stays : ∀ index, shape.Held index →
      (shape.withBlocks (front ++ first.fuse others :: back)).Held index :=
    fun index held => gap.held_of_free [first.fuse others] free held
  have stamped := (gap.does_stamp sound member fusedTiles).weaken stays
  have fusedMember : first.fuse others ∈ front ++ first.fuse others :: back := by simp
  have filed := (does_file laterSound fusedMember rfl
    (gap.unlisted_new sound fusedTiles _ List.mem_cons_self)).weaken stays
  apply stamped.bind
  apply filed.bind
  apply (Does.report _ event _).bind
  exact Does.pure _ _ _

theorem Complete.fused (complete : shape.Complete) (sound : shape.Sound)
    (split : shape.blocks = front ++ (first :: others ++ back)) :
    (shape.fused front first others back).Complete := by
  intro info member free
  have distinct := sound.layout.tiles.nodup
  rw [split, List.nodup_append] at distinct
  obtain ⟨-, distinctRest, frontApart⟩ := distinct
  have backApart := (List.nodup_append.1 distinctRest).2.2
  apply FreeLists.mem_filed.2
  have kept : info ∈ shape.blocks → info ∉ first :: others →
      info ∈ shape.lists.without (first :: others) info.cls :=
    fun inBlocks absent => FreeLists.mem_without.2 ⟨complete info inBlocks free, absent⟩
  rcases List.mem_append.1 member with inFront | notFront
  · refine .inl (kept (by simp [split, inFront]) fun inGap => ?_)
    exact frontApart info inFront info (List.mem_append_left _ inGap) rfl
  · rcases List.mem_cons.1 notFront with rfl | inBack
    · exact .inr ⟨rfl, rfl⟩
    · refine .inl (kept (by simp [split, inBack]) fun inGap => ?_)
      exact backApart info inGap info inBack rfl

theorem allocated_fused (split : shape.blocks = front ++ (first :: others ++ back))
    (free : AllFree (first :: others)) :
    (shape.fused front first others back).allocated = shape.allocated := by
  have fusedFree : AllFree [first.fuse others] := allFree_cons.2 ⟨rfl, nofun⟩
  have blocks : (shape.fused front first others back).blocks =
      front ++ ([first.fuse others] ++ back) := rfl
  rw [allocated, allocated, blocks, split, List.filter_append, List.filter_append,
    List.filter_append, List.filter_append, filter_allocated_of_free free,
    filter_allocated_of_free fusedFree]

/-! ## The three outcomes -/

/-- A block in front joins if it is free and not reserved. -/
def JoinsFront (shape : Shape) (front : List BlockInfo) : Prop :=
  (shape.trail front).allocated = false ∧ (shape.trail front).reserved = false

theorem joinsFront_test (shape : Shape) (front : List BlockInfo) :
    (!(shape.trail front).tag.allocated && !(shape.trail front).tag.reserved) = true ↔
      shape.JoinsFront front := by
  simp [JoinsFront]

theorem closed_of_stays (stays : ¬shape.JoinsFront front) :
    ∀ last ∈ front.getLast?, last.allocated = true ∨ last.reserved = true := by
  intro last isLast
  have trail : shape.trail front = last := by
    rw [Layout.trail, List.getLastD_eq_getLast?, Option.mem_def.1 isLast]
    rfl
  rwa [JoinsFront, trail, not_and_or, Bool.not_eq_false, Bool.not_eq_false] at stays

/-- A block that does not join admits every other behind it. -/
theorem separated_of_stays (separated : Separated front)
    (stays : ¬shape.JoinsFront front) : Separated (front ++ [info]) := by
  refine separated_concat.2 ⟨separated, fun last isLast => ?_⟩
  rcases closed_of_stays stays last isLast with allocated | reserved
  · exact .inl allocated
  · exact .inr (.inl reserved)

/-- A block between neighbours that do not join stays as it is. -/
theorem merge_stays (sound : shape.Sound) (split : shape.blocks = front ++ info :: back)
    (stays : ¬shape.JoinsFront front) (ends : (shape.lead back).allocated = true) {heap : Heap}
    (shows : heap.Shows shape) : (Heap.merge info.block).run heap = .ok info.block heap := by
  have member : info ∈ shape.blocks := by simp [split]
  have later : shape.blocks = (front ++ [info]) ++ back := by simp [split]
  have tiles := sound.layout.tiles
  rw [split] at tiles
  obtain ⟨inFront, sized, -⟩ := tiles.middle
  have read : shape.Sees (Block.isAllocated ⟨info.offset + info.size⟩) true :=
    ends ▸ sees_isAllocated_lead sound later (Tiles.of_middle inFront sized rfl)
  have test := mt (joinsFront_test shape front).1 stays
  rw [Bool.not_eq_true] at test
  rw [Heap.merge, HeapM.run_bind (HeapM.run_read (sees_previous sound split heap shows)),
    HeapM.run_bind (HeapM.run_read (sees_tag_trail sound split heap shows)),
    HeapM.run_bind (HeapM.run_read (sees_next sound member heap shows)),
    HeapM.run_bind (HeapM.run_read (read heap shows))]
  simp only [test, Bool.not_false, Bool.not_true, Bool.and_self, ↓reduceIte]
  rfl

theorem does_merge_alone (sound : shape.Sound) (split : shape.blocks = front ++ info :: back)
    (stays : ¬shape.JoinsFront front) (ends : (shape.lead back).allocated = true) :
    shape.Does (Heap.merge info.block) info.block shape [] shape.Held :=
  fun heap shows => ⟨heap, merge_stays sound split stays ends shows, leads_refl shows⟩

/-- Behind a seam lies a free block, if a free run begins there. -/
theorem sees_joining (sound : shape.Sound) (split : shape.blocks = front ++ (run ++ back))
    {seam : Nat} (inFront : Tiles shape.start front seam) (free : AllFree run) (joins : run ≠ []) :
    shape.Sees (Block.isAllocated ⟨seam⟩) false := by
  have seen := sees_isAllocated_lead sound split inFront
  obtain ⟨next, rest, rfl⟩ := List.exists_cons_of_ne_nil joins
  have nextFree : (shape.lead (next :: rest ++ back)).allocated = false :=
    free next List.mem_cons_self
  rwa [nextFree] at seen

theorem does_merge_back (sound : shape.Sound)
    (split : shape.blocks = front ++ (info :: run ++ back))
    (listed : ∀ member ∈ info :: run, member ∈ shape.lists member.cls)
    (stays : ¬shape.JoinsFront front) (joins : run ≠ [])
    (ends : (shape.lead back).allocated = true) :
    shape.Does (Heap.merge info.block) info.block (shape.fused front info run back)
      [.merged info.offset info.offset (sizeSum (info :: run))] shape.Held := by
  have free : AllFree (info :: run) :=
    fun member inGap => sound.orderly.free (listed member inGap)
  have member : info ∈ shape.blocks := by simp [split]
  have later : shape.blocks = (front ++ [info]) ++ (run ++ back) := by simp [split]
  obtain ⟨inFront, inGap, -⟩ := sound.tiles_part split
  have upTo := sound.sizeSum_le split
  have widths := maxBlock_le_maxIndex
  have patient := sound.length_lt split
  have inFrontLater : Tiles shape.start (front ++ [info]) (info.offset + info.size) :=
    Tiles.of_middle inFront inGap.2.1 rfl
  have read := sees_joining sound later inFrontLater (allFree_cons.1 free).2 joins
  have test := mt (joinsFront_test shape front).1 stays
  rw [Bool.not_eq_true] at test
  have unfiledSound := sound.without [info]
  have stillListed := (rest_of_run sound split inFront listed).2.2.2
  rw [sizeSum_cons] at upTo
  rw [Heap.merge]
  apply Does.bind_read (sees_previous sound split)
  apply Does.bind_read (sees_tag_trail sound split)
  apply Does.bind_read (sees_next sound member)
  apply Does.bind_read read
  simp only [test, Bool.not_false, Bool.not_true, Bool.and_false, Bool.false_eq_true, ↓reduceIte]
  apply Does.bind (does_unfile sound (listed info List.mem_cons_self))
  apply Does.bind_read (sees_size unfiledSound member)
  apply Does.bind (Does.pure _ _ _)
  apply Does.bind_read (sees_patience _)
  apply Does.bind_read (sees_next unfiledSound member)
  apply Does.bind_except (total_of_le (show 0 + info.size ≤ maxIndex by omega))
  apply Does.bind (does_absorb unfiledSound later inFrontLater stillListed ends
    (show run.length < shape.stop + 1 by omega)
    (show 0 + info.size + sizeSum run ≤ maxIndex by omega))
  rw [without_without, Nat.zero_add]
  exact does_fuse (sound.without (info :: run)) split free
    (fun _ => unlisted_without) _

/-- After a block and the one in front of it were unfiled, the rest of their run is still listed. -/
theorem listed_of_unfiled (sound : shape.Sound)
    (split : shape.blocks = front ++ (first :: info :: run ++ back))
    (listed : ∀ member ∈ first :: info :: run, member ∈ shape.lists member.cls) :
    first ∈ (shape.without [info]).lists first.cls ∧
      ∀ other ∈ run, other ∈ ((shape.without [info]).without [first]).lists other.cls := by
  obtain ⟨-, inGap, -⟩ := sound.tiles_part split
  have distinct := inGap.nodup
  rw [List.nodup_cons, List.nodup_cons, List.mem_cons, not_or] at distinct
  obtain ⟨⟨different, firstNotRun⟩, infoNotRun, -⟩ := distinct
  constructor
  · exact FreeLists.mem_without.2 ⟨listed first List.mem_cons_self, by simpa using different⟩
  · intro other inRun
    rw [without_without]
    refine FreeLists.mem_without.2 ⟨listed other (by simp [inRun]), ?_⟩
    rintro removed
    rcases List.mem_cons.1 removed with rfl | isFirst
    · exact infoNotRun inRun
    · exact firstNotRun (List.mem_singleton.1 isFirst ▸ inRun)

theorem without_in_turn (shape : Shape) (first info : BlockInfo) (run : List BlockInfo) :
    ((shape.without [info]).without [first]).without run =
      shape.without (first :: info :: run) := by
  rw [without_without, without_without]
  apply without_congr
  intro other
  simp only [List.mem_append, List.mem_cons, List.not_mem_nil, or_false]
  tauto

theorem does_merge_front (sound : shape.Sound)
    (split : shape.blocks = front ++ (first :: info :: run ++ back))
    (listed : ∀ member ∈ first :: info :: run, member ∈ shape.lists member.cls)
    (joins : first.reserved = false) (ends : (shape.lead back).allocated = true) :
    shape.Does (Heap.merge info.block) first.block (shape.fused front first (info :: run) back)
      [.merged info.offset first.offset (sizeSum (first :: info :: run))] shape.Held := by
  have free : AllFree (first :: info :: run) :=
    fun member inGap => sound.orderly.free (listed member inGap)
  have firstMember : first ∈ shape.blocks := by simp [split]
  have member : info ∈ shape.blocks := by simp [split]
  have atInfo : shape.blocks = (front ++ [first]) ++ info :: (run ++ back) := by simp [split]
  have later : shape.blocks = (front ++ [first, info]) ++ (run ++ back) := by simp [split]
  obtain ⟨inFront, inGap, -⟩ := sound.tiles_part split
  have upTo := sound.sizeSum_le split
  have widths := maxBlock_le_maxIndex
  have patient := sound.length_lt split
  have place : info.offset = first.offset + first.size := inGap.2.2.1
  have inFrontLater : Tiles shape.start (front ++ [first, info]) (info.offset + info.size) :=
    Tiles.of_middle inFront inGap.2.1 ⟨place, inGap.2.2.2.1, by rw [place]; rfl⟩
  have trail : shape.trail (front ++ [first]) = first := Layout.trail_concat ..
  have test : (!first.tag.allocated && !first.tag.reserved) = true := by
    rw [BlockInfo.allocated_tag, BlockInfo.reserved_tag, free first List.mem_cons_self, joins]
    rfl
  have infoSound := sound.without [info]
  have unfiledSound := infoSound.without [first]
  obtain ⟨firstListed, stillListed⟩ := listed_of_unfiled sound split listed
  rw [sizeSum_cons, sizeSum_cons] at upTo
  rw [Heap.merge]
  apply Does.bind_read (sees_previous sound atInfo)
  apply Does.bind_read (sees_tag_trail sound atInfo)
  apply Does.bind_read (sees_next sound member)
  apply Does.bind_read (sees_isAllocated_lead sound later inFrontLater)
  simp only [trail, test, Bool.not_true, Bool.false_and, Bool.false_eq_true, ↓reduceIte]
  apply Does.bind (does_unfile sound (listed info (by simp)))
  apply Does.bind (does_unfile infoSound firstListed)
  apply Does.bind_read (sees_size unfiledSound member)
  apply Does.bind_read (sees_size unfiledSound firstMember)
  apply Does.bind_read (sees_patience _)
  apply Does.bind_read (sees_next unfiledSound member)
  apply Does.bind_except (total_of_le (show first.size + info.size ≤ maxIndex by omega))
  apply Does.bind (does_absorb unfiledSound later inFrontLater stillListed ends
    (show run.length < shape.stop + 1 by rw [List.length_cons] at patient; omega)
    (show first.size + info.size + sizeSum run ≤ maxIndex by omega))
  rw [without_in_turn, Nat.add_assoc]
  exact does_fuse (sound.without (first :: info :: run)) split free
    (fun _ => unlisted_without) _

theorem Sound.fused (sound : shape.Sound)
    (split : shape.blocks = front ++ (first :: others ++ back)) :
    (shape.fused front first others back).Sound := by
  have gap := (sound.without (first :: others)).gap split fun _ => unlisted_without
  have fusedTiles := tiles_fused sound split
  have member : first.fuse others ∈ front ++ first.fuse others :: back := by simp
  exact (gap.sound_withBlocks (sound.without _) fusedTiles).filed member rfl
    (gap.unlisted_new (sound.without _) fusedTiles _ List.mem_cons_self)

/-- What merging makes of the free block `info` between `front` and `behind`: the block that it
ends up in, the shape, and the events. -/
inductive Merges (shape : Shape) (front : List BlockInfo) (info : BlockInfo)
    (behind : List BlockInfo) : BlockInfo → Shape → List Event → Prop where
  | alone (stays : ¬shape.JoinsFront front) (ends : (shape.lead behind).allocated = true) :
      Merges shape front info behind info shape []
  | behind {run back : List BlockInfo} (cut : behind = run ++ back)
      (free : AllFree run) (stays : ¬shape.JoinsFront front)
      (joins : run ≠ []) (ends : (shape.lead back).allocated = true) :
      Merges shape front info behind (info.fuse run) (shape.fused front info run back)
        [.merged info.offset info.offset (sizeSum (info :: run))]
  | front {earlier run back : List BlockInfo} {first : BlockInfo}
      (last : front = earlier ++ [first])
      (cut : behind = run ++ back) (free : AllFree run)
      (firstFree : first.allocated = false) (joins : first.reserved = false)
      (ends : (shape.lead back).allocated = true) :
      Merges shape front info behind (first.fuse (info :: run))
        (shape.fused earlier first (info :: run) back)
        [.merged info.offset first.offset (sizeSum (first :: info :: run))]

theorem exists_merges (shape : Shape) (front : List BlockInfo) (info : BlockInfo)
    (behind : List BlockInfo) : ∃ start later events, shape.Merges front info behind start later
      events := by
  obtain ⟨run, back, cut, free, ends⟩ := shape.exists_run behind
  by_cases joinsFront : shape.JoinsFront front
  · obtain rfl | ⟨earlier, first, rfl⟩ := front.eq_nil_or_concat
    · exact absurd joinsFront.1.symm Bool.false_ne_true
    · rw [List.concat_eq_append] at joinsFront ⊢
      rw [JoinsFront, Layout.trail_concat] at joinsFront
      exact ⟨_, _, _, .front rfl cut free joinsFront.1 joinsFront.2 ends⟩
  · by_cases joins : run = []
    · subst run
      rw [List.nil_append] at cut
      subst behind
      exact ⟨_, _, _, .alone joinsFront ends⟩
    · exact ⟨_, _, _, .behind cut free joinsFront joins ends⟩

namespace Merges

variable {behind : List BlockInfo} {start : BlockInfo} {later : Shape} {events : List Event}
  (merges : shape.Merges front info behind start later events)

include merges

theorem same_setting : shape.SameSetting later := by
  cases merges <;> exact ⟨rfl, rfl, rfl⟩

variable (sound : shape.Sound) (complete : shape.Complete)
  (split : shape.blocks = front ++ info :: behind) (free : info.allocated = false)

include sound complete split free

theorem does : shape.Does (Heap.merge info.block) start.block later events shape.Held := by
  cases merges with
  | alone stays ends => exact does_merge_alone sound split stays ends
  | behind cut runFree stays joins ends =>
      subst cut
      have allFree := allFree_cons.2 ⟨free, runFree⟩
      exact does_merge_back sound split (complete.listed_part split allFree) stays joins ends
  | front last cut runFree firstFree joins ends =>
      subst cut last
      rw [List.append_assoc] at split
      have allFree := allFree_cons.2 ⟨firstFree, allFree_cons.2 ⟨free, runFree⟩⟩
      exact does_merge_front sound split (complete.listed_part split allFree) joins ends

omit complete free in
theorem sound_later : later.Sound := by
  cases merges with
  | alone stays ends => exact sound
  | behind cut runFree stays joins ends =>
      subst cut
      exact sound.fused split
  | front last cut runFree firstFree joins ends =>
      subst cut last
      rw [List.append_assoc] at split
      exact sound.fused split

omit free in
theorem complete_later : later.Complete := by
  cases merges with
  | alone stays ends => exact complete
  | behind cut runFree stays joins ends =>
      subst cut
      exact complete.fused sound split
  | front last cut runFree firstFree joins ends =>
      subst cut last
      rw [List.append_assoc] at split
      exact complete.fused sound split

omit sound complete in
theorem allocated_later : later.allocated = shape.allocated := by
  cases merges with
  | alone stays ends => rfl
  | behind cut runFree stays joins ends =>
      subst cut
      exact allocated_fused split (allFree_cons.2 ⟨free, runFree⟩)
  | front last cut runFree firstFree joins ends =>
      subst cut last
      rw [List.append_assoc] at split
      exact allocated_fused split (allFree_cons.2 ⟨firstFree, allFree_cons.2 ⟨free, runFree⟩⟩)

omit sound complete free in
/-- Merging separates the block from its neighbours. -/
theorem separated_later (inFront : Separated front)
    (beyond : ∀ run back, behind = run ++ back → (shape.lead back).allocated = true →
      Separated back) : Separated later.blocks := by
  cases merges with
  | alone stays ends =>
      rw [split, separated_split]
      exact ⟨separated_of_stays inFront stays, separated_of_ends (beyond [] _ rfl ends) ends⟩
  | behind cut runFree stays joins ends =>
      exact separated_split.2
        ⟨separated_of_stays inFront stays, separated_of_ends (beyond _ _ cut ends) ends⟩
  | front last cut runFree firstFree joins ends =>
      subst last
      refine separated_split.2 ⟨inFront.concat_congr fun allocated => ?_,
        separated_of_ends (beyond _ _ cut ends) ends⟩
      rw [firstFree] at allocated
      exact absurd allocated Bool.false_ne_true

omit free in
theorem valid (inFront : Separated front)
    (beyond : ∀ run back, behind = run ++ back → (shape.lead back).allocated = true →
      Separated back) : later.Valid :=
  ⟨merges.sound_later sound split, merges.complete_later sound complete split,
    merges.separated_later split inFront beyond⟩

omit sound complete split free in
theorem start_unreserved (unreserved : info.reserved = false) : start.reserved = false := by
  cases merges with
  | alone => exact unreserved
  | behind => exact unreserved
  | front last cut runFree firstFree joins ends => exact joins

omit sound in
/-- The block is free in the end, and has not become smaller. -/
theorem start_facts : start ∈ later.lists start.cls ∧ start.allocated = false ∧
    info.size ≤ start.size := by
  cases merges with
  | alone stays ends =>
      exact ⟨complete info (by simp [split]) free, free, Nat.le_refl _⟩
  | behind cut runFree stays joins ends =>
      exact ⟨FreeLists.mem_filed.2 (.inr ⟨rfl, rfl⟩), rfl, Nat.le_add_right ..⟩
  | front last cut runFree firstFree joins ends =>
      refine ⟨FreeLists.mem_filed.2 (.inr ⟨rfl, rfl⟩), rfl, ?_⟩
      rw [BlockInfo.fuse, sizeSum_cons, sizeSum_cons]
      dsimp only
      omega

end Merges

end Shape

end TaggedHeap
