import TaggedHeap.Proofs.Heap.Enlarge
import TaggedHeap.Proofs.Heap.Marks

/-!
Contract: releasing a block directly after it was served.

A block is carved from a free one that has no free neighbour it could be merged with, and no mark
behind it. So the released block joins what was left of the free one and nothing else, and no mark
is lost: the free block is back where it was. It is filed anew, in front of the others of its size,
so that the next search for the same size finds it again.
-/

namespace TaggedHeap

/-! ## Lists with a member filed anew -/

namespace FreeLists

/-- The lists with a member taken out and filed again. -/
def refiled (lists : FreeLists) (info : BlockInfo) : FreeLists :=
  (lists.without [info]).filed info

variable {lists : FreeLists} {info other : BlockInfo} {cls : SizeClass} {size : Nat}

theorem perm_refiled (orderly : lists.Orderly) (listed : info ∈ lists info.cls)
    (cls : SizeClass) : (lists.refiled info cls).Perm (lists cls) := by
  by_cases own : cls = info.cls
  · subst cls
    obtain ⟨front, back, split⟩ := List.append_of_mem listed
    have remaining := without_of_split (orderly.distinct info.cls) split
    rw [refiled, filed, if_pos rfl, remaining, split]
    exact (List.perm_orderedInsert ..).trans List.perm_middle.symm
  · rw [refiled, filed_of_ne own, orderly.without_of_ne own]

/-- A smallest of the blocks that fit is found once it is filed anew. -/
theorem fit_refiled (orderly : lists.Orderly) (again : (lists.refiled info).Orderly)
    (listed : info ∈ lists info.cls) (fits : info.fits size = true)
    (distinct : ∀ cls, ∀ other ∈ lists cls, other.extent = info.extent → other = info)
    (least : ∀ cls, ∀ other ∈ lists cls, other.fits size = true → info.size ≤ other.size) :
    (lists.refiled info).fit size = some info := by
  have refiled : info ∈ lists.refiled info info.cls :=
    (perm_refiled orderly listed info.cls).mem_iff.2 listed
  cases fit : (lists.refiled info).fit size with
  | none => exact absurd fits (not_fits_of_missing again fit refiled)
  | some found =>
      obtain ⟨cls, isMember, enough, unreserved⟩ := mem_of_fit fit
      have wasMember := (perm_refiled orderly listed cls).mem_iff.1 isMember
      have foundFits : found.fits size = true := by simp [BlockInfo.fits, enough, unreserved]
      obtain ⟨noLarger, first⟩ := fit_least again fit refiled fits
      have same : info.size = found.size :=
        Nat.le_antisymm (least cls found wasMember foundFits) noLarger
      rcases first same with rfl | precedes
      · rfl
      -- Nothing of its size stands in front of a block that was filed last.
      rcases (follows_filed (lists.without [info]) info).ordered same.symm precedes with
        ⟨others, inOrder⟩ | ⟨isInfo, -⟩ | both
      · obtain ⟨other, isOther, extent⟩ :=
          List.mem_map.1 (inOrder.subset (List.mem_cons_of_mem _ List.mem_cons_self))
        obtain ⟨otherListed, different⟩ := mem_without.1 isOther
        exact absurd (List.mem_singleton.2 (distinct others other otherListed extent)) different
      · rw [distinct cls found wasMember (List.mem_singleton.1 isInfo)]
      · exact absurd both.length_le (by simp)

end FreeLists

namespace Shape

variable {shape later last : Shape} {info block : BlockInfo} {front back : List BlockInfo}
  {place size : Nat} {reserved : Bool} {events : List Event}

/-- The shape with a free block filed anew. -/
def refiled (shape : Shape) (info : BlockInfo) : Shape :=
  { shape with lists := shape.lists.refiled info }

/-! ## Neighbours of a free block without a mark -/

section Neighbours

variable (valid : shape.Valid) (split : shape.blocks = front ++ info :: back)
  (free : info.allocated = false) (unreserved : info.reserved = false)

include valid split free

theorem not_joinsFront_of_free : ¬shape.JoinsFront front := by
  rintro ⟨isFree, isUnreserved⟩
  obtain rfl | ⟨earlier, before, rfl⟩ := front.eq_nil_or_concat
  · exact absurd isFree.symm Bool.false_ne_true
  · rw [List.concat_eq_append, Layout.trail_concat] at isFree isUnreserved
    have neighbours : shape.blocks = earlier ++ before :: info :: back := by simp [split]
    rw [valid.reserved_of_neighbours neighbours isFree free] at isUnreserved
    exact absurd isUnreserved.symm Bool.false_ne_true

include unreserved

theorem allocated_lead_of_free : (shape.lead back).allocated = true := by
  cases back with
  | nil => rfl
  | cons next rest =>
      refine Bool.eq_true_of_not_eq_false fun nextFree => ?_
      rw [valid.reserved_of_neighbours split free nextFree] at unreserved
      exact absurd unreserved.symm Bool.false_ne_true

end Neighbours

/-! ## Carving undone -/

/-- Clearing a mark changes nothing where there is none. -/
theorem marked_eq_self (sound : shape.Sound)
    (unmarked : ∀ closing, ¬shape.Marked closing place) : shape.marked place false = shape := by
  have cleared : ∀ info ∈ shape.blocks, info.marked place false = info := by
    intro info member
    by_cases same : info.offset = place
    · subst place
      have unreserved : info.reserved = false :=
        Bool.eq_false_of_not_eq_true fun reserved => unmarked false (.block member reserved)
      rw [BlockInfo.marked_self, ← unreserved]
    · exact BlockInfo.marked_of_ne same
  have keeps (part : List BlockInfo) (inBlocks : ∀ info ∈ part, info ∈ shape.blocks) :
      part.map (BlockInfo.marked place false) = part :=
    (List.map_congr_left fun info member => cleared info (inBlocks info member)).trans
      (List.map_id _)
  have lists : shape.lists.marked place false = shape.lists :=
    funext fun cls => keeps _ fun info listed => sound.listed listed
  have stop : (if place = shape.stop then false else shape.stopReserved) = shape.stopReserved := by
    split
    · rename_i atEnd
      subst place
      exact (Bool.eq_false_of_not_eq_true fun reserved => unmarked true (.epilogue reserved)).symm
    · rfl
  rw [marked, keeps _ fun _ member => member, lists, stop]

/-- Freeing a block without a mark behind it changes nothing but the block. -/
theorem freed_of_unmarked (sound : shape.Sound) (split : shape.blocks = front ++ info :: back)
    (allocated : info.allocated = true)
    (unmarked : ∀ closing, ¬shape.Marked closing (info.offset + info.size)) :
    shape.freed front info back = shape.withBlocks (front ++ info.freed :: back) := by
  have freedSound := (gap_freed sound split allocated).sound_withBlocks sound
    (tiles_freed sound split)
  exact marked_eq_self freedSound fun closing marked =>
    unmarked closing (marked_of_withBlocks_freed split marked)

section Carving

variable (valid : shape.Valid) (anchored : shape.Anchored)
  (split : shape.blocks = front ++ info :: back) (free : info.allocated = false)
  (unreserved : info.reserved = false) (wide : 16 ≤ size) (enough : size ≤ info.size)

include valid anchored split free wide enough

/-- No mark lies behind a block that was carved. -/
theorem not_marked_behind_carved (closing : Bool) :
    ¬(shape.carved front info size back).Marked closing (info.offset + (info.taken size).size) := by
  intro marked
  have wasMarked := marked_of_carved split marked
  have member : info ∈ shape.blocks := by simp [split]
  have outside := outside_of_marked valid.sound wasMarked member
  have covers := BlockInfo.le_size_taken enough
  have whole : (info.taken size).size = info.size := by
    unfold BlockInfo.taken at outside covers ⊢
    dsimp only at outside covers ⊢
    split at outside
    · rename_i divides
      simp only [minBlock] at divides
      omega
    · rename_i remains
      rw [if_neg remains]
  have allocated := anchored.allocated_before valid.sound wasMarked member (by rw [whole])
  rw [free] at allocated
  exact Bool.false_ne_true allocated

omit anchored free in
/-- The parts of a free block are in no list. -/
theorem without_parts : (shape.lists.without [info]).without
    [(info.taken size).freed, info.rest size] = shape.lists.without [info] := by
  have sound := valid.sound
  have member : info ∈ shape.blocks := by simp [split]
  funext cls
  refine FreeLists.without_eq_self fun part isPart listed => ?_
  obtain ⟨wasListed, different⟩ := FreeLists.mem_without.1 listed
  have partMember := sound.listed wasListed
  rcases List.mem_cons.1 isPart with rfl | isRest
  · exact different (List.mem_singleton.2 (sound.layout.tiles.eq_of_offset partMember member rfl))
  · obtain rfl := List.mem_singleton.1 isRest
    exact sound.not_frees_rest member wide enough ⟨_, partMember, rfl, rfl⟩

omit valid anchored split wide in
/-- The parts of a free block make it up again. -/
theorem fuse_parts (divides : minBlock ≤ info.size - size) :
    (info.taken size).freed.fuse [info.rest size] = info := by
  have taken : (info.taken size).size = size := if_pos divides
  have sum : sizeSum [(info.taken size).freed, info.rest size] = info.size := by
    change (info.taken size).size + (info.size - size + 0) = info.size
    omega
  rw [BlockInfo.fuse, sum, ← free]
  rfl

omit anchored in
/-- Fusing the parts of a free block files it anew. -/
theorem fused_parts (divides : minBlock ≤ info.size - size) :
    ((((shape.divided front info size back).filed (info.rest size)).withBlocks
        (front ++ (info.taken size).freed :: ([info.rest size] ++ back))).filed
          (info.taken size).freed).fused front (info.taken size).freed [info.rest size] back =
            shape.refiled info := by
  rw [fused, fuse_parts free enough divides]
  change { shape with
    blocks := front ++ info :: back
    lists := ((((shape.lists.without [info]).filed (info.rest size)).filed
      (info.taken size).freed).without [(info.taken size).freed, info.rest size]).filed info } =
        shape.refiled info
  rw [FreeLists.without_filed _ (by simp), FreeLists.without_filed _ (by simp),
    without_parts valid split wide enough, ← split]
  rfl

omit valid anchored wide enough in
/-- A free block that was taken whole is filed anew once it is freed. -/
theorem filed_whole (whole : ¬minBlock ≤ info.size - size) :
    ((shape.divided front info size back).withBlocks
      (front ++ (info.taken size).freed :: ([] ++ back))).filed (info.taken size).freed =
        shape.refiled info := by
  have same : (info.taken size).freed = info := by
    have sameSize : (info.taken size).size = info.size := if_neg whole
    rw [BlockInfo.freed, sameSize, ← free]
    rfl
  rw [same]
  change { shape with
    blocks := front ++ info :: back
    lists := (shape.lists.without [info]).filed info } = shape.refiled info
  rw [← split]
  rfl

include unreserved

/-- A block that was carved and is freed again is merged with what was left, and with nothing
else. -/
theorem merges_of_carved (grained : size % 8 = 0) : ∃ start events,
    ((shape.carved front info size back).released front (info.taken size)
      (info.remainder size ++ back)).Merges front (info.taken size).freed
        (unmarked (info.taken size) (info.remainder size ++ back)) start (shape.refiled info)
        events := by
  have middleSound := sound_carved valid.sound split wide grained enough
  have blocks := shape.blocks_carved front info size back
  have freed := freed_of_unmarked middleSound blocks rfl
    (not_marked_behind_carved valid anchored split free wide enough)
  have unmarkedBack : unmarked (info.taken size) (info.remainder size ++ back) =
      info.remainder size ++ back := by
    have released := blocks_freed middleSound blocks
    rw [freed] at released
    exact (List.cons.inj (List.append_cancel_left released)).2.symm
  have stays := not_joinsFront_of_free valid split free
  have ends := allocated_lead_of_free valid split free unreserved
  rw [unmarkedBack, released, freed]
  by_cases divides : minBlock ≤ info.size - size
  · have remains : info.remainder size = [info.rest size] := if_pos divides
    have restFree : AllFree [info.rest size] := allFree_cons.2 ⟨rfl, List.forall_mem_nil _⟩
    rw [remains, carved, if_pos divides, ← fused_parts valid split free wide enough divides]
    exact ⟨_, _, .behind rfl restFree stays (List.cons_ne_nil _ _) ends⟩
  · have remains : info.remainder size = [] := if_neg divides
    rw [remains, carved, if_neg divides, ← filed_whole split free divides]
    exact ⟨_, _, .alone stays ends⟩

/-- Releasing a block that was just carved puts the free block back. -/
theorem releases_of_carved (grained : size % 8 = 0) : ∃ events,
    (shape.carved front info size back).Releases (info.taken size) (shape.refiled info) events := by
  obtain ⟨start, events, merges⟩ :=
    merges_of_carved valid anchored split free unreserved wide enough grained
  exact ⟨_, .intro (shape.blocks_carved front info size back) merges⟩

end Carving

/-! ## Serving undone -/

/-- What is left of a shape after a block was served and released again: nothing is different, or
there is more free space at the end. -/
inductive Undoes (shape last : Shape) : Prop where
  | same (closed : last.closed = shape.closed) (stop : last.stop = shape.stop)
      (lists : ∀ cls, (last.lists cls).Perm (shape.lists cls)) : Undoes shape last
  | longer {count : Nat} {front : List BlockInfo} {final : BlockInfo} (positive : 0 < count)
      (stop : last.stop = shape.stop + count) (blocks : last.blocks = front ++ [final])
      (epilogue : last.epilogue = ⟨⟨last.stop⟩, 0, true, false⟩)
      (extended : Extends shape.blocks shape.stop count front final) : Undoes shape last

/-- A free block that is filed anew serves the next request of the size that it was carved for. -/
theorem serves_of_refiled (valid : shape.Valid) (refiledValid : (shape.refiled info).Valid)
    (split : shape.blocks = front ++ info :: back) (free : info.allocated = false)
    (unreserved : info.reserved = false) (enough : size ≤ info.size)
    (least : ∀ cls, ∀ other ∈ shape.lists cls, other.fits size = true → info.size ≤ other.size) :
    ∃ again, (shape.refiled info).Serves size (info.taken size) again [] ∧
      again.stop = shape.stop := by
  have sound := valid.sound
  have member : info ∈ shape.blocks := by simp [split]
  have fit : (shape.refiled info).lists.fit size = some info := by
    refine FreeLists.fit_refiled sound.orderly refiledValid.sound.orderly
      (valid.complete info member free) (by simp [BlockInfo.fits, enough, unreserved]) ?_ least
    intro cls other listed same
    exact sound.layout.tiles.eq_of_offset (sound.listed listed) member
      (congrArg (fun pair => pair.1.offset) same)
  exact ⟨_, .found fit split, stop_carved ..⟩

theorem Serves.undone (serves : shape.Serves size block later events) (valid : shape.Valid)
    (anchored : shape.Anchored) (wide : 16 ≤ size) (grained : size % 8 = 0) :
    ∃ last more again, later.Releases block last more ∧ shape.Undoes last ∧
      last.Serves size block again [] ∧ again.stop = last.stop := by
  have laterValid := serves.valid_later valid wide grained
  cases serves with
  | @found front back info fit split =>
      obtain ⟨cls, listed, enough, unreserved⟩ := FreeLists.mem_of_fit fit
      have free := valid.sound.orderly.free listed
      obtain ⟨more, releases⟩ :=
        releases_of_carved valid anchored split free unreserved wide enough grained
      obtain ⟨again, serves, stop⟩ := serves_of_refiled valid (releases.valid_later laterValid rfl)
        split free unreserved enough fun cls other isListed fits =>
          (FreeLists.fit_least valid.sound.orderly fit isListed fits).1
      refine ⟨_, more, again, releases, .same rfl rfl ?_, serves, stop⟩
      exact FreeLists.perm_refiled valid.sound.orderly (valid.sound.mem_own listed)
  | @grown front back start middle events missing grows split =>
      obtain ⟨listed, free, unreserved, large⟩ := grows.start_facts valid.complete
      have enough : size ≤ start.size := Nat.le_trans (Nat.le_max_left ..) large
      have middleValid := grows.valid valid
      obtain ⟨more, releases⟩ := releases_of_carved middleValid (grows.anchored_later anchored)
        split free unreserved wide enough grained
      have onlyStart : ∀ cls, ∀ other ∈ middle.lists cls, other.fits size = true →
          start.size ≤ other.size := by
        intro cls other isListed fits
        obtain ⟨gone, lists⟩ := grows.lists_later
        rw [lists] at isListed
        rcases FreeLists.mem_filed.1 isListed with wasListed | ⟨rfl, -⟩
        · exact absurd fits (FreeLists.not_fits_of_missing valid.sound.orderly missing
            (FreeLists.mem_without.1 wasListed).1)
        · exact Nat.le_refl _
      obtain ⟨again, serves, stop⟩ := serves_of_refiled middleValid
        (releases.valid_later laterValid rfl) split free unreserved enough onlyStart
      obtain ⟨others, blocks, extended⟩ := grows.extends_later
      have positive := (growth_sized (max size shape.policy.growthUnit)).1
      refine ⟨_, more, again, releases, .longer (by omega) grows.stop_later blocks ?_ extended,
        serves, stop⟩
      exact grows.epilogue_later

end Shape

end TaggedHeap
