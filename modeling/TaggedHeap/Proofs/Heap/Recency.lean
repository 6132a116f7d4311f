import TaggedHeap.Proofs.FreeList.Recency
import TaggedHeap.Proofs.Heap.Stop

/-!
Contract: which free blocks an operation files.

No operation files a block that was there before: what it files begins, ends or holds a payload
where no free block did. An operation files one block at most, but for a move, which files what is
left of the new block and then, merged with its neighbours, the old one. So where a block precedes
another of its size in the lists, it did so before, or the operation filed it later.
-/

namespace TaggedHeap

/-- The handle lies in a block of this extent. -/
def Covers (extent : Handle × Nat) (handle : Handle) : Prop :=
  extent.1.offset ≤ handle.offset ∧ handle.offset < extent.1.offset + extent.2

namespace FreeLists

theorem follows_marked (lists : FreeLists) (place : Nat) (reserved : Bool) :
    lists.Follows (lists.marked place reserved) [] := by
  have same (cls : SizeClass) : (lists.marked place reserved cls).map BlockInfo.extent =
      (lists cls).map BlockInfo.extent := by
    rw [marked, List.map_map]
    exact List.map_congr_left fun info _ => by simp [BlockInfo.extent]
  exact .of_sublist fun cls => same cls ▸ List.Sublist.refl _

theorem follows_refiled (lists : FreeLists) (gone : List BlockInfo) (info : BlockInfo) :
    lists.Follows ((lists.without gone).filed info) [info.extent] :=
  (Follows.without lists gone).trans (follows_filed _ _)

end FreeLists

namespace Shape

variable {shape later : Shape} {info start block result : BlockInfo}
  {front back behind : List BlockInfo} {bytes size target request : Nat} {events : List Event}
  {extent : Handle × Nat}

def Frees (shape : Shape) (extent : Handle × Nat) : Prop :=
  ∃ info ∈ shape.blocks, info.allocated = false ∧ info.extent = extent

theorem Sound.frees_of_lists (sound : shape.Sound) (listed : shape.lists.Lists extent) :
    shape.Frees extent := by
  obtain ⟨cls, isExtent⟩ := listed
  obtain ⟨info, member, rfl⟩ := List.mem_map.1 isExtent
  exact ⟨info, sound.listed member, sound.orderly.free member, rfl⟩

/-- No free block covers the handle of an allocated one. -/
theorem Sound.not_frees_of_covers (sound : shape.Sound) (member : info ∈ shape.blocks)
    (allocated : info.allocated = true) (covers : Covers extent info.handle) :
    ¬shape.Frees extent := by
  rintro ⟨other, otherMember, free, rfl⟩
  obtain ⟨lower, upper⟩ : other.offset ≤ info.offset ∧ info.offset < other.offset + other.size :=
    covers
  have wide := sound.wide member
  rcases sound.layout.tiles.apart_of_mem member otherMember with rfl | apart
  · rw [allocated] at free
    exact Bool.false_ne_true free.symm
  · have separated := apart.separated
    omega

/-! ## Merging and growth -/

section Merging

variable (merges : shape.Merges front info behind start later events)

include merges

/-- A merged block takes the place in the lists that its parts had. -/
theorem Merges.lists_later {lists : FreeLists} (filed : shape.lists = lists.filed info) :
    ∃ gone, later.lists = (lists.without gone).filed start := by
  cases merges with
  | alone stays ends => exact ⟨[], by rw [filed, FreeLists.without_nil]⟩
  | @behind run back cut free stays joins ends =>
      refine ⟨info :: run, ?_⟩
      change (shape.lists.without (info :: run)).filed _ = _
      rw [filed, FreeLists.without_filed _ List.mem_cons_self]
  | @front earlier run back first last cut free firstFree joins ends =>
      refine ⟨first :: info :: run, ?_⟩
      change (shape.lists.without (first :: info :: run)).filed _ = _
      rw [filed, FreeLists.without_filed _ (by simp)]

theorem Merges.covers (sound : shape.Sound) (split : shape.blocks = front ++ info :: behind) :
    Covers start.extent info.handle := by
  have wide := sound.wide (show info ∈ shape.blocks by simp [split])
  cases merges with
  | alone stays ends =>
      refine ⟨Nat.le_refl _, ?_⟩
      change info.offset < info.offset + info.size
      omega
  | @behind run back cut free stays joins ends =>
      refine ⟨Nat.le_refl _, ?_⟩
      change info.offset < info.offset + (info.size + sizeSum run)
      omega
  | @front earlier run back first last cut free firstFree joins ends =>
      subst last cut
      have gap : shape.blocks = earlier ++ (first :: (info :: run) ++ back) := by simp [split]
      obtain ⟨-, inGap, -⟩ := sound.tiles_part gap
      have place : info.offset = first.offset + first.size := inGap.2.2.1
      refine ⟨?_, ?_⟩
      · change first.offset ≤ info.offset
        omega
      · change info.offset < first.offset + (first.size + (info.size + sizeSum run))
        omega

end Merging

section Growing

variable (grows : shape.Grows bytes start later events)

include grows

theorem Grows.lists_later : ∃ gone, later.lists = (shape.lists.without gone).filed start := by
  obtain ⟨-, -, merges⟩ := grows
  exact merges.lists_later rfl

theorem Grows.stop_of_start (laterSound : later.Sound) :
    start.offset + start.size = later.stop := by
  obtain ⟨front, blocks, -⟩ := grows.extends_later
  have tiles := laterSound.layout.tiles
  rw [blocks] at tiles
  exact tiles.middle.2.2

end Growing

/-! ## What an operation files -/

/-- What an operation files, the latest first: no block that was free before, and two blocks only if
it gives up a payload, which the later one then covers. -/
structure Files (shape later : Shape) (surrendered : Option Handle)
    (recent : List (Handle × Nat)) : Prop where
  follows : shape.lists.Follows later.lists recent
  fresh : ∀ extent ∈ recent, ¬shape.Frees extent
  moving : ∀ newer older, [newer, older].Sublist recent →
    ∃ handle, surrendered = some handle ∧ Covers newer handle

variable {surrendered : Option Handle} {recent : List (Handle × Nat)}

theorem files_nothing (follows : shape.lists.Follows later.lists []) :
    shape.Files later surrendered [] :=
  ⟨follows, nofun, fun _ _ inOrder => nomatch inOrder⟩

theorem files_one (follows : shape.lists.Follows later.lists [extent])
    (fresh : ¬shape.Frees extent) : shape.Files later surrendered [extent] where
  follows := follows
  fresh := fun _ isExtent => List.mem_singleton.1 isExtent ▸ fresh
  moving := fun _ _ inOrder => absurd inOrder.length_le (by simp)

theorem Releases.exists_start (releases : shape.Releases info later events)
    (sound : shape.Sound) (allocated : info.allocated = true) :
    ∃ start : BlockInfo, shape.lists.Follows later.lists [start.extent] ∧
      Covers start.extent info.handle := by
  obtain @⟨front, back, start, later, events, split, merges⟩ := releases
  obtain ⟨gone, lists⟩ := merges.lists_later rfl
  refine ⟨start, ?_, ?_⟩
  · rw [lists]
    exact (FreeLists.follows_marked _ _ _).trans (FreeLists.follows_refiled _ _ _)
  · exact merges.covers (sound_released sound split allocated) (blocks_freed sound split)

theorem Releases.files (releases : shape.Releases info later events) (sound : shape.Sound)
    (member : info ∈ shape.blocks) (allocated : info.allocated = true) :
    ∃ recent, shape.Files later surrendered recent := by
  obtain ⟨start, follows, covers⟩ := releases.exists_start sound allocated
  exact ⟨_, files_one follows (sound.not_frees_of_covers member allocated covers)⟩

theorem lists_carved (shape : Shape) (front : List BlockInfo) (info : BlockInfo) (size : Nat)
    (back : List BlockInfo) : (shape.carved front info size back).lists =
      if minBlock ≤ info.size - size then (shape.lists.without [info]).filed (info.rest size)
      else shape.lists.without [info] := by
  unfold carved
  split <;> rfl

/-- Carving files what it leaves of a block. -/
theorem files_carved {middle : Shape} {gone : List BlockInfo}
    (formed : middle.lists.without [info] = shape.lists.without gone)
    (fresh : minBlock ≤ info.size - size → ¬shape.Frees (info.rest size).extent) :
    ∃ recent, shape.Files (middle.carved front info size back) surrendered recent := by
  have lists := middle.lists_carved front info size back
  rw [formed] at lists
  by_cases divides : minBlock ≤ info.size - size
  · rw [if_pos divides] at lists
    refine ⟨_, files_one ?_ (fresh divides)⟩
    rw [lists]
    exact FreeLists.follows_refiled ..
  · rw [if_neg divides] at lists
    refine ⟨_, files_nothing ?_⟩
    rw [lists]
    exact FreeLists.Follows.without ..

/-- What is left of a free block was no block of its own. -/
theorem Sound.not_frees_rest (sound : shape.Sound) (member : info ∈ shape.blocks) (wide : 16 ≤ size)
    (enough : size ≤ info.size) : ¬shape.Frees (info.rest size).extent := by
  rintro ⟨other, otherMember, -, same⟩
  have place : other.offset = info.offset + size := congrArg (fun pair => pair.1.offset) same
  have sizeIs : other.size = info.size - size := congrArg Prod.snd same
  have otherWide := sound.wide otherMember
  rcases sound.layout.tiles.apart_of_mem member otherMember with rfl | apart
  · omega
  · have separated := apart.separated
    omega

theorem Serves.files (serves : shape.Serves size block later events) (valid : shape.Valid)
    (wide : 16 ≤ size) : ∃ recent, shape.Files later none recent := by
  have sound := valid.sound
  cases serves with
  | @found front back info fit split =>
      obtain ⟨-, -, enough, -⟩ := FreeLists.mem_of_fit fit
      exact files_carved rfl fun _ => sound.not_frees_rest (by simp [split]) wide enough
  | @grown front back start middle events missing grows split =>
      obtain ⟨gone, lists⟩ := grows.lists_later
      have formed : middle.lists.without [start] = shape.lists.without (gone ++ [start]) := by
        rw [lists, FreeLists.without_filed _ List.mem_cons_self, FreeLists.without_without]
      refine files_carved formed fun divides => ?_
      rintro ⟨other, otherMember, -, same⟩
      have place : other.offset = start.offset + size := congrArg (fun pair => pair.1.offset) same
      have sizeIs : other.size = start.size - size := congrArg Prod.snd same
      have otherInside := sound.inside otherMember
      have ends := grows.stop_of_start (grows.valid valid).sound
      have longer := grows.stop_later
      have positive := (growth_sized (max size shape.policy.growthUnit)).1
      omega

/-- Growing in place files nothing that stays filed. -/
theorem Expands.files (expands : shape.Expands info target result later events)
    (valid : shape.Valid) : shape.Files later surrendered [] := by
  cases expands with
  | within runAt enough => exact files_nothing (FreeLists.Follows.without _ _)
  | @beyond front run longer first middle events runAt short grows laterRun enough =>
      obtain ⟨gone, lists⟩ := grows.lists_later
      have joins : first ∈ longer := by
        obtain ⟨-, free, -⟩ := grows.start_facts valid.complete
        obtain ⟨others, blocks, -⟩ := grows.extends_later
        have last := congrArg List.getLast? (blocks.symm.trans laterRun.split)
        rw [List.getLast?_concat, List.append_nil, List.getLast?_append_cons] at last
        rcases List.mem_cons.1 (List.mem_of_getLast? last.symm) with rfl | inRun
        · rw [laterRun.allocated] at free
          exact absurd free.symm Bool.false_ne_true
        · exact inRun
      refine files_nothing ?_
      change shape.lists.Follows (middle.lists.without longer) []
      rw [lists, FreeLists.without_filed _ joins, FreeLists.without_without]
      exact FreeLists.Follows.without ..

theorem Moves.files (moves : shape.Moves info target block later events) (valid : shape.Valid)
    (wide : 16 ≤ target) (grained : target % 8 = 0) (member : info ∈ shape.blocks)
    (allocated : info.allocated = true) :
    ∃ recent, shape.Files later (some info.handle) recent := by
  obtain ⟨serves, releases⟩ := moves
  obtain ⟨recent, files⟩ := serves.files valid wide
  have middleSound := (serves.valid_later valid wide grained).sound
  obtain ⟨start, follows, covers⟩ := releases.exists_start middleSound allocated
  refine ⟨_, files.follows.trans follows, ?_, ?_⟩
  · intro extent isRecent
    rcases List.mem_append.1 isRecent with isStart | wasRecent
    · rw [List.mem_singleton.1 isStart]
      exact valid.sound.not_frees_of_covers member allocated covers
    · exact files.fresh extent wasRecent
  · intro newer older inOrder
    cases inOrder with
    | cons _ both =>
        obtain ⟨handle, none, -⟩ := files.moving _ _ both
        cases none
    | cons_cons _ second => exact ⟨info.handle, rfl, covers⟩

theorem follows_reservedBehind (shape : Shape) (result : BlockInfo) (target : Nat) :
    shape.lists.Follows (shape.reservedBehind result target).lists [] := by
  unfold reservedBehind
  split
  · exact FreeLists.follows_marked ..
  · exact .refl _

theorem Files.reservedBehind (files : shape.Files later surrendered recent) (result : BlockInfo)
    (target : Nat) : shape.Files (later.reservedBehind result target) surrendered recent where
  follows := files.follows.trans (later.follows_reservedBehind result target)
  fresh := files.fresh
  moving := files.moving

theorem Resizes.files {request : Nat} (resizes : shape.Resizes info request result later events)
    (valid : shape.Valid) (tuned : shape.policy.resizeSlack % 8 = 0) (member : info ∈ shape.blocks)
    (allocated : info.allocated = true) :
    ∃ recent, shape.Files later (some info.handle) recent := by
  cases resizes with
  | stays judged fits enough => exact ⟨[], files_nothing (shape.follows_reservedBehind ..)⟩
  | enlarged judged fits short enlarges =>
      obtain ⟨wide, grained, -⟩ := blockSizeFor_ok judged
      cases enlarges with
      | inPlace expands => exact ⟨[], (expands.files valid).reservedBehind ..⟩
      | moved blocked moves =>
          obtain ⟨recent, files⟩ := moves.files valid (by omega) (by omega) member allocated
          exact ⟨recent, files.reservedBehind ..⟩

/-- Of two blocks of one size, the operation left the first in front of the second, or filed it
later. -/
theorem Files.recency (files : shape.Files later surrendered recent) (valid : shape.Valid)
    {newer older : Handle × Nat} (same : newer.2 = older.2)
    (precedes : later.lists.Precedes newer older) :
    shape.lists.Precedes newer older ∨ ¬shape.Frees newer ∧ (shape.Frees older ∨
      ¬shape.Frees older ∧ ∃ handle, surrendered = some handle ∧ Covers newer handle) := by
  rcases files.follows.ordered same precedes with before | ⟨isRecent, wasListed⟩ | both
  · exact .inl before
  · exact .inr ⟨files.fresh _ isRecent, .inl (valid.sound.frees_of_lists wasListed)⟩
  · have newerRecent := both.subset List.mem_cons_self
    have olderRecent := both.subset (List.mem_cons_of_mem _ List.mem_cons_self)
    exact .inr ⟨files.fresh _ newerRecent, .inr ⟨files.fresh _ olderRecent,
      files.moving _ _ both⟩⟩

end Shape

end TaggedHeap
