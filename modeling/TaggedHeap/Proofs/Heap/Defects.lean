import TaggedHeap.Proofs.Heap.Verdict

/-!
Contract: what the defects mean that the audit names.

`Heap.Bears` reads a defect as a statement about the bytes and the heads of a heap, where a list is
what `Heap.follow` comes to from its head. Whatever the audit names is true in this sense, but for
one case: a list that leads into the list of a smaller class is reported as a cycle, since the audit
keeps one record of the blocks that it met on any list. Such a list ends where the other one does.
-/

namespace TaggedHeap.Heap

variable {heap : Heap} {cls other : SizeClass} {blocks members : List BlockInfo}
  {next : Option Block} {block : Block} {defect : Defect}

/-! ## Lists as their links lead -/

/-- The block that the links of a class lead to after `place` steps from its head. -/
def follow (heap : Heap) (cls : SizeClass) : Nat → Option Block
  | 0 => heap.head cls
  | place + 1 => (heap.follow cls place).bind fun block => (heap.region.linksAt block).next

/-- The block in front of a place of a list. -/
def inFront (heap : Heap) (cls : SizeClass) : Nat → Option Block
  | 0 => none
  | place + 1 => heap.follow cls place

def Lists (heap : Heap) (cls : SizeClass) (block : Block) : Prop :=
  ∃ place, heap.follow cls place = some block

/-- The links of a class come back to a block that they led to before. -/
def Circles (heap : Heap) (cls : SizeClass) : Prop :=
  ∃ first second block, first < second ∧ heap.follow cls first = some block ∧
    heap.follow cls second = some block

/-- From a common block on, two lists are the same. -/
theorem follow_add {place otherPlace : Nat}
    (meets : heap.follow cls place = heap.follow other otherPlace) (steps : Nat) :
    heap.follow cls (place + steps) = heap.follow other (otherPlace + steps) := by
  induction steps with
  | zero => exact meets
  | succ steps inductionHypothesis =>
      rw [← Nat.add_assoc, ← Nat.add_assoc, follow, follow, inductionHypothesis]

theorem follow_none_of_le {place later : Nat} (ends : heap.follow cls place = none)
    (le : place ≤ later) : heap.follow cls later = none := by
  obtain ⟨steps, rfl⟩ := Nat.exists_eq_add_of_le le
  induction steps with
  | zero => exact ends
  | succ steps inductionHypothesis =>
      rw [← Nat.add_assoc, follow, inductionHypothesis (Nat.le_add_right ..), Option.bind_none]

theorem not_circles_of_ends {place : Nat} (ends : heap.follow cls place = none) :
    ¬heap.Circles cls := by
  rintro ⟨first, second, block, before, isBlock, again⟩
  have returns : ∀ turns, heap.follow cls (first + turns * (second - first)) = some block := by
    intro turns
    induction turns with
    | zero => rwa [Nat.zero_mul]
    | succ turns inductionHypothesis =>
        have goesRound := follow_add (inductionHypothesis.trans isBlock.symm) (second - first)
        rw [Nat.add_sub_cancel' before.le, again] at goesRound
        rwa [Nat.succ_mul, ← Nat.add_assoc]
  have late : place ≤ first + place * (second - first) :=
    (Nat.le_mul_of_pos_right place (Nat.sub_pos_of_lt before)).trans (Nat.le_add_left ..)
  cases (returns place).symm.trans (follow_none_of_le ends late)

/-! ## Lists that the audit has followed -/

namespace Files

theorem follow_eq {front back : List BlockInfo}
    (files : heap.Files blocks cls (front ++ back) next) :
    heap.follow cls front.length = firstOr back next := by
  induction front using List.reverseRecOn generalizing back with
  | nil => exact files.first
  | append_singleton front info inductionHypothesis =>
      rw [List.append_assoc] at files
      have linked := files.linked.links_of_mem
      rw [List.length_append, List.length_singleton, follow, inductionHypothesis files]
      exact congrArg Links.next linked

theorem follow_length (files : heap.Files blocks cls members next) :
    heap.follow cls members.length = next := by
  rw [← List.append_nil members] at files
  exact files.follow_eq

theorem exists_place (files : heap.Files blocks cls members next) {info : BlockInfo}
    (member : info ∈ members) :
    ∃ place < members.length, heap.follow cls place = some info.block := by
  obtain ⟨front, back, rfl⟩ := List.append_of_mem member
  exact ⟨front.length, by simp, files.follow_eq⟩

theorem lists (files : heap.Files blocks cls members (some block)) : heap.Lists cls block :=
  ⟨members.length, files.follow_length⟩

theorem mem_of_lists (files : heap.Files blocks cls members none)
    (lists : heap.Lists cls block) : block ∈ members.map BlockInfo.block := by
  obtain ⟨place, isBlock⟩ := lists
  have inside : place < members.length := by
    refine Nat.lt_of_not_le fun beyond => ?_
    cases isBlock.symm.trans (follow_none_of_le files.follow_length beyond)
  have cut := members.take_append_drop place
  rw [← cut] at files
  have first := files.follow_eq
  rw [List.length_take_of_le inside.le, isBlock] at first
  obtain ⟨info, member, same⟩ := mem_of_firstOr first.symm
  exact same ▸ List.mem_map_of_mem (List.mem_of_mem_drop member)

theorem inFront_length (files : heap.Files blocks cls members next) :
    heap.inFront cls members.length = lastOr members none := by
  obtain rfl | ⟨front, info, rfl⟩ := members.eq_nil_or_concat
  · rfl
  · rw [List.concat_eq_append] at files ⊢
    rw [List.length_append, lastOr_append]
    exact files.follow_eq

end Files

/-! ## Defects as statements -/

/-- A block of a walk that ended at the epilogue. -/
def Has (heap : Heap) (info : BlockInfo) : Prop :=
  ∃ blocks, heap.Chain blocks ∧ info ∈ blocks

/-- The heap has the defect. -/
def Bears (heap : Heap) : Defect → Prop
  | .prologue =>
      heap.region.headerTag heap.prologue.offset ≠ ⟨8, true, false⟩ ∨
        heap.region.footerTag (heap.prologue.offset + 8) ≠ ⟨8, true, false⟩
  | .epilogue header => ∃ front info, heap.Walks front (header + 4) ∧
      info = heap.region.described (header + 4) ∧ info.size = 0 ∧
        (info.allocated = false ∨ header + 4 ≠ heap.region.size)
  | .misaligned offset => ∃ front, heap.Walks front offset ∧ offset % 8 ≠ 0
  | .badSize offset size => ∃ front info, heap.Walks front offset ∧
      info = heap.region.described offset ∧ info.size = size ∧ size ≠ 0 ∧ size < minBlock
  | .pastEnd offset => ∃ front info, heap.Walks front offset ∧
      info = heap.region.described offset ∧ heap.region.size < offset + info.size
  | .footer offset => ∃ front info, heap.Walks front offset ∧
      info = heap.region.described offset ∧ offset + info.size ≤ heap.region.size ∧
        heap.region.footerTag (offset + info.size) ≠ info.footTag
  | .adjacentFree first second => ∃ front last info, heap.Walks (front ++ [last]) second ∧
      info = heap.region.described second ∧ minBlock ≤ info.size ∧
        second + info.size ≤ heap.region.size ∧ heap.region.Holds info ∧ last.offset = first ∧
        last.allocated = false ∧ last.reserved = false ∧ info.allocated = false
  | .unlisted offset => ∃ info, heap.Has info ∧ info.offset = offset ∧
      info.allocated = false ∧ ∀ cls, ¬heap.Lists cls info.block
  | .wrongClass offset found expected => ∃ info cls, heap.Has info ∧ info.offset = offset ∧
      heap.Lists cls info.block ∧ cls.val = found ∧ info.cls.val = expected ∧ info.cls ≠ cls
  | .listedAllocated offset => ∃ info cls, heap.Has info ∧ info.offset = offset ∧
      heap.Lists cls info.block ∧ info.allocated = true
  | .unsorted found => ∃ cls first second larger info, cls.val = found ∧ first < second ∧
      heap.follow cls first = some larger.block ∧ heap.follow cls second = some info.block ∧
        heap.Has larger ∧ heap.Has info ∧ info.size < larger.size
  | .brokenLink found offset => ∃ cls place info, cls.val = found ∧ info.offset = offset ∧
      heap.follow cls place = some info.block ∧ heap.Has info ∧
        (heap.region.linksAt info.block).previous ≠ heap.inFront cls place
  | .strayLink found offset => ∃ cls blocks, cls.val = found ∧ heap.Lists cls ⟨offset⟩ ∧
      heap.Chain blocks ∧ ∀ info ∈ blocks, info.offset ≠ offset
  | .cycle found => ∃ cls, cls.val = found ∧ heap.Circles cls

/-- The list of a class leads into that of a smaller class, and ends. -/
structure Crosses (heap : Heap) (cls other : SizeClass) : Prop where
  smaller : other < cls
  shared : ∃ block, heap.Lists cls block ∧ heap.Lists other block
  ends : ∃ place, heap.follow cls place = none

theorem Files.crosses {others : List BlockInfo} {info : BlockInfo}
    (files : heap.Files blocks cls members (some info.block))
    (otherFiles : heap.Files blocks other others none) (smaller : other < cls)
    (shared : info ∈ others) : heap.Crosses cls other := by
  obtain ⟨place, inside, isBlock⟩ := otherFiles.exists_place shared
  refine ⟨smaller, ⟨info.block, files.lists, place, isBlock⟩,
    members.length + (others.length - place), ?_⟩
  rw [follow_add (files.follow_length.trans isBlock.symm), Nat.add_sub_cancel' inside.le]
  exact otherFiles.follow_length

/-- What the audit knows of the heap when it names a defect. -/
theorem Suffers.bears_or_crosses (suffers : heap.Suffers defect)
    (above : 8 ≤ heap.prologue.offset) :
    heap.Bears defect ∨ ∃ cls other, defect = .cycle cls.val ∧ heap.Crosses cls other := by
  cases suffers with
  | prologueHeader differs => exact .inl (.inl differs)
  | prologueFooter differs => exact .inl (.inr differs)
  | @epilogue front cursor walks empty early =>
      have lower := walks.tiles.le
      have header : cursor - 4 + 4 = cursor := Nat.sub_add_cancel (by omega)
      refine .inl ⟨front, heap.region.described cursor, ?_⟩
      rw [header]
      exact ⟨walks, rfl, empty, early⟩
  | badSize walks nonzero small => exact .inl ⟨_, _, walks, rfl, rfl, nonzero, small⟩
  | pastEnd walks beyond => exact .inl ⟨_, _, walks, rfl, beyond⟩
  | footer walks inside differs => exact .inl ⟨_, _, walks, rfl, inside, differs⟩
  | adjacentFree walks wide inside holds adjacent =>
      simp only [BlockInfo.Admits, not_or, Bool.not_eq_true] at adjacent
      obtain ⟨lastFree, unreserved, free⟩ := adjacent
      exact .inl ⟨_, _, _, walks, rfl, wide, inside, holds, rfl, lastFree, unreserved, free⟩
  | unlisted chain files member free absent =>
      refine .inl ⟨_, ⟨_, chain, member⟩, rfl, free, fun cls lists => absent cls ?_⟩
      exact chain.eq_of_block (files cls).subset member ((files cls).mem_of_lists lists)
  | strayLink chain files foreign =>
      refine .inl ⟨_, _, rfl, files.lists, chain, fun info member same => ?_⟩
      exact foreign info member (congrArg Block.mk same)
  | cycle chain files met =>
      rcases met with own | ⟨other, others, smaller, otherFiles, shared⟩
      · obtain ⟨place, inside, isBlock⟩ := files.exists_place own
        exact .inl ⟨_, rfl, place, _, _, inside, isBlock, files.follow_length⟩
      · exact .inr ⟨_, other, rfl, files.crosses otherFiles smaller shared⟩
  | listedAllocated chain files member allocated =>
      exact .inl ⟨_, _, ⟨_, chain, member⟩, rfl, files.lists, allocated⟩
  | wrongClass chain files member differs =>
      exact .inl ⟨_, _, ⟨_, chain, member⟩, rfl, files.lists, rfl, rfl, differs⟩
  | unsorted chain files member before smaller =>
      obtain ⟨place, inside, isLarger⟩ := files.exists_place before
      exact .inl ⟨_, place, _, _, _, rfl, inside, isLarger, files.follow_length,
        ⟨_, chain, files.subset before⟩, ⟨_, chain, member⟩, smaller⟩
  | brokenLink chain files member differs =>
      refine .inl ⟨_, _, _, rfl, rfl, files.follow_length, ⟨_, chain, member⟩, ?_⟩
      rwa [files.inFront_length]

section Damage

variable {region : Region} {policy : Policy} {built damaged : Heap}
  (created : (create policy).run (blank region policy) = .ok (.ok ()) built)
  (place : damaged.prologue = built.prologue)
  (room : built.region.size ≤ damaged.region.size)
  (found : damaged.audit = .ok (some defect))

include created place room found

/-- Whatever the bytes and the heads of a heap have become since it was built, what the audit names
is true of it, unless that is a cycle where one list leads into another. -/
theorem bears_iff_not_crosses :
    damaged.Bears defect ↔ ∀ cls other, defect = .cycle cls.val → ¬damaged.Crosses cls other := by
  obtain ⟨aligned, above, upTo⟩ := prologue_of_created created place room
  constructor
  · rintro bears cls other rfl ⟨-, -, last, ends⟩
    obtain ⟨same, isSame, circles⟩ := bears
    obtain rfl := Fin.eq_of_val_eq isSame
    exact not_circles_of_ends ends circles
  · intro apart
    rcases audit_answers aligned above upTo with ⟨passed, -⟩ | ⟨other, failed, suffers⟩
    · cases passed.symm.trans found
    · cases failed.symm.trans found
      rcases suffers.bears_or_crosses above with bears | ⟨cls, other, isCycle, crosses⟩
      · exact bears
      · exact absurd crosses (apart cls other isCycle)

end Damage

/-- A new heap of which the only block links to a place where no block is. -/
theorem bears_strayLink : ∃ built damaged,
    (create ⟨16, 8, 16, 2⟩).run (blank (.ofLimit 64) ⟨16, 8, 16, 2⟩) = .ok (.ok ()) built ∧
      damaged = { built with region := built.region.setWord 20 24 } ∧
      damaged.audit = .ok (some (.strayLink 4 24)) ∧ damaged.Bears (.strayLink 4 24) := by
  have opened : (Client.openAt (.ofLimit 64) ⟨16, 8, 16, 2⟩).any (fun client =>
      ({ client.heap with region := client.heap.region.setWord 20 24 } : Heap).audit =
        .ok (some (.strayLink 4 24))) = true := by
    decide +kernel
  obtain ⟨client, created, checked⟩ := Client.exists_created_of_any opened
  have found := of_decide_eq_true checked
  have place : ({ client.heap with region := client.heap.region.setWord 20 24 } : Heap).prologue =
      client.heap.prologue := rfl
  have size := client.heap.region.size_setWord 20 24
  have bears := (bears_iff_not_crosses created place size.ge found).2 fun cls other isCycle => by
    cases isCycle
  exact ⟨client.heap, _, created, rfl, found, bears⟩

/-- The list of class five has one block, which is made to lead to the block of class four. The
audit names a cycle, and both lists end. -/
theorem not_bears_cycle : ∃ built damaged : Heap,
    (create ⟨128, 8, 16, 2⟩).run (blank (.ofLimit 512) ⟨128, 8, 16, 2⟩) = .ok (.ok ()) built ∧
      damaged.prologue = built.prologue ∧ built.region.size ≤ damaged.region.size ∧
      damaged.audit = .ok (some (.cycle 5)) ∧ ¬damaged.Bears (.cycle 5) := by
  have played : (Client.openAt (.ofLimit 512) ⟨128, 8, 16, 2⟩).any (fun first =>
      (first.play [.allocate 1, .allocate 1, .allocate 40, .allocate 40, .release (some ⟨16⟩),
        .release (some ⟨48⟩)]).any (fun last =>
          last.heap.prologue = first.heap.prologue ∧
            first.heap.region.size ≤ (last.heap.region.setWord 52 16).size ∧
            ({ last.heap with region := last.heap.region.setWord 52 16 } : Heap).audit =
              .ok (some (.cycle 5)) ∧
            ({ last.heap with region := last.heap.region.setWord 52 16 } : Heap).follow 5 2 =
              none)) = true := by
    decide +kernel
  obtain ⟨first, created, playedOn⟩ := Client.exists_created_of_any played
  obtain ⟨last, -, checked⟩ := (Option.any_eq_true _ _).1 playedOn
  obtain ⟨place, room, found, ends⟩ := of_decide_eq_true checked
  refine ⟨first.heap, { last.heap with region := last.heap.region.setWord 52 16 }, created, place,
    room, found, ?_⟩
  rintro ⟨cls, isFive, circles⟩
  obtain rfl : cls = 5 := Fin.eq_of_val_eq isFive
  exact not_circles_of_ends ends circles

end TaggedHeap.Heap
