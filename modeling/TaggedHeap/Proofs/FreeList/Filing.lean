import TaggedHeap.Proofs.FreeList.Basic

/-!
Contract: filing and unfiling of blocks in stored lists.

On a heap that stores orderly lists, `file` and `unfile` never fault. Each rewires the block and
its two neighbours in the list, and the heap then stores the lists with the block inserted or
removed. The main statements are `file_spliced` and `unfile_spliced`, which give the region exactly
and say what it stores.
-/

namespace TaggedHeap

/-- The byte at `index` lies outside of the two words by which neighbours name what is between them:
that of `previous` which names the block behind it, and that of `next` which names the one in
front. -/
def Links.Spares (links : Links) (index : Nat) : Prop :=
  (∀ block, links.previous = some block → index < block.offset + 4 ∨ block.offset + 8 ≤ index) ∧
    ∀ block, links.next = some block → index < block.offset ∨ block.offset + 4 ≤ index

/-- Takes a block with these links out of its list. -/
def Region.unlink (region : Region) (links : Links) : Region :=
  (region.linkOn links.previous links.next).linkBack links.next links.previous

/-- Gives a block these links and lets its neighbours name it. -/
def Region.linkIn (region : Region) (block : Block) (links : Links) : Region :=
  (((region.linkBack (some block) links.previous).linkOn (some block) links.next).linkBack
    links.next (some block)).linkOn links.previous (some block)

/-- The heads after the member behind `previous` of a list became `member`. -/
def rehead (heads : Vector (Option Block) 20) :
    SizeClass → Option Block → Option Block → Vector (Option Block) 20
  | ⟨number, inside⟩, none, member => heads.set number member inside
  | _, some _, _ => heads

theorem get_rehead (heads : Vector (Option Block) 20) (cls other : SizeClass)
    (previous member : Option Block) :
    (rehead heads cls previous member).get other =
      if previous = none ∧ cls = other then member else heads.get other := by
  cases previous with
  | none =>
      change (heads.set cls member cls.isLt)[other] = if _ then member else heads[other]
      simp only [Fin.getElem_fin, Vector.getElem_set, true_and, Fin.ext_iff]
  | some block => simp [rehead]

namespace Region

variable {region : Region} {block : Block} {links : Links}

@[simp] theorem size_unlink (region : Region) (links : Links) :
    (region.unlink links).size = region.size := by
  simp only [unlink, size_linkBack, size_linkOn]

@[simp] theorem limit_unlink (region : Region) (links : Links) :
    (region.unlink links).limit = region.limit := by
  simp only [unlink, limit_linkBack, limit_linkOn]

@[simp] theorem size_linkIn (region : Region) (block : Block) (links : Links) :
    (region.linkIn block links).size = region.size := by
  simp only [linkIn, size_linkBack, size_linkOn]

@[simp] theorem limit_linkIn (region : Region) (block : Block) (links : Links) :
    (region.linkIn block links).limit = region.limit := by
  simp only [linkIn, limit_linkBack, limit_linkOn]

theorem byte_unlink_of_spared {index : Nat} (spared : links.Spares index) :
    (region.unlink links).byte index = region.byte index := by
  rw [unlink, byte_linkBack_of_outside spared.2, byte_linkOn_of_outside spared.1]

theorem byte_linkIn_of_spared {index : Nat}
    (outside : index < block.offset ∨ block.offset + 8 ≤ index) (spared : links.Spares index) :
    (region.linkIn block links).byte index = region.byte index := by
  rw [linkIn, byte_linkOn_of_outside spared.1, byte_linkBack_of_outside spared.2,
    byte_linkOn_of_outside, byte_linkBack_of_outside]
  · rintro other ⟨⟩
    omega
  · rintro other ⟨⟩
    omega

theorem linksAt_unlink (previousFits : ∀ block, links.previous = some block → region.Placed block)
    (nextFits : ∀ block, links.next = some block → region.Placed block) {other : Block}
    (previousSpaced : ∀ block, links.previous = some block → block.Spaced other)
    (nextSpaced : ∀ block, links.next = some block → block.Spaced other) :
    (region.unlink links).linksAt other =
      ⟨if links.next = some other then links.previous else (region.linksAt other).previous,
        if links.previous = some other then links.next else (region.linksAt other).next⟩ := by
  have later : ∀ {place : Option Block}, (∀ block, place = some block → region.Placed block) →
      ∀ block, place = some block →
        (region.linkOn links.previous links.next).Placed block :=
    fun fits block named => (fits block named).congr (size_linkOn ..)
  rw [unlink, linksAt_linkBack (later nextFits) (later previousFits) nextSpaced,
    linksAt_linkOn previousFits nextFits previousSpaced]
  split <;> split <;> rfl

theorem linksAt_linkIn (placed : region.Placed block)
    (previousFits : ∀ block, links.previous = some block → region.Placed block)
    (nextFits : ∀ block, links.next = some block → region.Placed block)
    (previousNe : links.previous ≠ some block) (nextNe : links.next ≠ some block) {other : Block}
    (spaced : block.Spaced other)
    (previousSpaced : ∀ block, links.previous = some block → block.Spaced other)
    (nextSpaced : ∀ block, links.next = some block → block.Spaced other) :
    (region.linkIn block links).linksAt other =
      if block = other then links
      else
        ⟨if links.next = some other then some block else (region.linksAt other).previous,
          if links.previous = some other then some block else (region.linksAt other).next⟩ := by
  have own : ∀ other, some block = some other → region.Placed other := by
    rintro other ⟨⟩
    exact placed
  have later : ∀ {after : Region} {place : Option Block}, after.size = region.size →
      (∀ block, place = some block → region.Placed block) →
      ∀ block, place = some block → after.Placed block :=
    fun size fits block named => (fits block named).congr size
  have ownSpaced : ∀ placed, some block = some placed → placed.Spaced other := by
    rintro placed ⟨⟩
    exact spaced
  rw [linkIn, linksAt_linkOn (later (by simp) previousFits) (later (by simp) own) previousSpaced,
    linksAt_linkBack (later (by simp) nextFits) (later (by simp) own) nextSpaced,
    linksAt_linkOn (later (by simp) own) (later (by simp) nextFits) ownSpaced,
    linksAt_linkBack own previousFits ownSpaced]
  by_cases same : block = other
  · subst other
    simp only [if_neg previousNe, if_neg nextNe, if_pos]
  · have different : some block ≠ some other := fun equal => same (Option.some.inj equal)
    simp only [if_neg same, if_neg different]
    split <;> split <;> rfl

end Region

namespace Heap

variable {heap : Heap} {info : BlockInfo} {links : Links}

theorem unfile_run (resident : heap.region.Resident info) (free : info.allocated = false)
    (linksIs : heap.region.linksAt info.block = links)
    (previousFits : ∀ block, links.previous = some block → heap.region.Placed block)
    (nextFits : ∀ block, links.next = some block → heap.region.Placed block) :
    (unfile info.block).run heap =
      .ok () { heap with
        region := heap.region.unlink links
        heads := rehead heap.heads info.cls links.previous links.next } := by
  have size : info.block.size heap.region = .ok info.size := Block.size_of_tag resident.tag_eq
  have found : info.block.links heap.region = .ok links := linksIs ▸ resident.links_eq free
  obtain ⟨previous, next⟩ := links
  rw [unfile, HeapM.run_bind (HeapM.run_read size), HeapM.run_bind (HeapM.run_read found)]
  cases previous with
  | none =>
      dsimp only
      rw [HeapM.run_bind (HeapM.run_setHead ..)]
      cases next with
      | none => rfl
      | some nextBlock =>
          have inside := (nextFits nextBlock rfl).inside
          have fits : nextBlock.offset + 4 ≤ heap.region.size := by omega
          exact HeapM.run_change (Block.setPrevious_of_le none fits)
  | some previousBlock =>
      have previousInside := (previousFits previousBlock rfl).inside
      dsimp only
      rw [HeapM.run_bind (HeapM.run_change (Block.setNext_of_le next previousInside))]
      cases next with
      | none => rfl
      | some nextBlock =>
          have inside := (nextFits nextBlock rfl).inside
          have fits : nextBlock.offset + 4 ≤ (heap.region.linkOn (some previousBlock)
              (some nextBlock)).size := by
            rw [Region.size_linkOn]
            omega
          exact HeapM.run_change (Block.setPrevious_of_le (some previousBlock) fits)

theorem file_run (resident : heap.region.Resident info) {first : Option Block}
    (firstIs : heap.head info.cls = first)
    (seated : seat info.size (heap.region.size + 1) none first heap.region = .ok links)
    (previousFits : ∀ block, links.previous = some block → heap.region.Placed block)
    (nextFits : ∀ block, links.next = some block → heap.region.Placed block) :
    (file info.block).run heap =
      .ok () { heap with
        region := heap.region.linkIn info.block links
        heads := rehead heap.heads info.cls links.previous (some info.block) } := by
  have size : info.block.size heap.region = .ok info.size := Block.size_of_tag resident.tag_eq
  have patienceIs : patience heap.region = .ok (heap.region.size + 1) := rfl
  have linked := Block.setLinks_of_le links resident.placed.inside
  have firstIs' : heap.head (SizeClass.ofSize info.size) = first := firstIs
  obtain ⟨previous, next⟩ := links
  rw [file, HeapM.run_bind (HeapM.run_read size)]
  dsimp only
  rw [HeapM.run_bind HeapM.run_get, firstIs', HeapM.run_bind (HeapM.run_read patienceIs),
    HeapM.run_bind (HeapM.run_read seated), HeapM.run_bind (HeapM.run_change linked)]
  cases next with
  | none =>
      cases previous with
      | none => rfl
      | some previousBlock =>
          have inside := (previousFits previousBlock rfl).inside
          exact HeapM.run_change (Block.setNext_of_le (some info.block) (by simpa using inside))
  | some nextBlock =>
      have nextInside := (nextFits nextBlock rfl).inside
      have nextFits : nextBlock.offset + 4 ≤
          ((heap.region.setWord info.block.offset (Links.encode previous)).setWord
            (info.block.offset + 4) (Links.encode (some nextBlock))).size := by
        rw [Region.size_setWord, Region.size_setWord]
        omega
      dsimp only
      rw [HeapM.run_bind (HeapM.run_change (Block.setPrevious_of_le (some info.block) nextFits))]
      cases previous with
      | none => rfl
      | some previousBlock =>
          have inside := (previousFits previousBlock rfl).inside
          exact HeapM.run_change (Block.setNext_of_le (some info.block) (by simpa using inside))

/-- The search for the seat of a block ends behind the smaller members. -/
theorem seat_of_linked {region : Region} {front back : List BlockInfo}
    (seated : info.Seated front back) {previous : Option Block} {patience : Nat}
    (linked : Linked region previous (front ++ back) none)
    (resident : ∀ member ∈ front ++ back, region.Resident member)
    (free : ∀ member ∈ front ++ back, member.allocated = false)
    (patient : (front ++ back).length < patience) :
    (seat info.size patience previous (firstOr (front ++ back) none)).run region =
      .ok ⟨lastOr front previous, firstOr back none⟩ := by
  induction front generalizing previous patience with
  | nil =>
      obtain ⟨patience, rfl⟩ := Nat.exists_eq_add_one_of_ne_zero (Nat.ne_zero_of_lt patient)
      cases back with
      | nil => rfl
      | cons other rest =>
          have otherResident := resident other List.mem_cons_self
          have size : (other.block.size).run region = .ok other.size :=
            Block.size_of_tag otherResident.tag_eq
          rw [List.nil_append, firstOr, seat, ReadM.run_bind size,
            if_pos (seated.before other rfl)]
          rfl
  | cons member rest inductionHypothesis =>
      obtain ⟨patience, rfl⟩ := Nat.exists_eq_add_one_of_ne_zero (Nat.ne_zero_of_lt patient)
      obtain ⟨smaller, others⟩ := List.forall_mem_cons.1 seated.behind
      have memberResident := resident member List.mem_cons_self
      have size : (member.block.size).run region = .ok member.size :=
        Block.size_of_tag memberResident.tag_eq
      rw [List.cons_append] at linked
      have links : (member.block.links).run region =
          .ok ⟨previous, firstOr (rest ++ back) none⟩ := by
        rw [← linked.1]
        exact memberResident.links_eq (free member List.mem_cons_self)
      rw [List.cons_append, firstOr, seat, ReadM.run_bind size, if_neg (Nat.not_le.2 smaller),
        ReadM.run_bind links]
      exact inductionHypothesis ⟨others, seated.before⟩ linked.2
        (fun other inRest => resident other (List.mem_cons_of_mem _ inRest))
        (fun other inRest => free other (List.mem_cons_of_mem _ inRest))
        (Nat.lt_of_succ_lt_succ patient)

end Heap

/-! ## What the heap stores afterwards -/

/-- A change of links: no byte changes that the links of no member reach. -/
structure Region.Relinked (before after : Region) (lists : FreeLists) : Prop where
  size : after.size = before.size
  limit : after.limit = before.limit
  byte : ∀ index, lists.Unlinked index → after.byte index = before.byte index

/-- The first of a list whose part behind `front` was replaced. -/
theorem get_rehead_self {heads : Vector (Option Block) 20} {cls : SizeClass}
    {front back : List BlockInfo} (first : heads.get cls = firstOr (front ++ back) none)
    (later : List BlockInfo) :
    (rehead heads cls (lastOr front none) (firstOr later none)).get cls =
      firstOr (front ++ later) none := by
  rw [get_rehead]
  obtain rfl | ⟨start, last, rfl⟩ := front.eq_nil_or_concat
  · exact if_pos ⟨rfl, rfl⟩
  · have hasLast : lastOr (start ++ [last]) none = some last.block := by
      rw [lastOr_append]
      rfl
    rw [List.concat_eq_append] at first ⊢
    rw [hasLast, if_neg (fun absent => nomatch absent.1), first]
    cases start <;> rfl

namespace FreeLists

variable {lists : FreeLists} {region after : Region} {heads : Vector (Option Block) 20}
  {info : BlockInfo} {cls : SizeClass} {front middle back : List BlockInfo}

theorem Stored.placed_of_mem (stored : Stored region heads lists) {block : Block}
    (named : ∃ member ∈ lists cls, member.block = block) : region.Placed block := by
  obtain ⟨member, inList, rfl⟩ := named
  exact (stored.resident inList).placed

/-- A region that differs in links only still says the same in the headers. -/
theorem resident_of_relinked (resident : region.Resident info)
    (relinked : region.Relinked after lists)
    (wide : ∀ {cls other}, other ∈ lists cls → 16 ≤ other.size)
    (apart : ∀ {cls other}, other ∈ lists cls → info = other ∨ info.Apart other) :
    after.Resident info :=
  resident.congr relinked.size.ge fun index lower upper =>
    relinked.byte index (unlinked_header wide apart lower upper)

/-- Different members of the lists are different blocks. -/
theorem Stored.block_ne (stored : Stored region heads lists) (orderly : lists.Orderly)
    {otherCls : SizeClass} {other : BlockInfo} (member : info ∈ lists cls)
    (otherMember : other ∈ lists otherCls) (different : info ≠ other) :
    info.block ≠ other.block :=
  fun same => different (stored.eq_of_block orderly member otherMember same)

section Seam

/-! A list is cut into `front`, `middle` and `back`. The blocks next to `middle` are the last of
`front` and the first of `back`. -/

variable (split : lists cls = front ++ middle ++ back)

include split

theorem mem_of_mem_front (member : info ∈ front) : info ∈ lists cls := by
  rw [split]
  exact List.mem_append_left _ (List.mem_append_left _ member)

theorem mem_of_mem_back (member : info ∈ back) : info ∈ lists cls := by
  rw [split]
  exact List.mem_append_right _ member

theorem Stored.placed_previous (stored : Stored region heads lists) (block : Block)
    (named : lastOr front none = some block) : region.Placed block := by
  obtain ⟨member, inFront, same⟩ := mem_of_lastOr named
  exact stored.placed_of_mem ⟨member, mem_of_mem_front split inFront, same⟩

theorem Stored.placed_next (stored : Stored region heads lists) (block : Block)
    (named : firstOr back none = some block) : region.Placed block := by
  obtain ⟨member, inBack, same⟩ := mem_of_firstOr named
  exact stored.placed_of_mem ⟨member, mem_of_mem_back split inBack, same⟩

theorem spaced_previous {other : Block} (spaced : ∀ member ∈ lists cls, member.block.Spaced other)
    (block : Block) (named : lastOr front none = some block) : block.Spaced other := by
  obtain ⟨member, inFront, rfl⟩ := mem_of_lastOr named
  exact spaced member (mem_of_mem_front split inFront)

theorem spaced_next {other : Block} (spaced : ∀ member ∈ lists cls, member.block.Spaced other)
    (block : Block) (named : firstOr back none = some block) : block.Spaced other := by
  obtain ⟨member, inBack, rfl⟩ := mem_of_firstOr named
  exact spaced member (mem_of_mem_back split inBack)

theorem Unlinked.spares {index : Nat} (unlinked : lists.Unlinked index) :
    (⟨lastOr front none, firstOr back none⟩ : Links).Spares index := by
  constructor
  · intro block named
    obtain ⟨member, inFront, rfl⟩ := mem_of_lastOr named
    have outside := unlinked cls member (mem_of_mem_front split inFront)
    simp only [BlockInfo.offset_block]
    omega
  · intro block named
    obtain ⟨member, inBack, rfl⟩ := mem_of_firstOr named
    have outside := unlinked cls member (mem_of_mem_back split inBack)
    simp only [BlockInfo.offset_block]
    omega

/-- Only the last of `front` names another block behind itself, and only the first of `back`
another one in front of itself. -/
structure Rewired (before after : Region) (lists : FreeLists) (front back : List BlockInfo)
    (behindFront beforeBack : Option Block) : Prop where
  links : ∀ {cls member}, member ∈ lists cls → after.linksAt member.block =
    ⟨if firstOr back none = some member.block then beforeBack
        else (before.linksAt member.block).previous,
      if lastOr front none = some member.block then behindFront
        else (before.linksAt member.block).next⟩

variable {behindFront beforeBack : Option Block}
  (rewired : Rewired region after lists front back behindFront beforeBack)
  (stored : Stored region heads lists) (orderly : lists.Orderly)

include rewired stored orderly

theorem Rewired.linked_front : Linked after none front behindFront := by
  have linked := stored.linked cls
  have distinct := orderly.distinct cls
  rw [split, List.append_assoc, linked_append] at linked
  rw [split, List.append_assoc, List.nodup_append] at distinct
  refine linked.1.linkOn ?_ fun member inFront => ?_
  · exact stored.distinct_blocks orderly (fun _ => mem_of_mem_front split) distinct.1
  · have notNext : firstOr back none ≠ some member.block :=
      firstOr_ne fun later inBack => stored.block_ne orderly (mem_of_mem_back split inBack)
        (mem_of_mem_front split inFront)
        (distinct.2.2 member inFront later (List.mem_append_right _ inBack)).symm
    rw [rewired.links (mem_of_mem_front split inFront), if_neg notNext]
    split <;> rfl

theorem Rewired.linked_back : Linked after beforeBack back none := by
  have linked := stored.linked cls
  have distinct := orderly.distinct cls
  rw [split, linked_append] at linked
  rw [split, List.nodup_append] at distinct
  refine linked.2.linkBack ?_ fun member inBack => ?_
  · exact stored.distinct_blocks orderly (fun _ => mem_of_mem_back split) distinct.2.1
  · have notPrevious : lastOr front none ≠ some member.block :=
      lastOr_ne fun earlier inFront => stored.block_ne orderly (mem_of_mem_front split inFront)
        (mem_of_mem_back split inBack)
        (distinct.2.2 earlier (List.mem_append_left _ inFront) member inBack)
    rw [rewired.links (mem_of_mem_back split inBack), if_neg notPrevious]
    split <;> rfl

theorem Rewired.linked_other {other : SizeClass} (foreign : other ≠ cls) :
    Linked after none (lists other) none := by
  have different : ∀ {neighbour member}, neighbour ∈ lists cls → member ∈ lists other →
      neighbour ≠ member := by
    rintro neighbour _ inCls inOther rfl
    exact foreign ((orderly.classed inOther).symm.trans (orderly.classed inCls))
  refine (stored.linked other).congr fun member inOther => ?_
  have notNext : firstOr back none ≠ some member.block :=
    firstOr_ne fun later inBack => stored.block_ne orderly (mem_of_mem_back split inBack) inOther
      (different (mem_of_mem_back split inBack) inOther)
  have notPrevious : lastOr front none ≠ some member.block :=
    lastOr_ne fun earlier inFront => stored.block_ne orderly (mem_of_mem_front split inFront)
      inOther (different (mem_of_mem_front split inFront) inOther)
  rw [rewired.links inOther, if_neg notNext, if_neg notPrevious]

end Seam

/-! ### Removal -/

theorem relinked_unlink (split : lists cls = front ++ [info] ++ back) :
    region.Relinked (region.unlink ⟨lastOr front none, firstOr back none⟩) lists where
  size := Region.size_unlink ..
  limit := Region.limit_unlink ..
  byte _ unlinked := Region.byte_unlink_of_spared (unlinked.spares split)

theorem Stored.unfiled (stored : Stored region heads lists) (orderly : lists.Orderly)
    (split : lists cls = front ++ [info] ++ back) :
    Stored (region.unlink ⟨lastOr front none, firstOr back none⟩)
      (rehead heads cls (lastOr front none) (firstOr back none)) (lists.without [info]) := by
  have remaining : lists.without [info] cls = front ++ back :=
    without_of_split (orderly.distinct cls) (by rw [split, List.append_assoc]; rfl)
  have member : info ∈ lists cls := by simp [split]
  have untouched : ∀ {other}, other ≠ cls → lists.without [info] other = lists other :=
    fun foreign => orderly.without_of_ne ((orderly.classed member).symm ▸ foreign)
  have rewired : Rewired region (region.unlink ⟨lastOr front none, firstOr back none⟩) lists
      front back (firstOr back none) (lastOr front none) :=
    ⟨fun inList => Region.linksAt_unlink (stored.placed_previous split) (stored.placed_next split)
      (spaced_previous split fun _ inCls => stored.spaced orderly inCls inList)
      (spaced_next split fun _ inCls => stored.spaced orderly inCls inList)⟩
  refine ⟨fun member => ?_, fun other => ?_, fun other => ?_⟩
  · have inList := (mem_without.1 member).1
    exact resident_of_relinked (stored.resident inList) (relinked_unlink split)
      (fun other => (stored.resident other).wide) (orderly.apart inList)
  · by_cases own : other = cls
    · subst other
      have first := stored.first cls
      rw [split, List.append_assoc] at first
      rw [remaining, get_rehead_self first]
    · rw [untouched own, get_rehead, if_neg fun both => own both.2.symm, stored.first]
  · by_cases own : other = cls
    · subst other
      rw [remaining, linked_append]
      exact ⟨rewired.linked_front split stored orderly, rewired.linked_back split stored orderly⟩
    · rw [untouched own]
      exact rewired.linked_other split stored orderly own

/-! ### Insertion -/

theorem relinked_linkIn (split : lists cls = front ++ [] ++ back) :
    region.Relinked (region.linkIn info.block ⟨lastOr front none, firstOr back none⟩)
      (lists.filed info) where
  size := Region.size_linkIn ..
  limit := Region.limit_linkIn ..
  byte index unlinked := by
    have old : lists.Unlinked index := fun cls member inList =>
      unlinked cls member (mem_filed.2 (.inl inList))
    have own := unlinked info.cls info (mem_filed.2 (.inr ⟨rfl, rfl⟩))
    exact Region.byte_linkIn_of_spared own (old.spares split)

theorem Stored.resident_filed (stored : Stored region heads lists)
    (resident : region.Resident info) {other : BlockInfo} (member : other ∈ lists.filed info cls) :
    region.Resident other := by
  rcases mem_filed.1 member with old | ⟨rfl, -⟩
  · exact stored.resident old
  · exact resident

theorem Stored.spaced_filed (stored : Stored region heads lists) (orderly : lists.Orderly)
    (resident : region.Resident info)
    (apart : ∀ {cls other}, other ∈ lists cls → info.Apart other) {otherCls : SizeClass}
    {first second : BlockInfo} (firstMember : first ∈ lists.filed info cls)
    (secondMember : second ∈ lists.filed info otherCls) : first.block.Spaced second.block := by
  rcases orderly.apart_filed apart firstMember secondMember with rfl | separate
  · exact .inl rfl
  · exact (stored.resident_filed resident firstMember).spaced_of_apart
      (stored.resident_filed resident secondMember) separate

theorem Stored.filed (stored : Stored region heads lists) (orderly : lists.Orderly)
    (resident : region.Resident info)
    (apart : ∀ {cls other}, other ∈ lists cls → info.Apart other)
    (split : lists info.cls = front ++ [] ++ back) (seated : info.Seated front back) :
    Stored (region.linkIn info.block ⟨lastOr front none, firstOr back none⟩)
      (rehead heads info.cls (lastOr front none) (some info.block)) (lists.filed info) := by
  have extended : lists.filed info info.cls = front ++ info :: back :=
    filed_of_seated (by rw [split, List.append_nil]) seated
  have different : ∀ {cls member}, member ∈ lists cls → member.block ≠ info.block := fun inList =>
    (stored.resident inList).block_ne_of_apart resident (apart inList).symm
  have previousNe : lastOr front none ≠ some info.block :=
    lastOr_ne fun earlier inFront => different (mem_of_mem_front split inFront)
  have nextNe : firstOr back none ≠ some info.block :=
    firstOr_ne fun later inBack => different (mem_of_mem_back split inBack)
  have inFiled : ∀ {cls member}, member ∈ lists cls → member ∈ lists.filed info cls :=
    fun inList => mem_filed.2 (.inl inList)
  have ownFiled : info ∈ lists.filed info info.cls := mem_filed.2 (.inr ⟨rfl, rfl⟩)
  have links : ∀ {cls other}, other ∈ lists.filed info cls →
      (region.linkIn info.block ⟨lastOr front none, firstOr back none⟩).linksAt other.block = _ :=
    fun isMember => Region.linksAt_linkIn resident.placed (stored.placed_previous split)
      (stored.placed_next split) previousNe nextNe
      (stored.spaced_filed orderly resident apart ownFiled isMember)
      (spaced_previous split fun _ inCls =>
        stored.spaced_filed orderly resident apart (inFiled inCls) isMember)
      (spaced_next split fun _ inCls =>
        stored.spaced_filed orderly resident apart (inFiled inCls) isMember)
  have rewired : Rewired region
      (region.linkIn info.block ⟨lastOr front none, firstOr back none⟩) lists
      front back (some info.block) (some info.block) :=
    ⟨fun inList => by rw [links (inFiled inList), if_neg (different inList).symm]⟩
  refine ⟨fun member => ?_, fun other => ?_, fun other => ?_⟩
  · exact resident_of_relinked (stored.resident_filed resident member) (relinked_linkIn split)
      (fun other => (stored.resident_filed resident other).wide)
      (orderly.apart_filed apart member)
  · by_cases own : other = info.cls
    · subst other
      have first := stored.first info.cls
      rw [split, List.append_assoc] at first
      rw [extended]
      exact get_rehead_self first (info :: back)
    · rw [filed_of_ne own, get_rehead, if_neg fun both => own both.2.symm, stored.first]
  · by_cases own : other = info.cls
    · subst other
      rw [extended, linked_append]
      refine ⟨rewired.linked_front split stored orderly, ?_,
        rewired.linked_back split stored orderly⟩
      rw [links ownFiled, if_pos rfl]
    · rw [filed_of_ne own]
      exact rewired.linked_other split stored orderly own

end FreeLists

namespace Heap

variable {heap : Heap} {lists : FreeLists} {info : BlockInfo} {front back : List BlockInfo}

theorem unfile_spliced (stored : FreeLists.Stored heap.region heap.heads lists)
    (orderly : lists.Orderly) (split : lists info.cls = front ++ info :: back) :
    (unfile info.block).run heap = .ok () { heap with
        region := heap.region.unlink ⟨lastOr front none, firstOr back none⟩
        heads := rehead heap.heads info.cls (lastOr front none) (firstOr back none) } ∧
      FreeLists.Stored (heap.region.unlink ⟨lastOr front none, firstOr back none⟩)
        (rehead heap.heads info.cls (lastOr front none) (firstOr back none))
        (lists.without [info]) := by
  have member : info ∈ lists info.cls := by simp [split]
  have cut : lists info.cls = front ++ [info] ++ back := by simp [split]
  have linked := stored.linked info.cls
  rw [split] at linked
  exact ⟨unfile_run (stored.resident member) (orderly.free member) linked.links_of_mem
    (stored.placed_previous cut) (stored.placed_next cut), stored.unfiled orderly cut⟩

theorem unfile_stored (stored : FreeLists.Stored heap.region heap.heads lists)
    (orderly : lists.Orderly) (member : info ∈ lists info.cls) :
    ∃ region heads, (unfile info.block).run heap =
        .ok () { heap with region := region, heads := heads } ∧
      FreeLists.Stored region heads (lists.without [info]) ∧
      heap.region.Relinked region lists := by
  obtain ⟨front, back, split⟩ := List.append_of_mem member
  have cut : lists info.cls = front ++ [info] ++ back := by simp [split]
  obtain ⟨ran, later⟩ := unfile_spliced stored orderly split
  exact ⟨_, _, ran, later, FreeLists.relinked_unlink cut⟩

theorem file_spliced (stored : FreeLists.Stored heap.region heap.heads lists)
    (orderly : lists.Orderly) (resident : heap.region.Resident info)
    (apart : ∀ {cls other}, other ∈ lists cls → info.Apart other) :
    ∃ front back, lists info.cls = front ++ back ∧ info.Seated front back ∧
      (file info.block).run heap = .ok () { heap with
        region := heap.region.linkIn info.block ⟨lastOr front none, firstOr back none⟩
        heads := rehead heap.heads info.cls (lastOr front none) (some info.block) } ∧
      FreeLists.Stored (heap.region.linkIn info.block ⟨lastOr front none, firstOr back none⟩)
        (rehead heap.heads info.cls (lastOr front none) (some info.block))
        (lists.filed info) := by
  obtain ⟨front, back, split, seated⟩ := info.exists_seated (lists info.cls)
  have cut : lists info.cls = front ++ [] ++ back := by
    rw [split, List.append_nil]
  have found := seat_of_linked seated (split ▸ stored.linked info.cls)
    (fun _ member => stored.resident (split ▸ member))
    (fun _ member => orderly.free (split ▸ member))
    (split ▸ Nat.lt_succ_of_le (stored.length_le orderly info.cls))
  rw [← split] at found
  exact ⟨front, back, split, seated, file_run resident (stored.first info.cls) found
    (stored.placed_previous cut) (stored.placed_next cut),
    stored.filed orderly resident apart cut seated⟩

theorem file_stored (stored : FreeLists.Stored heap.region heap.heads lists)
    (orderly : lists.Orderly) (resident : heap.region.Resident info)
    (apart : ∀ {cls other}, other ∈ lists cls → info.Apart other) :
    ∃ region heads, (file info.block).run heap =
        .ok () { heap with region := region, heads := heads } ∧
      FreeLists.Stored region heads (lists.filed info) ∧
      heap.region.Relinked region (lists.filed info) := by
  obtain ⟨front, back, split, -, ran, later⟩ := file_spliced stored orderly resident apart
  exact ⟨_, _, ran, later, FreeLists.relinked_linkIn (by rw [split, List.append_nil])⟩

end Heap

end TaggedHeap
