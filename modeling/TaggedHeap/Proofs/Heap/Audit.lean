import TaggedHeap.Heap.Audit
import TaggedHeap.Proofs.Shape.Valid

/-!
Contract: what the audit of a heap accepts.

`Heap.WellFormed` says of a heap, without reference to how it came about, that its bytes describe
some blocks and its heads some lists of them, in good order. The main statement is that the audit
finds no defect in a heap that is well formed.
-/

namespace TaggedHeap

section Reading

variable {region : Region} {blocks : List BlockInfo} {info : BlockInfo} {start : Nat}
  (tiles : Tiles start blocks region.size) (above : 4 ≤ start)
  (holds : ∀ info ∈ blocks, region.Holds info) (member : info ∈ blocks)

include tiles above holds member

theorem Region.tag_of_tiles : info.block.tag region = .ok info.tag := by
  have lower := tiles.start_le_of_mem member
  have upper := tiles.le_stop_of_mem member
  exact Block.tag_of_header (holds info member).header (by omega) (by omega)

theorem Region.links_of_tiles (free : info.allocated = false) :
    info.block.links region = .ok (region.linksAt info.block) := by
  have wide := (tiles.sized_of_mem member).wide
  have upper := tiles.le_stop_of_mem member
  exact Block.links_of_tag (region.tag_of_tiles tiles above holds member) free
    (show info.offset + 8 ≤ region.size by omega)

end Reading

namespace Heap

/-- The bytes from the prologue on describe `blocks`, and the heads the lists of the free ones. -/
structure WellFormed (heap : Heap) (blocks : List BlockInfo) (lists : FreeLists) : Prop where
  prologue : heap.region.Holds ⟨heap.prologue.handle, 8, true, false⟩
  tiles : Tiles (heap.prologue.offset + 8) blocks heap.region.size
  holds : ∀ info ∈ blocks, heap.region.Holds info
  epilogue : (heap.region.headerTag heap.region.size).size = 0 ∧
    (heap.region.headerTag heap.region.size).allocated = true
  separated : Separated blocks
  listed : ∀ {cls info}, info ∈ lists cls → info ∈ blocks ∧ info.allocated = false ∧ info.cls = cls
  complete : ∀ info ∈ blocks, info.allocated = false → info ∈ lists info.cls
  sorted : ∀ cls, (lists cls).Pairwise BlockInfo.NoLarger
  distinct : ∀ cls, (lists cls).Nodup
  first : ∀ cls, heap.head cls = firstOr (lists cls) none
  linked : ∀ cls, Linked heap.region none (lists cls) none

theorem Shows.wellFormed {heap : Heap} {shape : Shape} (shows : heap.Shows shape)
    (valid : shape.Valid) : heap.WellFormed shape.blocks shape.lists := by
  have sound := valid.sound
  have above := sound.layout.above
  have place := shows.prologue
  have size : heap.region.size = shape.stop := shows.lays.size
  refine ⟨?_, ?_, shows.lays.blocks, ?_, valid.separated, ?_, valid.complete,
    sound.orderly.sorted, sound.orderly.distinct, shows.stored.first, shows.stored.linked⟩
  · have isPrologue : shape.prologue = ⟨heap.prologue.handle, 8, true, false⟩ := by
      have offset : shape.start - 8 = heap.prologue.offset := by omega
      rw [Layout.prologue, offset]
      rfl
    rw [← isPrologue]
    exact shows.lays.prologue
  · rw [place, size]
    exact sound.layout.tiles
  · rw [size, shows.lays.epilogue]
    exact ⟨rfl, rfl⟩
  · exact fun listed =>
      ⟨sound.listed listed, sound.orderly.free listed, sound.orderly.classed listed⟩

/-- What the audit keeps of a block. -/
def Walked.ofInfo (info : BlockInfo) : Walked :=
  ⟨info.block, info.tag⟩

theorem admits_ofInfo {info next : BlockInfo} :
    (Walked.ofInfo info).admits next.tag = true ↔ info.Admits next := by
  simp only [Walked.admits, Walked.ofInfo, BlockInfo.tag, Bool.or_eq_true, BlockInfo.Admits]
  tauto

theorem audit_of_passed {heap : Heap}
    (passed : heap.auditAll.run.run heap.region = .ok (.ok ())) : heap.audit = .ok none := by
  have passedBare : heap.auditAll heap.region = .ok (.ok ()) := passed
  simp only [audit, ExceptT.run, passedBare, bind, Except.bind]
  rfl

theorem audit_of_failed {heap : Heap} {defect : Defect}
    (failed : heap.auditAll.run.run heap.region = .ok (.error defect)) :
    heap.audit = .ok (some defect) := by
  have failedBare : heap.auditAll heap.region = .ok (.error defect) := failed
  simp only [audit, ExceptT.run, failedBare, bind, Except.bind]
  rfl

namespace WellFormed

variable {heap : Heap} {blocks : List BlockInfo} {lists : FreeLists} {front back : List BlockInfo}
  {info : BlockInfo} {start : Nat} (wellFormed : heap.WellFormed blocks lists)
  (aligned : heap.prologue.offset % 8 = 0) (above : 8 ≤ heap.prologue.offset)

include wellFormed above

theorem prologue_tag : heap.prologue.tag heap.region = .ok ⟨8, true, false⟩ := by
  have upTo := wellFormed.tiles.le
  exact Block.tag_of_header wellFormed.prologue.header (show 4 ≤ heap.prologue.offset by omega)
    (show heap.prologue.offset ≤ heap.region.size by omega)

theorem prologue_footerTag : heap.prologue.footerTag heap.region = .ok ⟨8, true, false⟩ := by
  have upTo := wellFormed.tiles.le
  rw [Block.footerTag_of_tag (wellFormed.prologue_tag above) (Nat.le_add_left ..)
    (show heap.prologue.offset + 8 ≤ heap.region.size + 4 by omega)]
  exact congrArg Except.ok wellFormed.prologue.footer

theorem tag_of_mem (member : info ∈ blocks) : info.block.tag heap.region = .ok info.tag :=
  Region.tag_of_tiles wellFormed.tiles (by omega) wellFormed.holds member

theorem footerTag_of_mem (member : info ∈ blocks) :
    info.block.footerTag heap.region = .ok info.footTag := by
  have lower := wellFormed.tiles.start_le_of_mem member
  have upper := wellFormed.tiles.le_stop_of_mem member
  have wide := (wellFormed.tiles.sized_of_mem member).wide
  have tag := wellFormed.tag_of_mem above member
  have ends : 8 ≤ info.block.offset + info.tag.size := by
    change 8 ≤ info.offset + info.size
    omega
  have inside : info.block.offset + info.tag.size ≤ heap.region.size + 4 := by
    change info.offset + info.size ≤ heap.region.size + 4
    omega
  rw [Block.footerTag_of_tag tag ends inside]
  exact congrArg Except.ok (wellFormed.holds info member).footer

include aligned

/-- Nothing is wrong with a block that may follow the one in front of it. -/
theorem auditBlock_run (split : blocks = front ++ info :: back) :
    (auditBlock (front.map Walked.ofInfo).getLast? info.block info.tag).run.run heap.region =
      .ok (.ok ()) := by
  have member : info ∈ blocks := by simp [split]
  have tiles := wellFormed.tiles
  have separated := wellFormed.separated
  rw [split] at tiles separated
  have sized := tiles.middle.2.1
  have offsetAligned : info.block.offset % 8 = 0 :=
    wellFormed.tiles.offset_mod_of_mem (by omega) member
  have upper := wellFormed.tiles.le_stop_of_mem member
  have wide : ¬info.tag.size < minBlock := Nat.not_lt.2 sized.wide
  have inside : ¬heap.region.size < info.block.offset + info.tag.size := Nat.not_lt.2 upper
  have footer := wellFormed.footerTag_of_mem above member
  have seam := (separated_concat.1 (separated_split.1 separated).1).2
  unfold auditBlock
  rw [if_neg (not_not.2 offsetAligned), if_neg wide, AuditM.run_bind AuditM.run_region,
    if_neg inside]
  have agrees : ¬info.footTag ≠ ⟨info.tag.size, info.tag.allocated, false⟩ := not_not.2 rfl
  dsimp only
  rw [AuditM.run_bind (AuditM.run_read footer), if_neg agrees, List.getLast?_map]
  cases last : front.getLast? with
  | none => rfl
  | some previous =>
      have admits := admits_ofInfo.2 (seam previous last)
      simp only [Option.map_some, admits]
      rfl

/-- The walk over the blocks collects them all. -/
theorem auditChain_run (split : blocks = front ++ back)
    (inFront : Tiles (heap.prologue.offset + 8) front start) {patience : Nat}
    (patient : back.length < patience) :
    (auditChain patience ⟨start⟩ (front.map Walked.ofInfo).toArray).run.run heap.region =
      .ok (.ok (blocks.map Walked.ofInfo).toArray) := by
  induction back generalizing front start patience with
  | nil =>
      obtain ⟨patience, rfl⟩ := Nat.exists_eq_add_one_of_ne_zero (Nat.ne_zero_of_lt patient)
      have tiles := wellFormed.tiles
      rw [split, List.append_nil] at tiles ⊢
      obtain rfl : start = heap.region.size := inFront.stop_eq.trans tiles.stop_eq.symm
      obtain ⟨size, allocated⟩ := wellFormed.epilogue
      have upTo := tiles.le
      have tag : (⟨heap.region.size⟩ : Block).tag heap.region =
          .ok (heap.region.headerTag heap.region.size) :=
        Block.tag_of_le (show 4 ≤ heap.region.size by omega) (Nat.le_refl heap.region.size)
      unfold auditChain
      rw [AuditM.run_bind AuditM.run_region]
      dsimp only
      rw [if_neg (Nat.lt_irrefl _), AuditM.run_bind (AuditM.run_read tag), if_pos size]
      have closed : ¬(!(heap.region.headerTag heap.region.size).allocated ||
          decide (heap.region.size ≠ heap.region.size)) = true := by simp [allocated]
      rw [if_neg closed]
      rfl
  | cons info rest inductionHypothesis =>
      obtain ⟨patience, rfl⟩ := Nat.exists_eq_add_one_of_ne_zero (Nat.ne_zero_of_lt patient)
      have member : info ∈ blocks := by simp [split]
      obtain ⟨rfl, later, inFrontLater⟩ := wellFormed.tiles.advance split inFront
      have tag : (⟨info.offset⟩ : Block).tag heap.region = .ok info.tag :=
        wellFormed.tag_of_mem above member
      have upper := wellFormed.tiles.le_stop_of_mem member
      have wide := (wellFormed.tiles.sized_of_mem member).wide
      have inside : ¬heap.region.size < info.offset := by omega
      have nonzero : info.tag.size ≠ 0 := by
        change info.size ≠ 0
        omega
      have checked : (auditBlock (front.map Walked.ofInfo).toArray.back? ⟨info.offset⟩
          info.tag).run.run heap.region = .ok (.ok ()) := by
        rw [List.back?_toArray]
        exact wellFormed.auditBlock_run aligned above split
      have goesOn := inductionHypothesis later inFrontLater (Nat.lt_of_succ_lt_succ patient)
      rw [List.map_append, List.map_singleton, ← List.push_toArray] at goesOn
      unfold auditChain
      rw [AuditM.run_bind AuditM.run_region]
      dsimp only
      rw [if_neg inside, AuditM.run_bind (AuditM.run_read tag), if_neg nonzero,
        AuditM.run_bind checked]
      exact goesOn

omit aligned in
/-- The walk over a list collects its members. -/
theorem auditList_run {cls : SizeClass} {members : List BlockInfo} {previous : Option Block}
    (linked : Linked heap.region previous members none)
    (belong : ∀ info ∈ members, info ∈ blocks ∧ info.allocated = false ∧ info.cls = cls)
    (sorted : members.Pairwise BlockInfo.NoLarger) {least : Nat}
    (atLeast : ∀ info ∈ members, least ≤ info.size) (distinct : members.Nodup)
    {listed : List Block} (fresh : ∀ info ∈ members, info.block ∉ listed) {patience : Nat}
    (patient : members.length < patience) :
    (auditList cls (blocks.map BlockInfo.block) patience previous least (firstOr members none)
      listed).run.run heap.region =
        .ok (.ok ((members.map BlockInfo.block).reverse ++ listed)) := by
  induction members generalizing previous least listed patience with
  | nil =>
      obtain ⟨patience, rfl⟩ := Nat.exists_eq_add_one_of_ne_zero (Nat.ne_zero_of_lt patient)
      rfl
  | cons info rest inductionHypothesis =>
      obtain ⟨patience, rfl⟩ := Nat.exists_eq_add_one_of_ne_zero (Nat.ne_zero_of_lt patient)
      obtain ⟨member, free, own⟩ := belong info List.mem_cons_self
      obtain ⟨notRest, restDistinct⟩ := List.nodup_cons.1 distinct
      obtain ⟨smallest, restSorted⟩ := List.pairwise_cons.1 sorted
      obtain ⟨links, restLinked⟩ := linked
      have tag := wellFormed.tag_of_mem above member
      have known : ¬info.block ∉ blocks.map BlockInfo.block :=
        not_not.2 (List.mem_map_of_mem member)
      have isFree : ¬info.tag.allocated = true := by
        rw [BlockInfo.allocated_tag, free]
        exact Bool.false_ne_true
      have classed : ¬SizeClass.ofSize info.tag.size ≠ cls := not_not.2 own
      have ordered : ¬info.tag.size < least := Nat.not_lt.2 (atLeast info List.mem_cons_self)
      have seen : info.block.links heap.region = .ok ⟨previous, firstOr rest none⟩ := by
        rw [← links]
        exact Region.links_of_tiles wellFormed.tiles (by omega) wellFormed.holds member free
      have restFresh : ∀ other ∈ rest, other.block ∉ info.block :: listed := by
        intro other inRest isListed
        rcases List.mem_cons.1 isListed with same | earlier
        · have otherMember := (belong other (List.mem_cons_of_mem _ inRest)).1
          have equal := wellFormed.tiles.eq_of_offset otherMember member
            (congrArg Block.offset same)
          exact notRest (equal ▸ inRest)
        · exact fresh other (List.mem_cons_of_mem _ inRest) earlier
      have goesOn := inductionHypothesis restLinked
        (fun other inRest => belong other (List.mem_cons_of_mem _ inRest)) restSorted smallest
        restDistinct restFresh (Nat.lt_of_succ_lt_succ patient)
      have linkedBack : ¬previous ≠ previous := not_not.2 rfl
      rw [List.map_cons, List.reverse_cons, List.append_assoc, List.singleton_append, firstOr]
      unfold auditList
      rw [if_neg known, if_neg (fresh info List.mem_cons_self),
        AuditM.run_bind (AuditM.run_read tag)]
      dsimp only
      rw [if_neg isFree, if_neg classed, if_neg ordered, AuditM.run_bind (AuditM.run_read seen)]
      dsimp only
      rw [if_neg linkedBack]
      exact goesOn

omit aligned in
/-- The walk over all lists meets every listed block. -/
theorem auditLists_run {classes : List SizeClass} (different : classes.Nodup)
    {listed : List Block}
    (fresh : ∀ cls ∈ classes, ∀ info ∈ lists cls, info.block ∉ listed) :
    ∃ met, (heap.auditLists (blocks.map BlockInfo.block) classes listed).run.run heap.region =
        .ok (.ok met) ∧ listed ⊆ met ∧ ∀ cls ∈ classes, ∀ info ∈ lists cls, info.block ∈ met := by
  induction classes generalizing listed with
  | nil => exact ⟨listed, rfl, fun _ => id, nofun⟩
  | cons cls classes inductionHypothesis =>
      obtain ⟨notLater, laterDifferent⟩ := List.nodup_cons.1 different
      have shorter : (lists cls).length ≤ blocks.length :=
        (List.subperm_of_subset (wellFormed.distinct cls) fun _ member =>
          (wellFormed.listed member).1).length_le
      have walked := wellFormed.auditList_run above (wellFormed.linked cls)
        (fun _ => wellFormed.listed) (wellFormed.sorted cls) (fun _ _ => Nat.zero_le _)
        (wellFormed.distinct cls) (fresh cls List.mem_cons_self)
        (show (lists cls).length < (blocks.map BlockInfo.block).length + 1 by
          rw [List.length_map]; omega)
      have laterFresh : ∀ other ∈ classes, ∀ info ∈ lists other,
          info.block ∉ ((lists cls).map BlockInfo.block).reverse ++ listed := by
        intro other isLater info member isMet
        rcases List.mem_append.1 isMet with own | earlier
        · obtain ⟨twin, twinMember, same⟩ := List.mem_map.1 (List.mem_reverse.1 own)
          obtain ⟨inBlocks, -, classed⟩ := wellFormed.listed member
          obtain ⟨twinInBlocks, -, twinClassed⟩ := wellFormed.listed twinMember
          have equal := wellFormed.tiles.eq_of_offset inBlocks twinInBlocks
            (congrArg Block.offset same.symm)
          subst twin
          exact notLater (twinClassed.symm.trans classed ▸ isLater)
        · exact fresh other (List.mem_cons_of_mem _ isLater) info member earlier
      obtain ⟨met, ran, kept, found⟩ := inductionHypothesis laterDifferent laterFresh
      refine ⟨met, ?_, ?_, ?_⟩
      · rw [auditLists, wellFormed.first cls, AuditM.run_bind walked]
        exact ran
      · exact fun _ member => kept (List.mem_append_right _ member)
      · intro other isOne info member
        rcases List.mem_cons.1 isOne with rfl | isLater
        · apply kept
          apply List.mem_append_left
          exact List.mem_reverse.2 (List.mem_map_of_mem member)
        · exact found other isLater info member

/-- The audit finds no defect in a heap that is well formed. -/
theorem audit_eq : heap.audit = .ok none := by
  have counted := wellFormed.tiles.length_le
  have prologueTag := wellFormed.prologue_tag above
  have prologueFooter := wellFormed.prologue_footerTag above
  have first : heap.prologue.next heap.region = .ok ⟨heap.prologue.offset + 8⟩ :=
    Block.next_of_tag prologueTag
  have walked : (auditChain (heap.region.size + 1) ⟨heap.prologue.offset + 8⟩ #[]).run.run
      heap.region = .ok (.ok (blocks.map Walked.ofInfo).toArray) :=
    wellFormed.auditChain_run aligned above (List.nil_append _).symm rfl (by omega)
  have known : ((blocks.map Walked.ofInfo).toArray.toList.map Walked.block) =
      blocks.map BlockInfo.block := by simp [Walked.ofInfo]
  obtain ⟨met, collected, -, found⟩ := wellFormed.auditLists_run above (List.nodup_finRange 20)
    (show ∀ cls ∈ List.finRange 20, ∀ info ∈ lists cls, info.block ∉ [] by simp)
  have noneLeft : (blocks.map Walked.ofInfo).find?
      (fun walked => !walked.tag.allocated && decide (walked.block ∉ met)) = none := by
    rw [List.find?_eq_none]
    intro walked member unlisted
    obtain ⟨info, inBlocks, rfl⟩ := List.mem_map.1 member
    obtain ⟨free, absent⟩ := Bool.and_eq_true_iff.1 unlisted
    have isFree : info.allocated = false := by simpa [Walked.ofInfo] using free
    have listed := wellFormed.complete info inBlocks isFree
    exact decide_eq_true_iff.1 absent (found info.cls (List.mem_finRange _) info listed)
  have agrees : ¬(⟨8, true, false⟩ : Tag) ≠ ⟨8, true, false⟩ := not_not.2 rfl
  have patienceIs : patience heap.region = .ok (heap.region.size + 1) := rfl
  apply audit_of_passed
  unfold auditAll
  rw [AuditM.run_bind (AuditM.run_read prologueTag)]
  dsimp only
  rw [if_neg agrees, AuditM.run_bind (AuditM.run_read prologueFooter), if_neg agrees,
    AuditM.run_bind (AuditM.run_read patienceIs), AuditM.run_bind (AuditM.run_read first),
    AuditM.run_bind walked, known, AuditM.run_bind collected, noneLeft]
  rfl

end WellFormed

theorem Shows.audit_eq {heap : Heap} {shape : Shape} (shows : heap.Shows shape)
    (valid : shape.Valid) : heap.audit = .ok none := by
  have place := shows.prologue
  have aligned := valid.sound.layout.aligned
  have above := valid.sound.layout.above
  exact (shows.wellFormed valid).audit_eq (by omega) (by omega)

end Heap

end TaggedHeap
