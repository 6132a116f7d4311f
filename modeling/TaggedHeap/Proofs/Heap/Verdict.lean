import TaggedHeap.Proofs.Heap.Audit
import TaggedHeap.Proofs.Heap.Creation
import TaggedHeap.Proofs.Client.Replay

/-!
Contract: what the audit answers, whatever the bytes and the heads of a heap say.

`AuditM.Answers` is the triple of an audit: it does not fault, and it answers with a value that
passes or with a defect that fails. The two walks of the audit each have an invariant, what they
have passed so far: `Heap.Walks` for the blocks and `Heap.Files` for the members of a list.
`Heap.Suffers` says of each defect what is wrong with the heap. The main statement is that an audit
without a defect means a heap that is well formed, and conversely.
-/

namespace TaggedHeap

/-! ## Audits as triples -/

namespace AuditM

variable {α β : Type} {region : Region} {passes : β → Prop} {fails : Defect → Prop}

def Answers (region : Region) (audit : Heap.AuditM α) (passes : α → Prop)
    (fails : Defect → Prop) : Prop :=
  (∃ value, audit.run.run region = .ok (.ok value) ∧ passes value) ∨
    ∃ defect, audit.run.run region = .ok (.error defect) ∧ fails defect

namespace Answers

theorem pure {value : β} (passed : passes value) : Answers region (pure value) passes fails :=
  .inl ⟨value, rfl, passed⟩

theorem throw {defect : Defect} (failed : fails defect) :
    Answers region (throw defect) passes fails :=
  .inr ⟨defect, rfl, failed⟩

theorem bind {audit : Heap.AuditM α} {between : α → Prop} {next : α → Heap.AuditM β}
    (first : Answers region audit between fails)
    (rest : ∀ value, between value → Answers region (next value) passes fails) :
    Answers region (audit >>= next) passes fails := by
  rcases first with ⟨value, ran, held⟩ | ⟨defect, ran, failed⟩
  · rw [Answers, run_bind ran]
    exact rest value held
  · refine .inr ⟨defect, ?_, failed⟩
    rw [ExceptT.run_bind, ReadM.run_bind ran]
    rfl

theorem weaken {audit : Heap.AuditM β} {later : β → Prop}
    (answers : Answers region audit passes fails) (implies : ∀ value, passes value → later value) :
    Answers region audit later fails :=
  answers.imp_left fun ⟨value, ran, passed⟩ => ⟨value, ran, implies value passed⟩

theorem bind_read {look : ReadM α} {value : α} {next : α → Heap.AuditM β}
    (found : look region = .ok value) (rest : Answers region (next value) passes fails) :
    Answers region (liftM look >>= next) passes fails := by
  rw [Answers, run_bind (run_read found)]
  exact rest

theorem bind_region {next : Region → Heap.AuditM β}
    (rest : Answers region (next region) passes fails) :
    Answers region (read >>= next) passes fails := by
  rw [Answers, run_bind run_region]
  exact rest

theorem branch {condition : Prop} [Decidable condition] {first second : Heap.AuditM β}
    (whenTrue : condition → Answers region first passes fails)
    (whenFalse : ¬condition → Answers region second passes fails) :
    Answers region (if condition then first else second) passes fails := by
  by_cases holds : condition
  · rw [if_pos holds]
    exact whenTrue holds
  · rw [if_neg holds]
    exact whenFalse holds

/-- A test that may throw, in front of what is done otherwise. -/
theorem check {condition : Prop} [Decidable condition] {defect : Defect}
    {next : α → Heap.AuditM β} {other : Heap.AuditM β} (failed : condition → fails defect)
    (rest : ¬condition → Answers region other passes fails) :
    Answers region (if condition then MonadExcept.throw defect >>= next else other) passes fails :=
  branch (fun holds => .inr ⟨defect, rfl, failed holds⟩) rest

end Answers

end AuditM

/-- The block at `offset`, as its header describes it. -/
def Region.described (region : Region) (offset : Nat) : BlockInfo :=
  ⟨⟨offset⟩, (region.headerTag offset).size, (region.headerTag offset).allocated,
    (region.headerTag offset).reserved⟩

theorem Region.size_described_mod (region : Region) (offset : Nat) :
    (region.described offset).size % 8 = 0 :=
  (Tag.encodable_ofWord _).1

namespace Heap

/-! ## The walk over the blocks -/

/-- The sizes in the headers lead from the prologue past `front`, blocks in good order, to
`cursor`. -/
structure Walks (heap : Heap) (front : List BlockInfo) (cursor : Nat) : Prop where
  tiles : Tiles (heap.prologue.offset + 8) front cursor
  holds : ∀ info ∈ front, heap.region.Holds info
  separated : Separated front
  inside : cursor ≤ heap.region.size

/-- The walk over `blocks` ends at an epilogue that is the last word of the region. -/
structure Chain (heap : Heap) (blocks : List BlockInfo) : Prop
    extends heap.Walks blocks heap.region.size where
  epilogue : (heap.region.headerTag heap.region.size).size = 0 ∧
    (heap.region.headerTag heap.region.size).allocated = true

/-- The links from the head of a class lead past `members`, each of them a free block of the class
and in its place, to `next`. -/
structure Files (heap : Heap) (blocks : List BlockInfo) (cls : SizeClass)
    (members : List BlockInfo) (next : Option Block) : Prop where
  first : heap.head cls = firstOr members next
  linked : Linked heap.region none members next
  belong : ∀ info ∈ members, info ∈ blocks ∧ info.allocated = false ∧ info.cls = cls
  sorted : members.Pairwise BlockInfo.NoLarger
  distinct : members.Nodup

/-- A block of a list that was followed to its end, of a smaller class than `cls`. -/
def Elsewhere (heap : Heap) (blocks : List BlockInfo) (cls : SizeClass) (info : BlockInfo) :
    Prop :=
  ∃ other others, other < cls ∧ heap.Files blocks other others none ∧ info ∈ others

/-- What is wrong with a heap of which the audit names a defect. -/
inductive Suffers (heap : Heap) : Defect → Prop where
  | prologueHeader
      (differs : heap.region.headerTag heap.prologue.offset ≠ ⟨8, true, false⟩) :
      Suffers heap .prologue
  | prologueFooter
      (differs : heap.region.footerTag (heap.prologue.offset + 8) ≠ ⟨8, true, false⟩) :
      Suffers heap .prologue
  | epilogue {front : List BlockInfo} {cursor : Nat} (walks : heap.Walks front cursor)
      (empty : (heap.region.described cursor).size = 0)
      (early : (heap.region.described cursor).allocated = false ∨ cursor ≠ heap.region.size) :
      Suffers heap (.epilogue (cursor - 4))
  | badSize {front : List BlockInfo} {cursor : Nat} (walks : heap.Walks front cursor)
      (nonzero : (heap.region.described cursor).size ≠ 0)
      (small : (heap.region.described cursor).size < minBlock) :
      Suffers heap (.badSize cursor (heap.region.described cursor).size)
  | pastEnd {front : List BlockInfo} {cursor : Nat} (walks : heap.Walks front cursor)
      (beyond : heap.region.size < cursor + (heap.region.described cursor).size) :
      Suffers heap (.pastEnd cursor)
  | footer {front : List BlockInfo} {cursor : Nat} (walks : heap.Walks front cursor)
      (inside : cursor + (heap.region.described cursor).size ≤ heap.region.size)
      (differs : heap.region.footerTag (cursor + (heap.region.described cursor).size) ≠
        (heap.region.described cursor).footTag) :
      Suffers heap (.footer cursor)
  | adjacentFree {front : List BlockInfo} {last : BlockInfo} {cursor : Nat}
      (walks : heap.Walks (front ++ [last]) cursor)
      (wide : minBlock ≤ (heap.region.described cursor).size)
      (inside : cursor + (heap.region.described cursor).size ≤ heap.region.size)
      (holds : heap.region.Holds (heap.region.described cursor))
      (adjacent : ¬last.Admits (heap.region.described cursor)) :
      Suffers heap (.adjacentFree last.offset cursor)
  | unlisted {blocks : List BlockInfo} {lists : FreeLists} {info : BlockInfo}
      (chain : heap.Chain blocks) (files : ∀ cls, heap.Files blocks cls (lists cls) none)
      (member : info ∈ blocks) (free : info.allocated = false) (absent : ∀ cls, info ∉ lists cls) :
      Suffers heap (.unlisted info.offset)
  | strayLink {blocks members : List BlockInfo} {cls : SizeClass} {stray : Block}
      (chain : heap.Chain blocks) (files : heap.Files blocks cls members (some stray))
      (foreign : ∀ info ∈ blocks, info.block ≠ stray) :
      Suffers heap (.strayLink cls.val stray.offset)
  | cycle {blocks members : List BlockInfo} {cls : SizeClass} {info : BlockInfo}
      (chain : heap.Chain blocks) (files : heap.Files blocks cls members (some info.block))
      (met : info ∈ members ∨ heap.Elsewhere blocks cls info) :
      Suffers heap (.cycle cls.val)
  | listedAllocated {blocks members : List BlockInfo} {cls : SizeClass} {info : BlockInfo}
      (chain : heap.Chain blocks) (files : heap.Files blocks cls members (some info.block))
      (member : info ∈ blocks) (allocated : info.allocated = true) :
      Suffers heap (.listedAllocated info.offset)
  | wrongClass {blocks members : List BlockInfo} {cls : SizeClass} {info : BlockInfo}
      (chain : heap.Chain blocks) (files : heap.Files blocks cls members (some info.block))
      (member : info ∈ blocks) (differs : info.cls ≠ cls) :
      Suffers heap (.wrongClass info.offset cls.val info.cls.val)
  | unsorted {blocks members : List BlockInfo} {cls : SizeClass} {info larger : BlockInfo}
      (chain : heap.Chain blocks) (files : heap.Files blocks cls members (some info.block))
      (member : info ∈ blocks) (before : larger ∈ members) (smaller : info.size < larger.size) :
      Suffers heap (.unsorted cls.val)
  | brokenLink {blocks members : List BlockInfo} {cls : SizeClass} {info : BlockInfo}
      (chain : heap.Chain blocks) (files : heap.Files blocks cls members (some info.block))
      (member : info ∈ blocks)
      (differs : (heap.region.linksAt info.block).previous ≠ lastOr members none) :
      Suffers heap (.brokenLink cls.val info.offset)

variable {heap : Heap} {blocks front members : List BlockInfo} {cursor : Nat} {cls : SizeClass}

/-- A walk that has come to a block in good order passes it. -/
theorem Walks.advance (walks : heap.Walks front cursor)
    (wide : minBlock ≤ (heap.region.described cursor).size)
    (inside : cursor + (heap.region.described cursor).size ≤ heap.region.size)
    (footer : heap.region.footerTag (cursor + (heap.region.described cursor).size) =
      (heap.region.described cursor).footTag)
    (admits : ∀ last ∈ front.getLast?, last.Admits (heap.region.described cursor)) :
    heap.Walks (front ++ [heap.region.described cursor])
      (cursor + (heap.region.described cursor).size) where
  tiles := by
    have sized : (heap.region.described cursor).Sized :=
      ⟨wide, heap.region.size_described_mod cursor⟩
    exact .of_middle walks.tiles sized rfl
  holds := by
    intro info member
    rcases List.mem_append.1 member with inFront | isLast
    · exact walks.holds info inFront
    · obtain rfl := List.mem_singleton.1 isLast
      exact ⟨rfl, footer⟩
  separated := separated_concat.2 ⟨walks.separated, admits⟩
  inside := inside

section Chain

variable (aligned : heap.prologue.offset % 8 = 0) (above : 8 ≤ heap.prologue.offset)

include above

theorem Walks.tag_eq (walks : heap.Walks front cursor) :
    (⟨cursor⟩ : Block).tag heap.region = .ok (heap.region.described cursor).tag := by
  have lower := walks.tiles.le
  exact Block.tag_of_le (show 4 ≤ cursor by omega) walks.inside

include aligned

theorem auditBlock_answers (walks : heap.Walks front cursor)
    (nonzero : (heap.region.described cursor).size ≠ 0) :
    AuditM.Answers heap.region
      (auditBlock (front.map Walked.ofInfo).getLast? ⟨cursor⟩ (heap.region.described cursor).tag)
      (fun _ => heap.Walks (front ++ [heap.region.described cursor])
        (cursor + (heap.region.described cursor).size)) heap.Suffers := by
  have lower := walks.tiles.le
  have offsetAligned : cursor % 8 = 0 := walks.tiles.stop_mod (by omega)
  have tag := walks.tag_eq above
  unfold auditBlock
  apply AuditM.Answers.check (fun misaligned => absurd offsetAligned misaligned)
  intro _
  refine .check (fun small => .badSize walks nonzero small) fun wide => ?_
  refine .bind_region (.check (fun beyond => .pastEnd walks beyond) fun notBeyond => ?_)
  have inside : cursor + (heap.region.described cursor).size ≤ heap.region.size :=
    Nat.le_of_not_lt notBeyond
  have read : (⟨cursor⟩ : Block).footerTag heap.region = .ok
      (heap.region.footerTag (cursor + (heap.region.described cursor).size)) :=
    Block.footerTag_of_tag tag (show 8 ≤ cursor + _ by omega)
      (show cursor + (heap.region.described cursor).size ≤ heap.region.size + 4 by omega)
  refine .bind_read read (.check (fun differs => .footer walks inside differs) fun agrees => ?_)
  have footer := not_not.1 agrees
  have wideEnough := Nat.le_of_not_lt wide
  obtain rfl | ⟨others, last, rfl⟩ := front.eq_nil_or_concat
  · exact .pure (walks.advance wideEnough inside footer nofun)
  · rw [List.concat_eq_append] at walks ⊢
    have lastWalked : ((others ++ [last]).map Walked.ofInfo).getLast? = some (.ofInfo last) := by
      simp
    rw [lastWalked]
    refine .branch (fun refused => ?_) fun accepted => ?_
    · refine .throw (.adjacentFree walks wideEnough inside ⟨rfl, footer⟩ fun admits => ?_)
      rw [admits_ofInfo.2 admits] at refused
      exact absurd refused Bool.false_ne_true
    · refine .pure (walks.advance wideEnough inside footer fun other isLast => ?_)
      obtain rfl : last = other := by simpa using isLast
      exact admits_ofInfo.1 (by simpa using accepted)

theorem auditChain_answers (walks : heap.Walks front cursor) {patience : Nat}
    (patient : heap.region.size < cursor + patience) :
    AuditM.Answers heap.region
      (auditChain patience ⟨cursor⟩ (front.map Walked.ofInfo).toArray)
      (fun walked => ∃ blocks, heap.Chain blocks ∧ walked = (blocks.map Walked.ofInfo).toArray)
      heap.Suffers := by
  induction patience generalizing front cursor with
  | zero => exact absurd walks.inside (Nat.not_le.2 patient)
  | succ patience inductionHypothesis =>
      have inside := walks.inside
      have tag := walks.tag_eq above
      unfold auditChain
      refine .bind_region (.check (fun beyond => absurd inside (Nat.not_le.2 beyond)) fun _ => ?_)
      refine .bind_read tag (.branch (fun empty => ?_) fun nonzero => ?_)
      · apply AuditM.Answers.check
        · intro early
          refine .epilogue walks empty ?_
          simpa using early
        · intro closed
          have epilogue : (heap.region.described cursor).allocated = true ∧
              cursor = heap.region.size := by simpa using closed
          obtain ⟨allocated, rfl⟩ := epilogue
          exact .pure ⟨front, ⟨walks, empty, allocated⟩, rfl⟩
      · rw [List.back?_toArray]
        have takesUp : (heap.region.described cursor).size ≠ 0 := nonzero
        refine (auditBlock_answers aligned above walks takesUp).bind fun _ later => ?_
        have goesOn := inductionHypothesis later (by omega)
        rw [List.map_append, List.map_singleton, ← List.push_toArray] at goesOn
        exact goesOn

end Chain

/-! ## The walk over a list -/

theorem Files.start (heap : Heap) (blocks : List BlockInfo) (cls : SizeClass) :
    heap.Files blocks cls [] (heap.head cls) :=
  ⟨rfl, trivial, nofun, List.Pairwise.nil, List.nodup_nil⟩

/-- A list that has come to a free block of its class, not met before and not smaller than the
members so far, goes on behind it. -/
theorem Files.advance {info : BlockInfo} (files : heap.Files blocks cls members (some info.block))
    (member : info ∈ blocks) (free : info.allocated = false) (own : info.cls = cls)
    (fresh : info ∉ members) (largest : ∀ other ∈ members, other.size ≤ info.size)
    (back : (heap.region.linksAt info.block).previous = lastOr members none) :
    heap.Files blocks cls (members ++ [info]) (heap.region.linksAt info.block).next where
  first := by
    rw [firstOr_append]
    exact files.first
  linked := linked_append.2 ⟨files.linked, congrArg (Links.mk · _) back, trivial⟩
  belong := by
    intro other isMember
    rcases List.mem_append.1 isMember with earlier | isLast
    · exact files.belong other earlier
    · obtain rfl := List.mem_singleton.1 isLast
      exact ⟨member, free, own⟩
  sorted := List.pairwise_append.2 ⟨files.sorted, List.pairwise_singleton .., by
    intro other isMember last isLast
    obtain rfl := List.mem_singleton.1 isLast
    exact largest other isMember⟩
  distinct := by
    rw [List.nodup_append_comm, List.singleton_append, List.nodup_cons]
    exact ⟨fresh, files.distinct⟩

theorem Chain.eq_of_block (chain : heap.Chain blocks) {info : BlockInfo}
    {others : List BlockInfo} (part : others ⊆ blocks) (member : info ∈ blocks)
    (named : info.block ∈ others.map BlockInfo.block) : info ∈ others := by
  obtain ⟨other, isOther, same⟩ := List.mem_map.1 named
  rwa [chain.tiles.eq_of_offset member (part isOther) (congrArg Block.offset same).symm]

theorem Files.subset {next : Option Block} (files : heap.Files blocks cls members next) :
    members ⊆ blocks :=
  fun _ isMember => (files.belong _ isMember).1

section Lists

variable (above : 8 ≤ heap.prologue.offset) (chain : heap.Chain blocks)

include above chain

theorem auditList_answers {before : List Block}
    (earlier : ∀ info ∈ blocks, info.block ∈ before → heap.Elsewhere blocks cls info)
    {next : Option Block} (files : heap.Files blocks cls members next) {least : Nat}
    (largest : ∀ other ∈ members, other.size ≤ least)
    (reached : ∀ size < least, ∃ other ∈ members, size < other.size) {patience : Nat}
    (patient : blocks.length < members.length + patience) :
    AuditM.Answers heap.region
      (auditList cls (blocks.map BlockInfo.block) patience (lastOr members none) least next
        ((members.map BlockInfo.block).reverse ++ before))
      (fun met => ∃ all, heap.Files blocks cls all none ∧
        met = (all.map BlockInfo.block).reverse ++ before) heap.Suffers := by
  induction patience generalizing members next least with
  | zero =>
      have fewer := (List.subperm_of_subset files.distinct files.subset).length_le
      exact absurd patient (Nat.not_lt.2 fewer)
  | succ patience inductionHypothesis =>
      cases next with
      | none =>
          unfold auditList
          exact .pure ⟨members, files, rfl⟩
      | some current =>
          unfold auditList
          apply AuditM.Answers.check
          · intro unknown
            refine .strayLink chain files fun info member same => ?_
            exact unknown (same ▸ List.mem_map_of_mem member)
          intro known
          obtain ⟨info, member, rfl⟩ := List.mem_map.1 (not_not.1 known)
          apply AuditM.Answers.check
          · intro met
            refine .cycle chain files ?_
            rcases List.mem_append.1 met with own | isEarlier
            · exact .inl (chain.eq_of_block files.subset member (List.mem_reverse.1 own))
            · exact .inr (earlier info member isEarlier)
          intro unmet
          refine .bind_read (Region.tag_of_tiles chain.tiles (by omega) chain.holds member)
            (.check (fun allocated => ?_) fun notAllocated => ?_)
          · exact .listedAllocated chain files member allocated
          have free : info.allocated = false := Bool.eq_false_of_not_eq_true notAllocated
          refine .check (fun differs => .wrongClass chain files member differs) fun own => ?_
          refine .check (fun small => ?_) fun notSmall => ?_
          · obtain ⟨larger, isMember, smaller⟩ := reached info.size small
            exact .unsorted chain files member isMember smaller
          have ordered : least ≤ info.size := Nat.le_of_not_lt notSmall
          refine .bind_read (Region.links_of_tiles chain.tiles (by omega) chain.holds member free)
            (.check (fun differs => ?_) fun agrees => ?_)
          · exact .brokenLink chain files member differs
          have fresh : info ∉ members := fun isMember =>
            unmet (List.mem_append_left _ (List.mem_reverse.2 (List.mem_map_of_mem isMember)))
          have largestSoFar : ∀ other ∈ members, other.size ≤ info.size :=
            fun other isMember => (largest other isMember).trans ordered
          have largestLater : ∀ other ∈ members ++ [info], other.size ≤ info.size := by
            simpa [or_imp, forall_and] using largestSoFar
          have goesOn := inductionHypothesis
            (files.advance member free (not_not.1 own) fresh largestSoFar (not_not.1 agrees))
            largestLater (fun size smaller => ⟨info, by simp, smaller⟩)
            (by rw [List.length_append, List.length_singleton]; omega)
          rw [lastOr_append, List.map_append, List.reverse_append] at goesOn
          exact goesOn

theorem auditLists_answers {classes : List SizeClass} (increasing : classes.Pairwise (· < ·))
    {before : List Block}
    (earlier : ∀ info ∈ blocks, info.block ∈ before → ∀ cls ∈ classes,
      heap.Elsewhere blocks cls info) :
    AuditM.Answers heap.region
      (heap.auditLists (blocks.map BlockInfo.block) classes before)
      (fun met => ∃ lists : FreeLists,
        (∀ cls ∈ classes, heap.Files blocks cls (lists cls) none) ∧
        ∀ block, block ∈ met ↔
          block ∈ before ∨ ∃ cls ∈ classes, block ∈ (lists cls).map BlockInfo.block)
      heap.Suffers := by
  induction classes generalizing before with
  | nil => exact .pure ⟨fun _ => [], nofun, by simp⟩
  | cons cls classes inductionHypothesis =>
      obtain ⟨smallest, laterIncreasing⟩ := List.pairwise_cons.1 increasing
      have notLater : cls ∉ classes := fun isLater => lt_irrefl cls (smallest cls isLater)
      have elsewhere : ∀ info ∈ blocks, info.block ∈ before → heap.Elsewhere blocks cls info :=
        fun info member isEarlier => earlier info member isEarlier cls List.mem_cons_self
      have largest : ∀ other ∈ ([] : List BlockInfo), other.size ≤ 0 := nofun
      have patient : blocks.length <
          ([] : List BlockInfo).length + ((blocks.map BlockInfo.block).length + 1) := by simp
      have answers := auditList_answers above chain elsewhere (.start heap blocks cls) largest nofun
        patient
      refine answers.bind fun _ => ?_
      rintro ⟨members, files, rfl⟩
      have laterEarlier : ∀ info ∈ blocks,
          info.block ∈ (members.map BlockInfo.block).reverse ++ before →
            ∀ later ∈ classes, heap.Elsewhere blocks later info := by
        intro info member isMet later isLater
        rcases List.mem_append.1 isMet with own | isEarlier
        · exact ⟨cls, members, smallest later isLater, files,
            chain.eq_of_block files.subset member (List.mem_reverse.1 own)⟩
        · exact earlier info member isEarlier later (List.mem_cons_of_mem _ isLater)
      refine (inductionHypothesis laterIncreasing laterEarlier).weaken fun met => ?_
      rintro ⟨lists, laterFiles, collected⟩
      have others : ∀ other ∈ classes, Function.update lists cls members other = lists other :=
        fun other isLater =>
          Function.update_of_ne (ne_of_mem_of_not_mem isLater notLater) members lists
      refine ⟨Function.update lists cls members, ?_, fun block => ?_⟩
      · intro other isOne
        rcases List.mem_cons.1 isOne with rfl | isLater
        · rwa [Function.update_self]
        · rw [others other isLater]
          exact laterFiles other isLater
      · have behind : (∃ other ∈ classes,
            block ∈ (Function.update lists cls members other).map BlockInfo.block) ↔
              ∃ other ∈ classes, block ∈ (lists other).map BlockInfo.block :=
          exists_congr fun other => and_congr_right fun isLater => by rw [others other isLater]
        rw [collected, List.mem_append, List.mem_reverse, List.exists_mem_cons_iff,
          Function.update_self, behind, or_assoc, or_left_comm]

end Lists

/-! ## The whole audit -/

/-- Blocks in good order whose free ones are all met on the lists make a heap well formed. -/
theorem Chain.wellFormed {lists : FreeLists} (chain : heap.Chain blocks)
    (prologue : heap.region.Holds ⟨heap.prologue.handle, 8, true, false⟩)
    (files : ∀ cls, heap.Files blocks cls (lists cls) none)
    (complete : ∀ info ∈ blocks, info.allocated = false → ∃ cls, info ∈ lists cls) :
    heap.WellFormed blocks lists where
  prologue := prologue
  tiles := chain.tiles
  holds := chain.holds
  epilogue := chain.epilogue
  separated := chain.separated
  listed := fun isListed => (files _).belong _ isListed
  complete := by
    intro info member free
    obtain ⟨cls, isListed⟩ := complete info member free
    obtain ⟨-, -, own⟩ := (files cls).belong info isListed
    rwa [own]
  sorted := fun cls => (files cls).sorted
  distinct := fun cls => (files cls).distinct
  first := fun cls => (files cls).first
  linked := fun cls => (files cls).linked

/-- Either the audit finds a free block that is on no list, or there is none. -/
theorem find_unlisted {lists : FreeLists} {met : List Block}
    (listed : ∀ info ∈ blocks, info.block ∈ met ↔ ∃ cls, info ∈ lists cls) :
    match (blocks.map Walked.ofInfo).find? fun walked =>
      !walked.tag.allocated && decide (walked.block ∉ met) with
    | some walked => ∃ info ∈ blocks, walked = .ofInfo info ∧ info.allocated = false ∧
        ∀ cls, info ∉ lists cls
    | none => ∀ info ∈ blocks, info.allocated = false → ∃ cls, info ∈ lists cls := by
  split
  next found =>
    obtain ⟨info, member, rfl⟩ := List.mem_map.1 (List.mem_of_find?_eq_some found)
    have unlisted := List.find?_some found
    obtain ⟨notAllocated, absent⟩ := Bool.and_eq_true_iff.1 unlisted
    have free : info.allocated = false := by simpa [Walked.ofInfo] using notAllocated
    refine ⟨info, member, rfl, free, fun cls isListed => ?_⟩
    exact of_decide_eq_true absent ((listed info member).2 ⟨cls, isListed⟩)
  next found =>
    intro info member free
    refine (listed info member).1 (Classical.byContradiction fun absent => ?_)
    have noneLeft := List.find?_eq_none.1 found _ (List.mem_map_of_mem member)
    refine noneLeft (Bool.and_eq_true_iff.2 ⟨?_, decide_eq_true absent⟩)
    simp [Walked.ofInfo, free]

section Audit

variable (aligned : heap.prologue.offset % 8 = 0) (above : 8 ≤ heap.prologue.offset)
  (room : heap.prologue.offset + 8 ≤ heap.region.size)

include aligned above room

theorem auditAll_answers :
    AuditM.Answers heap.region heap.auditAll
      (fun _ => ∃ blocks lists, heap.WellFormed blocks lists) heap.Suffers := by
  have read : heap.prologue.tag heap.region = .ok (heap.region.headerTag heap.prologue.offset) :=
    Block.tag_of_le (by omega) (by omega)
  unfold auditAll
  apply AuditM.Answers.bind_read read
  apply AuditM.Answers.check (fun differs => .prologueHeader differs)
  intro agrees
  have header := not_not.1 agrees
  have tag : heap.prologue.tag heap.region = .ok ⟨8, true, false⟩ := by rw [read, header]
  have footerRead : heap.prologue.footerTag heap.region =
      .ok (heap.region.footerTag (heap.prologue.offset + 8)) := by
    rw [Block.footerTag_of_tag tag (Nat.le_add_left ..)
      (show heap.prologue.offset + 8 ≤ heap.region.size + 4 by omega)]
    rfl
  apply AuditM.Answers.bind_read footerRead
  apply AuditM.Answers.check (fun differs => .prologueFooter differs)
  intro agrees
  have footer := not_not.1 agrees
  have patienceIs : patience heap.region = .ok (heap.region.size + 1) := rfl
  have first : heap.prologue.next heap.region = .ok ⟨heap.prologue.offset + 8⟩ :=
    Block.next_of_tag tag
  refine .bind_read patienceIs (.bind_read first ?_)
  have starts : heap.Walks [] (heap.prologue.offset + 8) := ⟨rfl, nofun, List.isChain_nil, room⟩
  refine (auditChain_answers aligned above starts (by omega)).bind fun _ => ?_
  rintro ⟨blocks, chain, rfl⟩
  have known : (blocks.map Walked.ofInfo).map Walked.block = blocks.map BlockInfo.block := by
    simp [Walked.ofInfo]
  dsimp only
  rw [known]
  have increasing := List.pairwise_lt_finRange 20
  refine (auditLists_answers above chain increasing (by simp)).bind fun met => ?_
  rintro ⟨lists, someFiles, collected⟩
  have files : ∀ cls, heap.Files blocks cls (lists cls) none :=
    fun cls => someFiles cls (List.mem_finRange cls)
  have listed : ∀ info ∈ blocks, info.block ∈ met ↔ ∃ cls, info ∈ lists cls := by
    intro info member
    rw [collected]
    constructor
    · rintro (isEarlier | ⟨cls, -, named⟩)
      · exact absurd isEarlier List.not_mem_nil
      · exact ⟨cls, chain.eq_of_block (files cls).subset member named⟩
    · rintro ⟨cls, isListed⟩
      exact .inr ⟨cls, List.mem_finRange cls, List.mem_map_of_mem isListed⟩
  have unlisted := find_unlisted listed
  split at unlisted
  next found =>
    obtain ⟨info, member, rfl, free, absent⟩ := unlisted
    rw [found]
    exact .throw (.unlisted chain files member free absent)
  next found =>
    rw [found]
    exact .pure ⟨blocks, lists, chain.wellFormed ⟨header, footer⟩ files unlisted⟩

/-- The audit answers on any bytes: a heap without a defect is well formed, and a defect that is
named is one. -/
theorem audit_answers :
    (heap.audit = .ok none ∧ ∃ blocks lists, heap.WellFormed blocks lists) ∨
      ∃ defect, heap.audit = .ok (some defect) ∧ heap.Suffers defect := by
  rcases auditAll_answers aligned above room with ⟨_, ran, wellFormed⟩ | ⟨defect, ran, suffers⟩
  · exact .inl ⟨audit_of_passed ran, wellFormed⟩
  · exact .inr ⟨defect, audit_of_failed ran, suffers⟩

end Audit

section Damage

variable {region : Region} {policy : Policy} {built damaged : Heap}
  (created : (create policy).run (blank region policy) = .ok (.ok ()) built)
  (place : damaged.prologue = built.prologue)
  (room : built.region.size ≤ damaged.region.size)

include created place room

/-- Where the prologue of a heap that was built stays, whatever becomes of its bytes. -/
theorem prologue_of_created : damaged.prologue.offset % 8 = 0 ∧ 8 ≤ damaged.prologue.offset ∧
    damaged.prologue.offset + 8 ≤ damaged.region.size := by
  obtain ⟨later, events, founds, shows⟩ := Shape.founds_of_created created
  have start := founds.later_facts.1
  have upTo := founds.valid_later.sound.layout.tiles.le
  have size : built.region.size = later.stop := shows.lays.size
  have offset : built.prologue.offset + 8 = later.start := shows.prologue
  have aligned := region.size_mod
  rw [place]
  omega

/-- Whatever the bytes and the heads of a heap have become since it was built, the audit finds no
defect exactly if the heap is well formed. -/
theorem audit_eq_none_iff :
    damaged.audit = .ok none ↔ ∃ blocks lists, damaged.WellFormed blocks lists := by
  obtain ⟨aligned, above, upTo⟩ := prologue_of_created created place room
  constructor
  · intro passed
    rcases audit_answers aligned above upTo with ⟨-, wellFormed⟩ | ⟨defect, failed, -⟩
    · exact wellFormed
    · cases passed.symm.trans failed
  · rintro ⟨blocks, lists, wellFormed⟩
    exact wellFormed.audit_eq aligned above

end Damage

/-- A new heap, as it is and with the list of its only block lost. -/
theorem wellFormed_until_emptied : ∃ built,
    (create ⟨16, 8, 16, 2⟩).run (blank (.ofLimit 64) ⟨16, 8, 16, 2⟩) = .ok (.ok ()) built ∧
      (∃ blocks lists, built.WellFormed blocks lists) ∧
      ¬∃ blocks lists,
        ({ built with heads := Vector.replicate 20 none } : Heap).WellFormed blocks lists := by
  have opened : (Client.openAt (.ofLimit 64) ⟨16, 8, 16, 2⟩).any (fun client =>
      client.heap.audit = .ok none ∧
        ({ client.heap with heads := Vector.replicate 20 none } : Heap).audit =
          .ok (some (.unlisted 16))) = true := by
    decide +kernel
  obtain ⟨client, isOpened, checked⟩ := (Option.any_eq_true _ _).1 opened
  obtain ⟨passed, failed⟩ := of_decide_eq_true checked
  obtain ⟨created, -⟩ := Client.opens_of_openAt isOpened
  refine ⟨client.heap, created, (audit_eq_none_iff created rfl le_rfl).1 passed, ?_⟩
  have place : ({ client.heap with heads := Vector.replicate 20 none } : Heap).prologue =
      client.heap.prologue := rfl
  intro wellFormed
  cases ((audit_eq_none_iff created place le_rfl).2 wellFormed).symm.trans failed

end Heap

end TaggedHeap
