import TaggedHeap.Proofs.Heap.Verdict

/-!
Contract: the audit in the arithmetic of a machine.

`Heap.audit` adds natural numbers. `Heap.auditStrict` is the same audit with each sum and each
difference formed as a machine index, in the order in which the audit comes to them, and a fault
where one cannot be formed. The two agree on every region that leaves room for one more block below
the largest index, since a block is measured only where its offset was found to lie in the region.
The main statement is that the audit answers on any bytes, in either arithmetic.
-/

namespace TaggedHeap

/-! ## Reading with checked offsets -/

namespace ReadM

variable {α β : Type} {region : Region} {value : α} {first : ReadM α}

theorem ok_bind (value : α) (rest : α → ReadM β) :
    (liftM (Except.ok value : Except Fault α) : ReadM α) >>= rest = rest value :=
  rfl

theorem bind_of_ok (found : first region = .ok value) (rest : α → ReadM β) :
    (first >>= rest) region = rest value region :=
  run_bind found rest

theorem bind_of_error {fault : Fault} (faulted : first region = .error fault)
    (rest : α → ReadM β) : (first >>= rest) region = .error fault := by
  simp only [bind, ReaderT.bind, Except.bind, faulted]

end ReadM

/-- Reads a word of which the end is a machine index. -/
def Region.readWordStrict (offset : Nat) : ReadM UInt32 := do
  let _ ← total offset 4
  readWord offset

theorem Region.readWordStrict_of_le {offset : Nat} (fits : offset + 4 ≤ maxIndex) :
    readWordStrict offset = readWord offset := by
  rw [readWordStrict, total_of_le fits]
  rfl

namespace Block

variable {region : Region} {block : Block} {tag : Tag}

def tagStrict (block : Block) : ReadM Tag := do
  let word ← Region.readWordStrict (← block.header)
  return Tag.ofWord word

/-- Offset at which the block ends and the next one begins. -/
def endStrict (block : Block) : ReadM Nat := do
  total block.offset (← block.tagStrict).size

def footerTagStrict (block : Block) : ReadM Tag := do
  let word ← Region.readWordStrict (← difference (← block.endStrict) 8)
  return Tag.ofWord word

def nextStrict (block : Block) : ReadM Block := do
  return ⟨← block.endStrict⟩

def linksStrict (block : Block) : ReadM Links := do
  if (← block.tagStrict).allocated then
    throw .linksOfAllocated
  let previous ← Region.readWordStrict block.offset
  let next ← Region.readWordStrict (← total block.offset 4)
  return ⟨Links.decode previous, Links.decode next⟩

/-- Whatever word a header is, the size in it is one that a word can hold. -/
theorem size_le_of_tag (read : block.tag region = .ok tag) : tag.size ≤ maxBlock := by
  unfold Block.tag at read
  cases header : block.header with
  | error fault =>
      rw [header] at read
      cases read
  | ok offset =>
      rw [header, ReadM.ok_bind] at read
      cases word : Region.readWord offset region with
      | error fault =>
          rw [ReadM.bind_of_error word] at read
          cases read
      | ok value =>
          rw [ReadM.bind_of_ok word] at read
          cases read
          exact (Tag.encodable_ofWord value).2

theorem tagStrict_of_le (fits : block.offset ≤ maxIndex) : block.tagStrict = block.tag := by
  unfold tagStrict Block.tag header
  by_cases above : 4 ≤ block.offset
  · have wordFits : block.offset - 4 + 4 ≤ maxIndex := by omega
    rw [difference_of_le above, ReadM.ok_bind, ReadM.ok_bind,
      Region.readWordStrict_of_le wordFits]
  · rw [difference_of_lt (Nat.lt_of_not_le above)]
    rfl

section Sized

variable (read : block.tag region = .ok tag) (fits : block.offset + maxBlock ≤ maxIndex)

include read fits

theorem endStrict_of_tag : block.endStrict region = .ok (block.offset + tag.size) := by
  have encodable := size_le_of_tag read
  have tagFits : block.offset ≤ maxIndex := by omega
  have sumFits : block.offset + tag.size ≤ maxIndex := by omega
  rw [endStrict, tagStrict_of_le tagFits, ReadM.bind_of_ok read, total_of_le sumFits]
  rfl

theorem nextStrict_of_tag : block.nextStrict region = block.next region := by
  rw [next_of_tag read, nextStrict, ReadM.bind_of_ok (endStrict_of_tag read fits)]
  rfl

theorem footerTagStrict_of_tag (above : 8 ≤ block.offset + tag.size) :
    block.footerTagStrict region = block.footerTag region := by
  have encodable := size_le_of_tag read
  have wordFits : block.offset + tag.size - 8 + 4 ≤ maxIndex := by omega
  rw [footerTagStrict, ReadM.bind_of_ok (endStrict_of_tag read fits), difference_of_le above,
    ReadM.ok_bind, Region.readWordStrict_of_le wordFits, footerTag,
    ReadM.bind_of_ok (footer_of_tag read above)]

theorem linksStrict_of_tag : block.linksStrict region = block.links region := by
  have wide : 8 ≤ maxBlock := by decide
  have tagFits : block.offset ≤ maxIndex := by omega
  have previousFits : block.offset + 4 ≤ maxIndex := by omega
  have nextFits : block.offset + 4 + 4 ≤ maxIndex := by omega
  rw [linksStrict, links, tagStrict_of_le tagFits, ReadM.bind_of_ok read,
    ReadM.bind_of_ok (isAllocated_of_tag read), Region.readWordStrict_of_le previousFits,
    total_of_le previousFits]
  simp only [ReadM.ok_bind, Region.readWordStrict_of_le nextFits]

end Sized

end Block

/-! ## Audits that agree -/

namespace AuditM

variable {α β : Type} {region : Region}

theorem run_bind_fault {look : ReadM α} {fault : Fault} (faulted : look region = .error fault)
    (rest : α → Heap.AuditM β) : (liftM look >>= rest).run.run region = .error fault := by
  have lifted : (liftM look : Heap.AuditM α).run = (do return .ok (← look)) := rfl
  rw [ExceptT.run_bind, lifted]
  exact ReadM.bind_of_error (ReadM.bind_of_error faulted _) _

/-- Both audits come to the same on the region. -/
def Agree (region : Region) (strict plain : Heap.AuditM α) : Prop :=
  strict.run.run region = plain.run.run region

namespace Agree

theorem bind {strict plain : Heap.AuditM α} {strictNext plainNext : α → Heap.AuditM β}
    (first : Agree region strict plain)
    (rest : ∀ value, plain.run.run region = .ok (.ok value) →
      Agree region (strictNext value) (plainNext value)) :
    Agree region (strict >>= strictNext) (plain >>= plainNext) := by
  have same : strict.run region = plain.run region := first
  rw [Agree, ExceptT.run_bind, ExceptT.run_bind]
  cases outcome : plain.run region with
  | error fault =>
      exact (ReadM.bind_of_error (same.trans outcome) _).trans
        (ReadM.bind_of_error outcome _).symm
  | ok answer =>
      refine (ReadM.bind_of_ok (same.trans outcome) _).trans
        (Eq.trans ?_ (ReadM.bind_of_ok outcome _).symm)
      cases answer with
      | error defect => rfl
      | ok value => exact rest value outcome

theorem bind_read {strictLook plainLook : ReadM α} {strictNext plainNext : α → Heap.AuditM β}
    (same : strictLook region = plainLook region)
    (rest : ∀ value, plainLook region = .ok value →
      Agree region (strictNext value) (plainNext value)) :
    Agree region (liftM strictLook >>= strictNext) (liftM plainLook >>= plainNext) := by
  cases found : plainLook region with
  | error fault =>
      rw [Agree, run_bind_fault (same.trans found), run_bind_fault found]
  | ok value =>
      rw [Agree, run_bind (run_read (same.trans found)), run_bind (run_read found)]
      exact rest value found

theorem bind_region {strictNext plainNext : Region → Heap.AuditM β}
    (rest : Agree region (strictNext region) (plainNext region)) :
    Agree region (read >>= strictNext) (read >>= plainNext) := by
  rw [Agree, run_bind run_region, run_bind run_region]
  exact rest

/-- The strict audit looks at what the plain one knows. -/
theorem look {looked : ReadM α} {value : α} {strictNext : α → Heap.AuditM β}
    {plain : Heap.AuditM β}
    (found : looked region = .ok value) (rest : Agree region (strictNext value) plain) :
    Agree region (liftM looked >>= strictNext) plain := by
  rw [Agree, run_bind (run_read found)]
  exact rest

/-- The strict audit computes what the plain one knows. -/
theorem compute {answer : Except Fault α} {value : α} {strictNext : α → Heap.AuditM β}
    {plain : Heap.AuditM β} (answered : answer = .ok value)
    (rest : Agree region (strictNext value) plain) :
    Agree region (liftM answer >>= strictNext) plain := by
  subst answered
  exact rest

theorem branch {condition : Prop} [Decidable condition]
    {strict plain strictOther plainOther : Heap.AuditM β}
    (whenTrue : condition → Agree region strict plain)
    (whenFalse : ¬condition → Agree region strictOther plainOther) :
    Agree region (if condition then strict else strictOther)
      (if condition then plain else plainOther) := by
  by_cases holds : condition
  · rw [if_pos holds, if_pos holds]
    exact whenTrue holds
  · rw [if_neg holds, if_neg holds]
    exact whenFalse holds

/-- Both audits stop at the same defect, or go on. -/
theorem check {condition : Prop} [Decidable condition] {defect : Defect}
    {strictNext plainNext : α → Heap.AuditM β} {strict plain : Heap.AuditM β}
    (rest : ¬condition → Agree region strict plain) :
    Agree region (if condition then MonadExcept.throw defect >>= strictNext else strict)
      (if condition then MonadExcept.throw defect >>= plainNext else plain) :=
  branch (fun _ => rfl) rest

end Agree

end AuditM

namespace Heap

/-! ## The audit with checked offsets

Each part is its namesake without `Strict`, step by step: headers are found and compared by offset,
and the end of a block is formed before it is compared, read behind or gone on from. -/

def auditBlockStrict (before : Option Walked) (cursor : Block) (tag : Tag) : AuditM Unit := do
  if cursor.offset % 8 ≠ 0 then
    throw (.misaligned cursor.offset)
  if tag.size < minBlock then
    throw (.badSize cursor.offset tag.size)
  if (← read).size < (← total cursor.offset tag.size) then
    throw (.pastEnd cursor.offset)
  let footer ← cursor.footerTagStrict
  if footer ≠ ⟨tag.size, tag.allocated, false⟩ then
    throw (.footer cursor.offset)
  if let some walked := before then
    if !walked.admits tag then
      throw (.adjacentFree walked.block.offset cursor.offset)

def auditChainStrict : Nat → Block → Array Walked → AuditM (Array Walked)
  | 0, _, _ => throwThe Fault .endless
  | patience + 1, cursor, walked => do
      let high := (← read).size
      if high < (← total (← cursor.header) 4) then
        throw (.pastEnd cursor.offset)
      let tag ← cursor.tagStrict
      if tag.size = 0 then
        if !tag.allocated || (← total (← cursor.header) 4) ≠ high then
          throw (.epilogue (← cursor.header))
        return walked
      auditBlockStrict walked.back? cursor tag
      auditChainStrict patience (← cursor.nextStrict) (walked.push ⟨cursor, tag⟩)

def auditListStrict (cls : SizeClass) (known : List Block) :
    Nat → Option Block → Nat → Option Block → List Block → AuditM (List Block)
  | 0, _, _, _, _ => throwThe Fault .endless
  | _ + 1, _, _, none, listed => return listed
  | patience + 1, previous, least, some current, listed => do
      if current ∉ known then
        throw (.strayLink cls.val current.offset)
      if current ∈ listed then
        throw (.cycle cls.val)
      let tag ← current.tagStrict
      if tag.allocated then
        throw (.listedAllocated current.offset)
      let expected := SizeClass.ofSize tag.size
      if expected ≠ cls then
        throw (.wrongClass current.offset cls.val expected.val)
      if tag.size < least then
        throw (.unsorted cls.val)
      let links ← current.linksStrict
      if links.previous ≠ previous then
        throw (.brokenLink cls.val current.offset)
      auditListStrict cls known patience (some current) tag.size links.next (current :: listed)

def auditListsStrict (heap : Heap) (known : List Block) :
    List SizeClass → List Block → AuditM (List Block)
  | [], listed => return listed
  | cls :: classes, listed => do
      let listed ← auditListStrict cls known (known.length + 1) none 0 (heap.head cls) listed
      heap.auditListsStrict known classes listed

def auditAllStrict (heap : Heap) : AuditM Unit := do
  let sentinel : Tag := ⟨8, true, false⟩
  if (← heap.prologue.tagStrict) ≠ sentinel then
    throw .prologue
  if (← heap.prologue.footerTagStrict) ≠ sentinel then
    throw .prologue
  let walked := (← auditChainStrict (← patience) (← heap.prologue.nextStrict) #[]).toList
  let known := walked.map Walked.block
  let listed ← heap.auditListsStrict known (List.finRange 20) []
  let unlisted := walked.find? fun found => !found.tag.allocated && found.block ∉ listed
  if let some found := unlisted then
    throw (.unlisted found.block.offset)

/-- `audit`, with a fault where a sum or a difference is not a machine index. -/
def auditStrict (heap : Heap) : Except Fault (Option Defect) := do
  match ← heap.auditAllStrict.run heap.region with
  | .ok () => return none
  | .error defect => return some defect

variable {heap : Heap} {region : Region} {cursor : Block} {tag : Tag}

theorem auditBlockStrict_agrees (before : Option Walked) (read : cursor.tag region = .ok tag)
    (above : 8 ≤ cursor.offset) (fits : cursor.offset + maxBlock ≤ maxIndex) :
    AuditM.Agree region (auditBlockStrict before cursor tag) (auditBlock before cursor tag) := by
  have encodable := Block.size_le_of_tag read
  have sumFits : cursor.offset + tag.size ≤ maxIndex := by omega
  unfold auditBlockStrict auditBlock
  apply AuditM.Agree.check
  intro _
  apply AuditM.Agree.check
  intro _
  refine .bind_region (.compute (total_of_le sumFits) (.check fun notBeyond => ?_))
  have same := Block.footerTagStrict_of_tag read fits (by omega)
  refine .bind_read same fun footer _ => .check fun _ => ?_
  cases before <;> rfl

theorem auditChainStrict_agrees (room : region.size + maxBlock ≤ maxIndex) (patience : Nat)
    (above : 8 ≤ cursor.offset) (fits : cursor.offset ≤ maxIndex) (walked : Array Walked) :
    AuditM.Agree region (auditChainStrict patience cursor walked)
      (auditChain patience cursor walked) := by
  induction patience generalizing cursor walked with
  | zero => rfl
  | succ patience inductionHypothesis =>
      have header : cursor.header = .ok (cursor.offset - 4) := Block.header_of_le (by omega)
      have back : total (cursor.offset - 4) 4 = .ok cursor.offset := by
        rw [total_of_le (by omega), Nat.sub_add_cancel (by omega)]
      unfold auditChainStrict auditChain
      refine .bind_region (.compute header (.compute back (.check fun notBeyond => ?_)))
      have inside : cursor.offset ≤ region.size := Nat.le_of_not_lt notBeyond
      have cursorFits : cursor.offset + maxBlock ≤ maxIndex := by omega
      have same : cursor.tagStrict region = cursor.tag region := by
        rw [Block.tagStrict_of_le fits]
      refine .bind_read same fun tag read => .branch (fun _ => ?_) fun _ => ?_
      · refine .compute header (.compute back (.branch (fun _ => ?_) fun _ => rfl))
        exact .compute header rfl
      · have encodable := Block.size_le_of_tag read
        refine .bind (auditBlockStrict_agrees _ read above cursorFits) fun _ _ => ?_
        refine .look ((Block.nextStrict_of_tag read cursorFits).trans (Block.next_of_tag read)) ?_
        have nextFits : cursor.offset + tag.size ≤ maxIndex := by omega
        exact inductionHypothesis (above.trans (Nat.le_add_right ..)) nextFits _

section Lists

variable {known : List Block} (fits : ∀ block ∈ known, block.offset + maxBlock ≤ maxIndex)

include fits

theorem auditListStrict_agrees (cls : SizeClass) (patience : Nat) (previous : Option Block)
    (least : Nat) (next : Option Block) (listed : List Block) :
    AuditM.Agree region (auditListStrict cls known patience previous least next listed)
      (auditList cls known patience previous least next listed) := by
  induction patience generalizing previous least next listed with
  | zero => rfl
  | succ patience inductionHypothesis =>
      cases next with
      | none => rfl
      | some current =>
          unfold auditListStrict auditList
          apply AuditM.Agree.check
          intro isKnown
          have currentFits := fits current (not_not.1 isKnown)
          have same : current.tagStrict region = current.tag region := by
            rw [Block.tagStrict_of_le (by omega)]
          refine .check fun _ => .bind_read same fun tag read => ?_
          refine .check fun _ => .check fun _ => .check fun _ => ?_
          refine .bind_read (Block.linksStrict_of_tag read currentFits) fun links _ => ?_
          exact .check fun _ => inductionHypothesis ..

theorem auditListsStrict_agrees (classes : List SizeClass) (listed : List Block) :
    AuditM.Agree heap.region (heap.auditListsStrict known classes listed)
      (heap.auditLists known classes listed) := by
  induction classes generalizing listed with
  | nil => rfl
  | cons cls classes inductionHypothesis =>
      exact .bind (auditListStrict_agrees fits ..) fun met _ => inductionHypothesis met

end Lists

section Audit

variable (aligned : heap.prologue.offset % 8 = 0) (above : 8 ≤ heap.prologue.offset)
  (room : heap.prologue.offset + 8 ≤ heap.region.size)
  (fits : heap.region.size + maxBlock ≤ maxIndex)

include aligned above room

theorem inside_of_auditChain {walked : Array Walked} (ran :
      (auditChain (heap.region.size + 1) ⟨heap.prologue.offset + 8⟩ #[]).run.run heap.region =
        .ok (.ok walked)) :
    ∀ block ∈ walked.toList.map Walked.block, block.offset ≤ heap.region.size := by
  have starts : heap.Walks [] (heap.prologue.offset + 8) := ⟨rfl, nofun, List.isChain_nil, room⟩
  have patient : heap.region.size < heap.prologue.offset + 8 + (heap.region.size + 1) := by omega
  rcases auditChain_answers aligned above starts patient with
    ⟨_, alsoRan, blocks, chain, rfl⟩ | ⟨defect, failed, -⟩
  · cases ran.symm.trans alsoRan
    intro block isWalked
    obtain ⟨info, member, rfl⟩ : ∃ info ∈ blocks, info.block = block := by
      simpa [Walked.ofInfo] using isWalked
    exact (Nat.le_add_right ..).trans (chain.tiles.le_stop_of_mem member)
  · cases ran.symm.trans failed

include fits

theorem auditAllStrict_agrees :
    AuditM.Agree heap.region heap.auditAllStrict heap.auditAll := by
  have prologueFits : heap.prologue.offset + maxBlock ≤ maxIndex := by omega
  have same : heap.prologue.tagStrict heap.region = heap.prologue.tag heap.region := by
    rw [Block.tagStrict_of_le (by omega)]
  unfold auditAllStrict auditAll
  refine .bind_read same fun tag read => .check fun agrees => ?_
  obtain rfl := not_not.1 agrees
  have footerSame := Block.footerTagStrict_of_tag read prologueFits (Nat.le_add_left 8 _)
  refine .bind_read footerSame fun footer _ => .check fun _ => ?_
  have patienceIs : patience heap.region = .ok (heap.region.size + 1) := rfl
  have first : heap.prologue.next heap.region = .ok ⟨heap.prologue.offset + 8⟩ :=
    Block.next_of_tag read
  refine .bind_read rfl fun steps isPatience => ?_
  cases patienceIs.symm.trans isPatience
  refine .bind_read (Block.nextStrict_of_tag read prologueFits) fun cursor isFirst => ?_
  cases first.symm.trans isFirst
  have firstAbove : 8 ≤ heap.prologue.offset + 8 := Nat.le_add_left ..
  have firstFits : heap.prologue.offset + 8 ≤ maxIndex := by omega
  refine .bind (auditChainStrict_agrees fits _ firstAbove firstFits _) fun walked ran => ?_
  have known : ∀ block ∈ walked.toList.map Walked.block, block.offset + maxBlock ≤ maxIndex := by
    intro block isWalked
    have inside := inside_of_auditChain aligned above room ran block isWalked
    omega
  refine .bind (auditListsStrict_agrees known _ _) fun met _ => ?_
  rfl

theorem auditStrict_eq : heap.auditStrict = heap.audit := by
  have same : heap.auditAllStrict.run heap.region = heap.auditAll.run heap.region :=
    auditAllStrict_agrees aligned above room fits
  unfold auditStrict audit
  exact congrArg (· >>= _) same

end Audit

section Damage

variable {region : Region} {policy : Policy} {built damaged : Heap}
  (created : (create policy).run (blank region policy) = .ok (.ok ()) built)
  (place : damaged.prologue = built.prologue)
  (room : built.region.size ≤ damaged.region.size)

include created place room

/-- Whatever the bytes, the end and the heads of a heap have become since it was built, the audit
answers. Nothing that it adds up leaves the machine's indices where a largest block could still
follow the region. That is so in any process, where an array of bytes takes up at most half of the
indices. -/
theorem audit_eq_ok : ∃ verdict, damaged.audit = .ok verdict ∧
    (damaged.region.size + maxBlock ≤ maxIndex → damaged.auditStrict = .ok verdict) := by
  obtain ⟨aligned, above, upTo⟩ := prologue_of_created created place room
  have answered : ∃ verdict, damaged.audit = .ok verdict := by
    rcases audit_answers aligned above upTo with ⟨passed, -⟩ | ⟨defect, failed, -⟩
    · exact ⟨none, passed⟩
    · exact ⟨some defect, failed⟩
  obtain ⟨verdict, answers⟩ := answered
  exact ⟨verdict, answers, fun fits => (auditStrict_eq aligned above upTo fits).trans answers⟩

end Damage

/-- A new heap of which the only header is overwritten and every head is lost. -/
theorem audited_though_damaged : ∃ built damaged verdict,
    (create ⟨16, 8, 16, 2⟩).run (blank (.ofLimit 64) ⟨16, 8, 16, 2⟩) = .ok (.ok ()) built ∧
      damaged = { built with
        region := built.region.setWord 12 4294967295
        heads := Vector.replicate 20 (some ⟨maxIndex⟩) } ∧
      damaged.audit = .ok verdict ∧ damaged.auditStrict = .ok verdict := by
  have opened : (Client.openAt (.ofLimit 64) ⟨16, 8, 16, 2⟩).any (fun client =>
      client.heap.region.size + maxBlock ≤ maxIndex) = true := by
    decide +kernel
  obtain ⟨client, created, checked⟩ := Client.exists_created_of_any opened
  have fits := of_decide_eq_true checked
  have place : ({ client.heap with
      region := client.heap.region.setWord 12 4294967295
      heads := Vector.replicate 20 (some ⟨maxIndex⟩) } : Heap).prologue = client.heap.prologue :=
    rfl
  have size := client.heap.region.size_setWord 12 4294967295
  obtain ⟨verdict, audited, strict⟩ := audit_eq_ok created place size.ge
  exact ⟨client.heap, _, verdict, created, rfl, audited, strict (size.symm ▸ fits)⟩

end Heap

end TaggedHeap
