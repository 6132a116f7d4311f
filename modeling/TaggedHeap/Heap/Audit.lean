import TaggedHeap.Heap.Basic

/-!
Contract: the audit of a heap.

The audit walks the blocks in the order of their addresses, then every list, and stops at
the first defect. It takes nothing for granted but the place of the prologue: on any bytes
it answers. Two free blocks may be neighbours only if the first is reserved.
-/

namespace TaggedHeap

/-- What is wrong with a heap. Offsets are payload offsets unless stated otherwise. -/
inductive Defect where
  | prologue
  /-- `header` is the offset of the header of size zero. -/
  | epilogue (header : Nat)
  | misaligned (offset : Nat)
  | badSize (offset size : Nat)
  | pastEnd (offset : Nat)
  | footer (offset : Nat)
  | adjacentFree (first second : Nat)
  | unlisted (offset : Nat)
  | wrongClass (offset found expected : Nat)
  | listedAllocated (offset : Nat)
  | unsorted (cls : Nat)
  | brokenLink (cls offset : Nat)
  | strayLink (cls offset : Nat)
  | cycle (cls : Nat)
deriving DecidableEq, Repr

def Defect.message : Defect → String
  | .prologue => "prologue is damaged"
  | .epilogue header => s!"epilogue at header offset {header} is damaged"
  | .misaligned offset => s!"payload {offset} is not double-word aligned"
  | .badSize offset size => s!"block {offset} has invalid size {size}"
  | .pastEnd offset => s!"block {offset} runs past the end of the arena"
  | .footer offset => s!"block {offset} header and footer disagree"
  | .adjacentFree first second => s!"free blocks {first} and {second} are adjacent"
  | .unlisted offset => s!"free block {offset} is not in any bucket"
  | .wrongClass offset found expected =>
      s!"block {offset} is filed in bucket {found}, expected {expected}"
  | .listedAllocated offset => s!"allocated block {offset} is on a free list"
  | .unsorted cls => s!"bucket {cls} is not sorted by size"
  | .brokenLink cls offset => s!"bucket {cls} has a broken back-link at {offset}"
  | .strayLink cls offset => s!"bucket {cls} links to {offset}, which is not a block"
  | .cycle cls => s!"bucket {cls} contains a cycle"

namespace Heap

abbrev AuditM := ExceptT Defect ReadM

/-- A block that the audit has walked over, with the tag of its header. -/
structure Walked where
  block : Block
  tag : Tag

/-- Whether a block may follow: two free blocks are neighbours only behind a reserved one. -/
def Walked.admits (before : Walked) (tag : Tag) : Bool :=
  tag.allocated || before.tag.allocated || before.tag.reserved

/-- Examines the block at `cursor`, whose header was read as `tag`. -/
def auditBlock (before : Option Walked) (cursor : Block) (tag : Tag) : AuditM Unit := do
  if cursor.offset % 8 ≠ 0 then
    throw (.misaligned cursor.offset)
  if tag.size < minBlock then
    throw (.badSize cursor.offset tag.size)
  if (← read).size < cursor.offset + tag.size then
    throw (.pastEnd cursor.offset)
  let footer ← cursor.footerTag
  if footer ≠ ⟨tag.size, tag.allocated, false⟩ then
    throw (.footer cursor.offset)
  if let some walked := before then
    if !walked.admits tag then
      throw (.adjacentFree walked.block.offset cursor.offset)

/-- Walks from `cursor` to the epilogue and collects the blocks in between. -/
def auditChain : Nat → Block → Array Walked → AuditM (Array Walked)
  | 0, _, _ => throwThe Fault .endless
  | patience + 1, cursor, walked => do
      let high := (← read).size
      if high < cursor.offset then
        throw (.pastEnd cursor.offset)
      let tag ← cursor.tag
      if tag.size = 0 then
        if !tag.allocated || cursor.offset ≠ high then
          throw (.epilogue (cursor.offset - 4))
        return walked
      auditBlock walked.back? cursor tag
      auditChain patience ⟨cursor.offset + tag.size⟩ (walked.push ⟨cursor, tag⟩)

/-- Walks a list and adds its members to those that were listed before. -/
def auditList (cls : SizeClass) (known : List Block) :
    Nat → Option Block → Nat → Option Block → List Block → AuditM (List Block)
  | 0, _, _, _, _ => throwThe Fault .endless
  | _ + 1, _, _, none, listed => return listed
  | patience + 1, previous, least, some current, listed => do
      if current ∉ known then
        throw (.strayLink cls.val current.offset)
      if current ∈ listed then
        throw (.cycle cls.val)
      let tag ← current.tag
      if tag.allocated then
        throw (.listedAllocated current.offset)
      let expected := SizeClass.ofSize tag.size
      if expected ≠ cls then
        throw (.wrongClass current.offset cls.val expected.val)
      if tag.size < least then
        throw (.unsorted cls.val)
      let links ← current.links
      if links.previous ≠ previous then
        throw (.brokenLink cls.val current.offset)
      auditList cls known patience (some current) tag.size links.next (current :: listed)

def auditLists (heap : Heap) (known : List Block) :
    List SizeClass → List Block → AuditM (List Block)
  | [], listed => return listed
  | cls :: classes, listed => do
      let listed ← auditList cls known (known.length + 1) none 0 (heap.head cls) listed
      heap.auditLists known classes listed

def auditAll (heap : Heap) : AuditM Unit := do
  let sentinel : Tag := ⟨8, true, false⟩
  if (← heap.prologue.tag) ≠ sentinel then
    throw .prologue
  if (← heap.prologue.footerTag) ≠ sentinel then
    throw .prologue
  let walked := (← auditChain (← patience) (← heap.prologue.next) #[]).toList
  let known := walked.map Walked.block
  let listed ← heap.auditLists known (List.finRange 20) []
  let unlisted := walked.find? fun found => !found.tag.allocated && found.block ∉ listed
  if let some found := unlisted then
    throw (.unlisted found.block.offset)

def audit (heap : Heap) : Except Fault (Option Defect) := do
  match ← heap.auditAll.run heap.region with
  | .ok () => return none
  | .error defect => return some defect

end Heap

end TaggedHeap
