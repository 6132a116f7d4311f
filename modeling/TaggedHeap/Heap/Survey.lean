import TaggedHeap.Heap.Basic

/-!
Contract: the views of a heap that a client may ask for.

The blocks of a heap come in the order of their addresses, the members of a size class in
the order of their list. A view trusts the bytes: on a damaged heap it shows what they say.
-/

namespace TaggedHeap

structure BlockInfo where
  handle : Handle
  size : Nat
  allocated : Bool
  reserved : Bool
deriving DecidableEq, Repr

/-- How much of a heap is in use. Sizes include headers and footers. -/
structure Occupancy where
  regionBytes : Nat
  allocatedBlocks : Nat := 0
  allocatedBytes : Nat := 0
  freeBlocks : Nat := 0
  freeBytes : Nat := 0
deriving DecidableEq, Repr

namespace Occupancy

def add (occupancy : Occupancy) (info : BlockInfo) : Occupancy :=
  if info.allocated then
    { occupancy with
      allocatedBlocks := occupancy.allocatedBlocks + 1
      allocatedBytes := occupancy.allocatedBytes + info.size }
  else
    { occupancy with
      freeBlocks := occupancy.freeBlocks + 1
      freeBytes := occupancy.freeBytes + info.size }

/-- Share of the region that allocated blocks cover, in double precision. -/
def utilisation (occupancy : Occupancy) : Float :=
  if occupancy.regionBytes = 0 then
    0
  else
    occupancy.allocatedBytes.toUInt64.toFloat / occupancy.regionBytes.toUInt64.toFloat

end Occupancy

namespace Heap

/-- The blocks from `cursor` on, at most `count`, behind those that were seen before. -/
def surveyFrom : Nat → Block → Array BlockInfo → ReadM (Array BlockInfo)
  | 0, _, seen => return seen
  | count + 1, cursor, seen => do
      let tag ← cursor.tag
      if tag.size = 0 then
        return seen
      let info : BlockInfo := ⟨cursor.handle, tag.size, tag.allocated, tag.reserved⟩
      surveyFrom count ⟨cursor.offset + tag.size⟩ (seen.push info)

def firstBlocks (heap : Heap) (count : Nat) : Except Fault (List BlockInfo) := do
  let first ← heap.prologue.next heap.region
  let seen ← surveyFrom count first #[] heap.region
  return seen.toList

/-- The blocks between prologue and epilogue. Each takes up space, so there are fewer of them
than bytes. -/
def blocks (heap : Heap) : Except Fault (List BlockInfo) :=
  heap.firstBlocks (heap.region.size + 1)

/-- The members of a list from `cursor` on, at most `count`, behind those seen before. -/
def membersFrom : Nat → Option Block → Array Block → ReadM (Array Block)
  | 0, _, seen => return seen
  | _ + 1, none, seen => return seen
  | count + 1, some current, seen => do
      let links ← current.links
      membersFrom count links.next (seen.push current)

def firstMembers (heap : Heap) (cls : SizeClass) (count : Nat) :
    Except Fault (List Handle) := do
  let seen ← membersFrom count (heap.head cls) #[] heap.region
  return seen.toList.map Block.handle

/-- The members of a size class. A list that does not end is a fault. -/
def members (heap : Heap) (cls : SizeClass) : Except Fault (List Handle) := do
  let found ← heap.firstMembers cls (heap.region.size + 1)
  if heap.region.size < found.length then
    throw .endless
  return found

def occupancy (heap : Heap) : Except Fault Occupancy := do
  let found ← heap.blocks
  return found.foldl Occupancy.add ⟨heap.region.size, 0, 0, 0, 0⟩

private def alignRight (width : Nat) (text : String) : String :=
  String.ofList (List.replicate (width - text.length) ' ') ++ text

/-- A block as one line of text: its offset, its size and its flags. -/
def describeBlock (info : BlockInfo) : String :=
  let offset := alignRight 8 (toString info.handle.offset)
  let size := alignRight 8 (toString info.size)
  let state := if info.allocated then "alloc" else "free "
  let mark := if info.reserved then "  [tagged]" else ""
  s!"  {offset}  {size}  {state}{mark}\n"

private theorem newline_notMem_alignRight (width number : Nat) :
    '\n' ∉ (alignRight width (toString number)).toList := by
  intro member
  rw [alignRight, String.toList_append, String.toList_ofList, Nat.toString_eq_repr,
    Nat.toList_repr, List.mem_append] at member
  rcases member with padding | digit
  · exact absurd (List.eq_of_mem_replicate padding) (by decide)
  · exact absurd (Nat.isDigit_of_mem_toDigits (by decide) (by decide) digit) (by decide)

/-- A block is described by one line. -/
theorem describeBlock_line (info : BlockInfo) :
    ∃ line, (describeBlock info).toList = line ++ ['\n'] ∧ '\n' ∉ line := by
  have offset := newline_notMem_alignRight 8 info.handle.offset
  have size := newline_notMem_alignRight 8 info.size
  refine ⟨_, String.toList_append, ?_⟩
  cases info.allocated <;> cases info.reserved <;> simp [toString] <;> exact ⟨offset, size⟩

def describeClass (cls : SizeClass) (count : Nat) : String :=
  if count = 0 then "" else s!" {cls.val}:{count}"

/-- A heap as text: its bounds, a line for each block, and the sizes of its lists. -/
def describe (heap : Heap) : Except Fault String := do
  let found ← heap.blocks
  let counts ← (List.finRange 20).mapM fun cls => do
    return describeClass cls (← heap.members cls).length
  let bounds := s!"heap [0, {heap.region.size}) prologue at {heap.prologue.offset}\n"
  return bounds ++ String.join (found.map describeBlock) ++ "buckets:" ++
    String.join counts ++ "\n"

end Heap

end TaggedHeap
