import TaggedHeap.Block.Tag
import TaggedHeap.Region.Access

/-!
Contract: blocks, the units that a region is divided into.

A block is named by the offset of its payload. Its header is the word in front of the
payload and its footer the last word of its extent, so a block of size `s` at `b` occupies
the bytes from `b - 4` to `b + s - 4`:

```text
  allocated   | header | payload                       | footer |
  free        | header | previous | next | (unused)    | footer |
                       ^ offset
```

Header and footer hold the same size and the same flag "allocated"; only a header is ever
reserved. The links of a free block live in its payload.
-/

namespace TaggedHeap

/-- A block, by the offset of its payload. -/
structure Block where
  offset : Nat
deriving DecidableEq, Repr

/-- Neighbours of a free block in its list. -/
structure Links where
  previous : Option Block
  next : Option Block
deriving DecidableEq, Repr

namespace Links

/-- A link as a word. No payload is at offset zero, so zero is the absent link. -/
def encode : Option Block → UInt32
  | none => 0
  | some block => UInt32.ofNat block.offset

def decode (word : UInt32) : Option Block :=
  if word = 0 then none else some ⟨word.toNat⟩

theorem decode_encode_none : decode (encode none) = none :=
  rfl

theorem decode_encode_some {block : Block} (positive : 0 < block.offset)
    (fits : block.offset < 4294967296) : decode (encode (some block)) = some block := by
  have word : (UInt32.ofNat block.offset).toNat = block.offset := by
    rw [UInt32.toNat_ofNat']
    exact Nat.mod_eq_of_lt fits
  have nonzero : UInt32.ofNat block.offset ≠ 0 := by
    intro zero
    rw [zero] at word
    simp only [UInt32.toNat_zero] at word
    omega
  simp only [encode, decode, if_neg nonzero, word]

end Links

namespace Block

/-- The block whose payload begins at an offset. An offset between two grains is a fault. -/
def ofOffset (offset : Nat) : Except Fault Block :=
  if offset % 8 = 0 then .ok ⟨offset⟩ else .error .misaligned

theorem ofOffset_of_mod {offset : Nat} (aligned : offset % 8 = 0) :
    ofOffset offset = .ok ⟨offset⟩ :=
  if_pos aligned

def header (block : Block) : Except Fault Nat :=
  difference block.offset 4

def tag (block : Block) : ReadM Tag := do
  let word ← Region.readWord (← block.header)
  return Tag.ofWord word

def size (block : Block) : ReadM Nat := do
  return (← block.tag).size

def isAllocated (block : Block) : ReadM Bool := do
  return (← block.tag).allocated

def footer (block : Block) : ReadM Nat := do
  difference (block.offset + (← block.size)) 8

def footerTag (block : Block) : ReadM Tag := do
  let word ← Region.readWord (← block.footer)
  return Tag.ofWord word

/-- The block that begins where this one ends. -/
def next (block : Block) : ReadM Block := do
  return ⟨block.offset + (← block.size)⟩

/-- The block that ends where this one begins, found by its footer. -/
def previous (block : Block) : ReadM Block := do
  let word ← Region.readWord (← difference block.offset 8)
  return ⟨← difference block.offset (Tag.ofWord word).size⟩

def links (block : Block) : ReadM Links := do
  if ← block.isAllocated then
    throw .linksOfAllocated
  let previous ← Region.readWord block.offset
  let next ← Region.readWord (block.offset + 4)
  return ⟨Links.decode previous, Links.decode next⟩

def writeTags (block : Block) (size : Nat) (allocated reserved : Bool) : RegionM Unit := do
  Region.writeWord (← block.header) (← Tag.encode ⟨size, allocated, reserved⟩)
  Region.writeWord (← difference (block.offset + size) 8) (← Tag.encode ⟨size, allocated, false⟩)

/-- Writes header and footer and keeps the block as reserved as it was. -/
def stamp (block : Block) (size : Nat) (allocated : Bool) : RegionM Unit := do
  block.writeTags size allocated (← block.tag).reserved

/-- Writes the header that closes a region: size zero, allocated. -/
def stampEnd (block : Block) : RegionM Unit := do
  Region.writeWord (← block.header) (← Tag.encode ⟨0, true, false⟩)

def setReserved (block : Block) (reserved : Bool) : RegionM Unit := do
  let header ← block.header
  let word ← Region.readWord header
  Region.writeWord header (Tag.markWord word reserved)

def setPrevious (block : Block) (previous : Option Block) : RegionM Unit :=
  Region.writeWord block.offset (Links.encode previous)

def setNext (block : Block) (next : Option Block) : RegionM Unit :=
  Region.writeWord (block.offset + 4) (Links.encode next)

def setLinks (block : Block) (links : Links) : RegionM Unit := do
  block.setPrevious links.previous
  block.setNext links.next

end Block

end TaggedHeap
