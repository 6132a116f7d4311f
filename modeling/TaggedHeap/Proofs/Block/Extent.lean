import TaggedHeap.Block.Lemmas
import TaggedHeap.Heap.Survey

/-!
Contract: blocks in a region, as what their words say.

A block at `b` of size `s` has its header at `b - 4`, its links at `b` and `b + 4`, and its
footer at `b + s - 8`. A region holds a block if header and footer agree with its description.
The main statements say which of these words a change of the region leaves alone.
-/

namespace TaggedHeap

namespace BlockInfo

/-- Offset of the payload. -/
abbrev offset (info : BlockInfo) : Nat :=
  info.handle.offset

def block (info : BlockInfo) : Block :=
  ⟨info.offset⟩

/-- What the header says. -/
def tag (info : BlockInfo) : Tag :=
  ⟨info.size, info.allocated, info.reserved⟩

/-- What the footer says. -/
def footTag (info : BlockInfo) : Tag :=
  ⟨info.size, info.allocated, false⟩

/-- No byte belongs to both blocks. -/
def Apart (info other : BlockInfo) : Prop :=
  info.offset + info.size ≤ other.offset ∨ other.offset + other.size ≤ info.offset

/-- The byte belongs to neither header nor footer of the block. -/
def Untagged (info : BlockInfo) (index : Nat) : Prop :=
  index + 4 < info.offset ∨ info.offset ≤ index ∧
    (index + 8 < info.offset + info.size ∨ info.offset + info.size ≤ index + 4)

@[simp] theorem offset_block (info : BlockInfo) : info.block.offset = info.offset :=
  rfl

@[simp] theorem size_tag (info : BlockInfo) : info.tag.size = info.size :=
  rfl

@[simp] theorem allocated_tag (info : BlockInfo) : info.tag.allocated = info.allocated :=
  rfl

@[simp] theorem reserved_tag (info : BlockInfo) : info.tag.reserved = info.reserved :=
  rfl

theorem Apart.separated {info other : BlockInfo} (apart : info.Apart other) :
    info.offset + info.size ≤ other.offset ∨ other.offset + other.size ≤ info.offset :=
  apart

theorem Apart.symm {info other : BlockInfo} (apart : info.Apart other) : other.Apart info :=
  Or.symm apart

end BlockInfo

def AllFree (infos : List BlockInfo) : Prop :=
  ∀ info ∈ infos, info.allocated = false

theorem allFree_cons {info : BlockInfo} {rest : List BlockInfo} :
    AllFree (info :: rest) ↔ info.allocated = false ∧ AllFree rest :=
  List.forall_mem_cons

namespace Region

/-- What the header of a block at `offset` says. -/
def headerTag (region : Region) (offset : Nat) : Tag :=
  Tag.ofWord (region.word (offset - 4))

/-- What the footer of a block says that ends where the block at `stop` begins. -/
def footerTag (region : Region) (stop : Nat) : Tag :=
  Tag.ofWord (region.word (stop - 8))

def linksAt (region : Region) (block : Block) : Links :=
  ⟨Links.decode (region.word block.offset), Links.decode (region.word (block.offset + 4))⟩

/-- Header and footer agree with the description of a block. -/
structure Holds (region : Region) (info : BlockInfo) : Prop where
  header : region.headerTag info.offset = info.tag
  footer : region.footerTag (info.offset + info.size) = info.footTag

/-- Writes header and footer of a block. -/
def stamp (region : Region) (info : BlockInfo) : Region :=
  (region.setWord (info.offset - 4) info.tag.toWord).setWord
    (info.offset + info.size - 8) info.footTag.toWord

/-- Writes the header that closes a heap. -/
def stampEnd (region : Region) (stop : Nat) : Region :=
  region.setWord (stop - 4) (Tag.toWord ⟨0, true, false⟩)

variable {region : Region} {info other : BlockInfo}

@[simp] theorem size_stamp (region : Region) (info : BlockInfo) :
    (region.stamp info).size = region.size := by
  simp only [stamp, size_setWord]

@[simp] theorem limit_stamp (region : Region) (info : BlockInfo) :
    (region.stamp info).limit = region.limit := by
  simp only [stamp, limit_setWord]

@[simp] theorem size_stampEnd (region : Region) (stop : Nat) :
    (region.stampEnd stop).size = region.size := by
  simp only [stampEnd, size_setWord]

@[simp] theorem limit_stampEnd (region : Region) (stop : Nat) :
    (region.stampEnd stop).limit = region.limit := by
  simp only [stampEnd, limit_setWord]

/-! ## Regions that agree -/

theorem headerTag_congr {left right : Region} {offset : Nat} (above : 4 ≤ offset)
    (same : ∀ index, offset ≤ index + 4 → index < offset →
      left.byte index = right.byte index) :
    left.headerTag offset = right.headerTag offset := by
  rw [headerTag, headerTag, word_congr fun index lower upper => same index (by omega) (by omega)]

theorem footerTag_congr {left right : Region} {stop : Nat} (above : 8 ≤ stop)
    (same : ∀ index, stop ≤ index + 8 → index + 4 < stop →
      left.byte index = right.byte index) :
    left.footerTag stop = right.footerTag stop := by
  rw [footerTag, footerTag, word_congr fun index lower upper => same index (by omega) (by omega)]

theorem linksAt_congr {left right : Region} {block : Block}
    (same : ∀ index, block.offset ≤ index → index < block.offset + 8 →
      left.byte index = right.byte index) :
    left.linksAt block = right.linksAt block := by
  rw [linksAt, linksAt, word_congr fun index lower upper => same index (by omega) (by omega),
    word_congr fun index lower upper => same index (by omega) (by omega)]

/-- A region that agrees on the two boundaries of a block holds it too. -/
theorem Holds.congr {after : Region} (holds : region.Holds info) (above : 4 ≤ info.offset)
    (wide : 8 ≤ info.size)
    (header : ∀ index, info.offset ≤ index + 4 → index < info.offset →
      after.byte index = region.byte index)
    (footer : ∀ index, info.offset + info.size ≤ index + 8 →
      index + 4 < info.offset + info.size → after.byte index = region.byte index) :
    after.Holds info where
  header := (headerTag_congr above header).trans holds.header
  footer := (footerTag_congr (by omega) footer).trans holds.footer

/-! ## Stamps -/

theorem byte_stamp_of_untagged (region : Region) {info : BlockInfo} {index : Nat}
    (above : 4 ≤ info.offset) (wide : 8 ≤ info.size) (untagged : info.Untagged index) :
    (region.stamp info).byte index = region.byte index := by
  have outside : index + 4 < info.offset ∨ info.offset ≤ index ∧
      (index + 8 < info.offset + info.size ∨ info.offset + info.size ≤ index + 4) := untagged
  rw [stamp, byte_setWord_of_outside _ _ (by omega), byte_setWord_of_outside _ _ (by omega)]

theorem byte_stampEnd_of_outside (region : Region) {stop index : Nat} (above : 4 ≤ stop)
    (outside : index + 4 < stop ∨ stop ≤ index) :
    (region.stampEnd stop).byte index = region.byte index := by
  rw [stampEnd, byte_setWord_of_outside _ _ (by omega)]

theorem holds_stamp (above : 4 ≤ info.offset) (wide : 8 ≤ info.size)
    (aligned : info.size % 8 = 0) (encodable : info.size ≤ maxBlock)
    (inside : info.offset + info.size ≤ region.size + 4) (grid : info.offset % 4 = 0) :
    (region.stamp info).Holds info where
  header := by
    have apart : info.offset - 4 + 4 ≤ info.offset + info.size - 8 ∨
        info.offset + info.size - 8 + 4 ≤ info.offset - 4 := by omega
    have fits : info.offset - 4 + 4 ≤ region.size := by omega
    rw [headerTag, stamp, word_setWord_of_apart _ _ apart, word_setWord _ _ fits]
    exact Tag.ofWord_toWord ⟨aligned, encodable⟩
  footer := by
    have fits : info.offset + info.size - 8 + 4 ≤
        (region.setWord (info.offset - 4) info.tag.toWord).size := by
      rw [size_setWord]
      omega
    rw [footerTag, stamp, word_setWord _ _ fits]
    exact Tag.ofWord_toWord ⟨aligned, encodable⟩

theorem headerTag_stampEnd {stop : Nat} (above : 4 ≤ stop) (inside : stop ≤ region.size) :
    (region.stampEnd stop).headerTag stop = ⟨0, true, false⟩ := by
  rw [headerTag, stampEnd, word_setWord _ _ (by omega)]
  exact Tag.ofWord_toWord (by decide)

end Region

namespace Block

variable {region : Region} {info : BlockInfo}

theorem writeTags_stamp (above : 4 ≤ info.offset) (wide : 8 ≤ info.size)
    (inside : info.offset + info.size ≤ region.size + 4)
    (aligned : info.size % 8 = 0) (encodable : info.size ≤ maxBlock) :
    info.block.writeTags info.size info.allocated info.reserved region =
      .ok () (region.stamp info) := by
  have footerAbove : 8 ≤ info.offset + info.size := by omega
  have headerInside : info.offset ≤ region.size := by omega
  exact writeTags_of_le info.allocated info.reserved above footerAbove headerInside inside
    aligned encodable

theorem tag_of_header {tag : Tag} (header : region.headerTag info.offset = tag)
    (above : 4 ≤ info.offset) (inside : info.offset ≤ region.size) :
    info.block.tag region = .ok tag := by
  rw [tag_of_le above inside, ← header]
  rfl

end Block

end TaggedHeap
