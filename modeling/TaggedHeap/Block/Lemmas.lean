import TaggedHeap.Block.Basic

/-!
Contract: what the operations of a block come to where all their words lie in the region.

Each statement turns one computation into a term over `Region.word` and `Region.setWord`, the
view and the change that the laws of words speak of.
-/

namespace TaggedHeap.Block

variable {region : Region} {block : Block}

theorem header_of_le (above : 4 ≤ block.offset) : block.header = .ok (block.offset - 4) :=
  difference_of_le above

theorem tag_of_le (above : 4 ≤ block.offset) (inside : block.offset ≤ region.size) :
    block.tag region = .ok (Tag.ofWord (region.word (block.offset - 4))) := by
  have fits : block.offset - 4 + 4 ≤ region.size := by omega
  simp only [tag, header_of_le above, bind, ReaderT.bind, Except.bind, liftM, monadLift,
    MonadLift.monadLift, Region.readWord_of_le fits]
  rfl

theorem size_of_tag {tag : Tag} (read : block.tag region = .ok tag) :
    block.size region = .ok tag.size := by
  simp only [size, bind, ReaderT.bind, Except.bind, read]
  rfl

theorem isAllocated_of_tag {tag : Tag} (read : block.tag region = .ok tag) :
    block.isAllocated region = .ok tag.allocated := by
  simp only [isAllocated, bind, ReaderT.bind, Except.bind, read]
  rfl

theorem next_of_tag {tag : Tag} (read : block.tag region = .ok tag) :
    block.next region = .ok ⟨block.offset + tag.size⟩ := by
  simp only [next, bind, ReaderT.bind, Except.bind, size_of_tag read]
  rfl

theorem footer_of_tag {tag : Tag} (read : block.tag region = .ok tag)
    (above : 8 ≤ block.offset + tag.size) :
    block.footer region = .ok (block.offset + tag.size - 8) := by
  simp only [footer, bind, ReaderT.bind, Except.bind, size_of_tag read]
  exact difference_of_le above

theorem footerTag_of_tag {tag : Tag} (read : block.tag region = .ok tag)
    (above : 8 ≤ block.offset + tag.size)
    (inside : block.offset + tag.size ≤ region.size + 4) :
    block.footerTag region =
      .ok (Tag.ofWord (region.word (block.offset + tag.size - 8))) := by
  have fits : block.offset + tag.size - 8 + 4 ≤ region.size := by omega
  simp only [footerTag, bind, ReaderT.bind, Except.bind, footer_of_tag read above,
    Region.readWord_of_le fits]
  rfl

theorem previous_of_le (above : 8 ≤ block.offset) (inside : block.offset ≤ region.size + 4)
    (fits : (Tag.ofWord (region.word (block.offset - 8))).size ≤ block.offset) :
    block.previous region =
      .ok ⟨block.offset - (Tag.ofWord (region.word (block.offset - 8))).size⟩ := by
  have wordFits : block.offset - 8 + 4 ≤ region.size := by omega
  simp only [previous, bind, ReaderT.bind, Except.bind, liftM, monadLift,
    MonadLift.monadLift, difference_of_le above, Region.readWord_of_le wordFits,
    difference_of_le fits]
  rfl

theorem links_of_tag {tag : Tag} (read : block.tag region = .ok tag)
    (free : tag.allocated = false) (inside : block.offset + 8 ≤ region.size) :
    block.links region =
      .ok ⟨Links.decode (region.word block.offset),
        Links.decode (region.word (block.offset + 4))⟩ := by
  have previousFits : block.offset + 4 ≤ region.size := by omega
  have nextFits : block.offset + 4 + 4 ≤ region.size := by omega
  simp only [links, bind, ReaderT.bind, Except.bind, isAllocated_of_tag read, free,
    Bool.false_eq_true, ↓reduceIte, Region.readWord_of_le previousFits,
    Region.readWord_of_le nextFits]
  rfl

theorem setPrevious_of_le (previous : Option Block) (inside : block.offset + 4 ≤ region.size) :
    block.setPrevious previous region =
      .ok () (region.setWord block.offset (Links.encode previous)) :=
  Region.writeWord_of_le _ inside

theorem setNext_of_le (next : Option Block) (inside : block.offset + 8 ≤ region.size) :
    block.setNext next region =
      .ok () (region.setWord (block.offset + 4) (Links.encode next)) :=
  Region.writeWord_of_le _ inside

theorem setLinks_of_le (links : Links) (inside : block.offset + 8 ≤ region.size) :
    block.setLinks links region =
      .ok () ((region.setWord block.offset (Links.encode links.previous)).setWord
        (block.offset + 4) (Links.encode links.next)) := by
  have previousFits : block.offset + 4 ≤ region.size := by omega
  have nextFits :
      block.offset + 8 ≤ (region.setWord block.offset (Links.encode links.previous)).size := by
    rw [Region.size_setWord]
    exact inside
  simp only [setLinks, bind, EStateM.bind, setPrevious_of_le links.previous previousFits]
  exact setNext_of_le links.next nextFits

theorem writeTags_of_le {size : Nat} (allocated reserved : Bool) (above : 4 ≤ block.offset)
    (footerAbove : 8 ≤ block.offset + size) (headerInside : block.offset ≤ region.size)
    (footerInside : block.offset + size ≤ region.size + 4) (aligned : size % 8 = 0)
    (encodable : size ≤ maxBlock) :
    block.writeTags size allocated reserved region =
      .ok () ((region.setWord (block.offset - 4) (Tag.toWord ⟨size, allocated, reserved⟩)).setWord
        (block.offset + size - 8) (Tag.toWord ⟨size, allocated, false⟩)) := by
  have headerTag : Tag.encode ⟨size, allocated, reserved⟩ = .ok _ :=
    Tag.encode_of_encodable ⟨aligned, encodable⟩
  have footerTag : Tag.encode ⟨size, allocated, false⟩ = .ok _ :=
    Tag.encode_of_encodable ⟨aligned, encodable⟩
  have headerFits : block.offset - 4 + 4 ≤ region.size := by omega
  have footerFits : block.offset + size - 8 + 4 ≤
      (region.setWord (block.offset - 4) (Tag.toWord ⟨size, allocated, reserved⟩)).size := by
    rw [Region.size_setWord]
    omega
  simp only [writeTags, bind, EStateM.bind, liftM, monadLift, MonadLift.monadLift,
    header_of_le above, headerTag, Region.writeWord_of_le _ headerFits,
    difference_of_le footerAbove, footerTag]
  exact Region.writeWord_of_le _ footerFits

theorem stamp_of_tag {tag : Tag} (size : Nat) (allocated : Bool)
    (read : block.tag region = .ok tag) :
    block.stamp size allocated region =
      block.writeTags size allocated tag.reserved region := by
  simp only [stamp, bind, EStateM.bind, liftM, monadLift, MonadLift.monadLift, read]

theorem stampEnd_of_le (above : 4 ≤ block.offset) (inside : block.offset ≤ region.size) :
    block.stampEnd region =
      .ok () (region.setWord (block.offset - 4) (Tag.toWord ⟨0, true, false⟩)) := by
  have endTag : Tag.encode ⟨0, true, false⟩ = .ok (Tag.toWord ⟨0, true, false⟩) := rfl
  have fits : block.offset - 4 + 4 ≤ region.size := by omega
  simp only [stampEnd, bind, EStateM.bind, liftM, monadLift, MonadLift.monadLift,
    header_of_le above, endTag]
  exact Region.writeWord_of_le _ fits

theorem setReserved_of_le (reserved : Bool) (above : 4 ≤ block.offset)
    (inside : block.offset ≤ region.size) :
    block.setReserved reserved region =
      .ok () (region.setWord (block.offset - 4)
        (Tag.markWord (region.word (block.offset - 4)) reserved)) := by
  have fits : block.offset - 4 + 4 ≤ region.size := by omega
  simp only [setReserved, bind, EStateM.bind, liftM, monadLift, MonadLift.monadLift,
    header_of_le above, Region.readWord_of_le fits]
  exact Region.writeWord_of_le _ fits

end TaggedHeap.Block
