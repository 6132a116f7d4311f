import TaggedHeap.Proofs.Block.Extent

/-!
Contract: what is written into the words of a block reads back from them.

Sizes, flags and links share words, and the words of a block of the least size touch each
other. The main statements say of each write what the reads answer after it and which bytes
of the region it leaves alone, over arbitrary regions.
-/

namespace TaggedHeap

namespace Tag

/-! ## Words -/

/-- Decoding a word and encoding it again clears bit two, which means nothing. -/
theorem encode_ofWord (word : UInt32) : (ofWord word).encode = .ok (word &&& ~~~4) := by
  rw [encode_of_encodable (encodable_ofWord word)]
  congr 1
  apply UInt32.toNat_inj.1
  have bound := word.toNat_lt
  have upper : (word.toNat &&& 4294967291) / 8 = word.toNat / 8 := by
    rw [show 8 = 2 ^ 3 from rfl, Nat.and_div_two_pow]
    exact Nat.and_two_pow_sub_one_of_lt_two_pow (show _ < 2 ^ 29 by omega)
  have lower : (word.toNat &&& 4294967291) % 8 = word.toNat % 4 := by
    rw [show 8 = 2 ^ 3 from rfl, Nat.and_mod_two_pow, show 4 = 2 ^ 2 from rfl,
      ← Nat.and_two_pow_sub_one_eq_mod word.toNat 2, ← Nat.and_two_pow_sub_one_eq_mod word.toNat 3,
      Nat.and_assoc]
    rfl
  rw [toNat_toWord_ofWord, UInt32.toNat_and]
  change _ = word.toNat &&& 4294967291
  omega

/-- Marking changes bit one and no other. -/
theorem markWord_eq (word : UInt32) (reserved : Bool) :
    markWord word reserved = if reserved then word ||| 2 else word &&& ~~~2 := by
  have bound := word.toNat_lt
  apply UInt32.toNat_inj.1
  rw [toNat_markWord]
  cases reserved with
  | true =>
      have upper : (word.toNat ||| 2) / 4 = word.toNat / 4 := by
        rw [show 4 = 2 ^ 2 from rfl, Nat.or_div_two_pow]
        exact Nat.or_zero _
      have lower : (word.toNat ||| 2) % 4 = 2 + word.toNat % 2 := by
        rw [show 4 = 2 ^ 2 from rfl, Nat.or_mod_two_pow]
        have cases4 : ∀ low < 4, low ||| 2 = 2 + low % 2 := by decide
        rw [cases4 _ (Nat.mod_lt _ (by decide))]
        omega
      rw [if_pos rfl, UInt32.toNat_or, Bool.toNat_true]
      change _ = word.toNat ||| 2
      omega
  | false =>
      have upper : (word.toNat &&& 4294967293) / 4 = word.toNat / 4 := by
        rw [show 4 = 2 ^ 2 from rfl, Nat.and_div_two_pow]
        exact Nat.and_two_pow_sub_one_of_lt_two_pow (show _ < 2 ^ 30 by omega)
      have lower : (word.toNat &&& 4294967293) % 4 = word.toNat % 2 := by
        rw [show 4 = 2 ^ 2 from rfl, Nat.and_mod_two_pow, ← Nat.and_one_is_mod word.toNat,
          ← Nat.and_two_pow_sub_one_eq_mod word.toNat 2, Nat.and_assoc]
        rfl
      rw [if_neg Bool.false_ne_true, UInt32.toNat_and, Bool.toNat_false]
      change _ = word.toNat &&& 4294967293
      omega

end Tag

namespace Block

/-! ## Blocks -/

/-- A block of `size` bytes can be written at this place of the region. -/
structure Fits (region : Region) (block : Block) (size : Nat) : Prop where
  aligned : block.offset % 8 = 0
  above : 8 ≤ block.offset
  granular : size % 8 = 0
  wide : 16 ≤ size
  encodable : size ≤ maxBlock
  inside : block.offset + size ≤ region.size

/-- The byte belongs to neither header nor footer of a block of `size` bytes. -/
def Untagged (block : Block) (size index : Nat) : Prop :=
  index + 4 < block.offset ∨ block.offset ≤ index ∧
    (index + 8 < block.offset + size ∨ block.offset + size ≤ index + 4)

/-- Header and footer were written for a block of `size` bytes: both say so, the header is as
reserved as it was, and no other byte changed. -/
structure Stamped (before after : Region) (block : Block) (size : Nat) (allocated : Bool) :
    Prop where
  header : ∃ old, block.tag before = .ok old ∧
    block.tag after = .ok ⟨size, allocated, old.reserved⟩
  footer : block.footerTag after = .ok ⟨size, allocated, false⟩
  next : block.next after = .ok ⟨block.offset + size⟩
  previous : previous ⟨block.offset + size⟩ after = .ok block
  sameSize : after.size = before.size
  untouched : ∀ index, block.Untagged size index → after.byte index = before.byte index

/-- The flag "reserved" of a header was written: bit one of its word, and nothing else. -/
structure Marked (before after : Region) (block : Block) (reserved : Bool) : Prop where
  header : ∃ old, block.tag before = .ok old ∧
    block.tag after = .ok { old with reserved := reserved }
  word : after.word (block.offset - 4) =
    if reserved then before.word (block.offset - 4) ||| 2
    else before.word (block.offset - 4) &&& ~~~2
  sameSize : after.size = before.size
  untouched : ∀ index, index + 4 < block.offset ∨ block.offset ≤ index →
    after.byte index = before.byte index

/-- The links of a free block were written: they read back, and neither the header nor the
footer of a block of the least size or more is touched. -/
structure Threaded (before after : Region) (block : Block) (links : Links) : Prop where
  links : block.links after = .ok links
  header : block.tag after = block.tag before
  footer : ∀ old, block.tag before = .ok old → 16 ≤ old.size →
    block.footerTag after = block.footerTag before
  sameSize : after.size = before.size
  untouched : ∀ index, index < block.offset ∨ block.offset + 8 ≤ index →
    after.byte index = before.byte index

/-- A word of the region can name the block as a neighbour. -/
def Linkable (block : Block) : Prop :=
  0 < block.offset ∧ block.offset < 4294967296

variable {region : Region} {block : Block} {size : Nat}

theorem stamp_stamped (fits : Fits region block size) (allocated : Bool) :
    ∃ after, block.stamp size allocated region = .ok () after ∧
      Stamped region after block size allocated := by
  obtain ⟨aligned, above, granular, wide, encodable, inside⟩ := fits
  have read : block.tag region = .ok (region.headerTag block.offset) :=
    tag_of_le (by omega) (by omega)
  let info : BlockInfo :=
    ⟨⟨block.offset⟩, size, allocated, (region.headerTag block.offset).reserved⟩
  have tagged : info.block.writeTags size allocated info.reserved region =
      .ok () (region.stamp info) :=
    writeTags_stamp (show 4 ≤ block.offset by omega) (show 8 ≤ size by omega)
      (show block.offset + size ≤ region.size + 4 by omega) granular encodable
  have written : block.stamp size allocated region = .ok () (region.stamp info) :=
    (stamp_of_tag size allocated read).trans tagged
  have holds : (region.stamp info).Holds info :=
    Region.holds_stamp (show 4 ≤ block.offset by omega) (show 8 ≤ size by omega) granular
      encodable (show block.offset + size ≤ region.size + 4 by omega)
      (show block.offset % 4 = 0 by omega)
  have sameSize : (region.stamp info).size = region.size := Region.size_stamp ..
  have header : block.tag (region.stamp info) = .ok info.tag :=
    show info.block.tag (region.stamp info) = .ok info.tag from
      tag_of_header holds.header (show 4 ≤ block.offset by omega)
        (show block.offset ≤ (region.stamp info).size by omega)
  have footer : Tag.ofWord ((region.stamp info).word (block.offset + size - 8)) = info.footTag :=
    holds.footer
  have before : (⟨block.offset + size⟩ : Block).previous (region.stamp info) = .ok block := by
    rw [previous_of_le (show 8 ≤ block.offset + size by omega)
      (show block.offset + size ≤ (region.stamp info).size + 4 by omega)
      (by rw [footer]; exact Nat.le_add_left ..), footer]
    exact congrArg _ (congrArg _ (Nat.add_sub_cancel ..))
  refine ⟨_, written, ⟨_, read, header⟩, ?_, next_of_tag header, before, sameSize, ?_⟩
  · rw [footerTag_of_tag header (show 8 ≤ block.offset + size by omega)
      (show block.offset + size ≤ (region.stamp info).size + 4 by omega)]
    exact congrArg _ footer
  · intro index untagged
    exact Region.byte_stamp_of_untagged _ (show 4 ≤ block.offset by omega)
      (show 8 ≤ size by omega) untagged

theorem setReserved_marked (above : 8 ≤ block.offset) (inside : block.offset ≤ region.size)
    (reserved : Bool) :
    ∃ after, block.setReserved reserved region = .ok () after ∧
      Marked region after block reserved := by
  have read : block.tag region = .ok (Tag.ofWord (region.word (block.offset - 4))) :=
    tag_of_le (by omega) inside
  refine ⟨_, setReserved_of_le reserved (by omega) inside, ⟨_, read, ?_⟩, ?_,
    Region.size_setWord .., ?_⟩
  · rw [tag_of_le (by omega) (by rw [Region.size_setWord]; exact inside),
      Region.word_setWord _ _ (by omega), Tag.ofWord_markWord]
  · rw [Region.word_setWord _ _ (by omega), Tag.markWord_eq]
  · intro index outside
    exact Region.byte_setWord_of_outside _ _ (by omega)

private theorem decode_encode {link : Option Block} (linkable : ∀ other ∈ link, other.Linkable) :
    Links.decode (Links.encode link) = link := by
  cases link with
  | none => exact Links.decode_encode_none
  | some other =>
      obtain ⟨positive, small⟩ := linkable other rfl
      exact Links.decode_encode_some positive small

theorem setLinks_threaded {old : Tag} (above : 8 ≤ block.offset)
    (inside : block.offset + 8 ≤ region.size) (read : block.tag region = .ok old)
    (free : old.allocated = false) {links : Links}
    (previous : ∀ other ∈ links.previous, other.Linkable)
    (next : ∀ other ∈ links.next, other.Linkable) :
    ∃ after, block.setLinks links region = .ok () after ∧
      Threaded region after block links := by
  have written := setLinks_of_le links inside
  generalize after_eq : (region.setWord block.offset (Links.encode links.previous)).setWord
    (block.offset + 4) (Links.encode links.next) = after at written
  have sameSize : after.size = region.size := by
    rw [← after_eq, Region.size_setWord, Region.size_setWord]
  have untouched : ∀ index, index < block.offset ∨ block.offset + 8 ≤ index →
      after.byte index = region.byte index := by
    intro index outside
    rw [← after_eq, Region.byte_setWord_of_outside _ _ (by omega),
      Region.byte_setWord_of_outside _ _ (by omega)]
  have header : block.tag after = block.tag region := by
    rw [tag_of_le (by omega) (by omega), tag_of_le (by omega) (by omega)]
    exact congrArg _ (Region.headerTag_congr (by omega) fun index _ upper =>
      untouched index (.inl upper))
  have first : after.word block.offset = Links.encode links.previous := by
    rw [← after_eq, Region.word_setWord_of_apart _ _ (by omega),
      Region.word_setWord _ _ (by omega)]
  have second : after.word (block.offset + 4) = Links.encode links.next := by
    rw [← after_eq, Region.word_setWord _ _ (by rw [Region.size_setWord]; omega)]
  refine ⟨after, written, ?_, header, ?_, sameSize, untouched⟩
  · rw [links_of_tag (header.trans read) free (by omega), first, second,
      decode_encode previous, decode_encode next]
  · intro same sameRead wide
    -- The footer may lie outside the region; then both reads come to the same fault.
    simp only [footerTag, bind, ReaderT.bind, Except.bind,
      footer_of_tag sameRead (by omega), footer_of_tag (header.trans sameRead) (by omega),
      Region.readWord, sameSize]
    have word : after.word (block.offset + same.size - 8) =
        region.word (block.offset + same.size - 8) :=
      Region.word_congr fun index lower _ => untouched index (by omega)
    rw [word]
    rfl

/-- Tags and words determine each other but for bit two, and what is written of a block (its
boundaries, its flag "reserved", its links) reads back and changes nothing else. -/
theorem codec_navigates :
    (∀ tag : Tag, tag.Encodable → ∃ word, tag.encode = .ok word ∧ Tag.ofWord word = tag) ∧
    (∀ word : UInt32, (Tag.ofWord word).encode = .ok (word &&& ~~~4)) ∧
    (∀ region block size allocated, Fits region block size →
      ∃ after, block.stamp size allocated region = .ok () after ∧
        Stamped region after block size allocated) ∧
    (∀ region block reserved, 8 ≤ block.offset → block.offset ≤ region.size →
      ∃ after, block.setReserved reserved region = .ok () after ∧
        Marked region after block reserved) ∧
    ∀ region block old links, 8 ≤ block.offset → block.offset + 8 ≤ region.size →
      block.tag region = .ok old → old.allocated = false →
        (∀ other ∈ links.previous, other.Linkable) → (∀ other ∈ links.next, other.Linkable) →
          ∃ after, block.setLinks links region = .ok () after ∧
            Threaded region after block links := by
  refine ⟨?_, Tag.encode_ofWord, ?_, ?_, ?_⟩
  · intro tag encodable
    exact ⟨_, Tag.encode_of_encodable encodable, Tag.ofWord_toWord encodable⟩
  · intro region block size allocated fits
    exact stamp_stamped fits allocated
  · intro region block reserved above inside
    exact setReserved_marked above inside reserved
  · intro region block old links above inside read free previous next
    exact setLinks_threaded above inside read free previous next

/-- The second block of a region that was never written takes its place and its links. -/
theorem codec_navigates_sixteen : ∃ region : Region,
    (∃ after, (⟨16⟩ : Block).stamp 16 true region = .ok () after ∧
      Stamped region after ⟨16⟩ 16 true) ∧
    (∃ after, (⟨16⟩ : Block).setReserved true region = .ok () after ∧
      Marked region after ⟨16⟩ true) ∧
    ∃ after, (⟨16⟩ : Block).setLinks ⟨some ⟨8⟩, none⟩ region = .ok () after ∧
      Threaded region after ⟨16⟩ ⟨some ⟨8⟩, none⟩ := by
  let region := (Region.ofLimit 64).enlarge 32 rfl (by decide)
  obtain ⟨-, -, stamps, marks, threads⟩ := codec_navigates
  have fits : Fits region ⟨16⟩ 16 := by
    constructor <;> decide
  have unwritten : Tag.ofWord (region.word 12) = ⟨0, false, false⟩ := by
    decide +kernel
  have read : (⟨16⟩ : Block).tag region = .ok ⟨0, false, false⟩ :=
    (tag_of_le (by decide) (by decide)).trans (congrArg _ unwritten)
  refine ⟨region, stamps _ _ _ _ fits, marks _ _ _ (by decide) (by decide),
    threads _ _ _ _ (by decide) (by decide) read rfl ?_ nofun⟩
  rintro other ⟨⟩
  exact ⟨by decide, by decide⟩

end Block

end TaggedHeap
