import TaggedHeap.Region.Basic

/-!
Contract: the 32-bit words of a region, least significant byte first.

The main statements are the two laws of a store: a word reads back where it was written, and
every byte outside it is unchanged.
-/

namespace TaggedHeap.Region

/-- Word whose first byte is at `offset`. -/
def word (region : Region) (offset : Nat) : UInt32 :=
  UInt32.ofNat ((region.byte offset).toNat + 256 * (region.byte (offset + 1)).toNat +
    65536 * (region.byte (offset + 2)).toNat + 16777216 * (region.byte (offset + 3)).toNat)

def setWord (region : Region) (offset : Nat) (value : UInt32) : Region :=
  (((region.setByte offset (UInt8.ofNat value.toNat)).setByte
    (offset + 1) (UInt8.ofNat (value.toNat / 256))).setByte
    (offset + 2) (UInt8.ofNat (value.toNat / 65536))).setByte
    (offset + 3) (UInt8.ofNat (value.toNat / 16777216))

@[simp] theorem size_setWord (region : Region) (offset : Nat) (value : UInt32) :
    (region.setWord offset value).size = region.size := by
  simp only [setWord, size_setByte]

@[simp] theorem limit_setWord (region : Region) (offset : Nat) (value : UInt32) :
    (region.setWord offset value).limit = region.limit := by
  simp only [setWord, limit_setByte]

theorem byte_setWord_of_outside (region : Region) {offset other : Nat} (value : UInt32)
    (outside : other < offset ∨ offset + 4 ≤ other) :
    (region.setWord offset value).byte other = region.byte other := by
  simp only [setWord, byte_setByte]
  rw [if_neg (by omega), if_neg (by omega), if_neg (by omega), if_neg (by omega)]

theorem word_congr {left right : Region} {offset : Nat}
    (same : ∀ index, offset ≤ index → index < offset + 4 →
      left.byte index = right.byte index) :
    left.word offset = right.word offset := by
  simp only [word]
  rw [same offset (by omega) (by omega), same (offset + 1) (by omega) (by omega),
    same (offset + 2) (by omega) (by omega), same (offset + 3) (by omega) (by omega)]

theorem word_setWord_of_apart (region : Region) {offset other : Nat} (value : UInt32)
    (apart : other + 4 ≤ offset ∨ offset + 4 ≤ other) :
    (region.setWord offset value).word other = region.word other :=
  word_congr fun index lower upper =>
    region.byte_setWord_of_outside value (by omega)

theorem word_setWord (region : Region) {offset : Nat} (value : UInt32)
    (inside : offset + 4 ≤ region.size) :
    (region.setWord offset value).word offset = value := by
  have bound : value.toNat < 4294967296 := value.toNat_lt
  have inside0 : offset < region.size := by omega
  have inside1 : offset + 1 < region.size := by omega
  have inside2 : offset + 2 < region.size := by omega
  have inside3 : offset + 3 < region.size := by omega
  apply UInt32.toNat_inj.1
  simp [word, setWord, byte_setByte, inside0, inside1, inside2, inside3]
  omega

theorem toNat_word (region : Region) (offset : Nat) :
    (region.word offset).toNat =
      (region.byte offset).toNat + 256 * (region.byte (offset + 1)).toNat +
        65536 * (region.byte (offset + 2)).toNat + 16777216 * (region.byte (offset + 3)).toNat := by
  have first := (region.byte offset).toNat_lt
  have second := (region.byte (offset + 1)).toNat_lt
  have third := (region.byte (offset + 2)).toNat_lt
  have fourth := (region.byte (offset + 3)).toNat_lt
  rw [word, UInt32.toNat_ofNat']
  exact Nat.mod_eq_of_lt (by omega)

/-- A word that is written where it was read changes no byte. -/
theorem byte_setWord_word (region : Region) (offset index : Nat) :
    (region.setWord offset (region.word offset)).byte index = region.byte index := by
  have first := (region.byte offset).toNat_lt
  have second := (region.byte (offset + 1)).toNat_lt
  have third := (region.byte (offset + 2)).toNat_lt
  have fourth := (region.byte (offset + 3)).toNat_lt
  have value := region.toNat_word offset
  have firstByte : UInt8.ofNat (region.word offset).toNat = region.byte offset := by
    apply UInt8.toNat_inj.1
    rw [UInt8.toNat_ofNat', value]
    omega
  have secondByte : UInt8.ofNat ((region.word offset).toNat / 256) =
      region.byte (offset + 1) := by
    apply UInt8.toNat_inj.1
    rw [UInt8.toNat_ofNat', value]
    omega
  have thirdByte : UInt8.ofNat ((region.word offset).toNat / 65536) =
      region.byte (offset + 2) := by
    apply UInt8.toNat_inj.1
    rw [UInt8.toNat_ofNat', value]
    omega
  have fourthByte : UInt8.ofNat ((region.word offset).toNat / 16777216) =
      region.byte (offset + 3) := by
    apply UInt8.toNat_inj.1
    rw [UInt8.toNat_ofNat', value]
    omega
  have keeps : ∀ (earlier : Region) (place : Nat) (value : UInt8),
      value = region.byte place → earlier.byte index = region.byte index →
        (earlier.setByte place value).byte index = region.byte index := by
    intro earlier place value same kept
    rw [byte_setByte]
    split
    · rename_i written
      rw [same, written.1]
    · exact kept
  exact keeps _ _ _ fourthByte (keeps _ _ _ thirdByte
    (keeps _ _ _ secondByte (keeps _ _ _ firstByte rfl)))

end TaggedHeap.Region
