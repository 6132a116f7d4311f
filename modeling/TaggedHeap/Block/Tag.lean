import TaggedHeap.Fault
import TaggedHeap.Rounding

/-!
Contract: boundary tags, the contents of header and footer words.

A tag holds a size in the upper 29 bits of its word, the flag "reserved" in bit one and the
flag "allocated" in bit zero; bit two means nothing. The main statements are the two round
trips between tags and words.
-/

namespace TaggedHeap

/-- Contents of a header or footer word. A reserved block is kept free for the growth of the
block in front of it. -/
structure Tag where
  size : Nat
  allocated : Bool
  reserved : Bool := false
deriving DecidableEq, Repr

namespace Tag

def Encodable (tag : Tag) : Prop :=
  tag.size % 8 = 0 ∧ tag.size ≤ maxBlock

instance (tag : Tag) : Decidable tag.Encodable :=
  inferInstanceAs (Decidable (_ ∧ _))

def ofWord (word : UInt32) : Tag where
  size := word.toNat / 8 * 8
  allocated := decide (word.toNat % 2 = 1)
  reserved := decide (word.toNat / 2 % 2 = 1)

def toWord (tag : Tag) : UInt32 :=
  UInt32.ofNat (tag.size + 2 * tag.reserved.toNat + tag.allocated.toNat)

/-- Word of a tag. A size that the word cannot hold is a fault. -/
def encode (tag : Tag) : Except Fault UInt32 :=
  if tag.Encodable then .ok tag.toWord else .error .unencodable

/-- Replaces the flag "reserved" of a word and keeps its other bits. -/
def markWord (word : UInt32) (reserved : Bool) : UInt32 :=
  UInt32.ofNat (word.toNat / 4 * 4 + 2 * reserved.toNat + word.toNat % 2)

theorem encode_of_encodable {tag : Tag} (encodable : tag.Encodable) :
    tag.encode = .ok tag.toWord :=
  if_pos encodable

private theorem toNat_toWord {tag : Tag} (encodable : tag.Encodable) :
    tag.toWord.toNat = tag.size + 2 * tag.reserved.toNat + tag.allocated.toNat := by
  have sizeLe : tag.size ≤ 4294967288 := encodable.2
  have reservedLe : tag.reserved.toNat ≤ 1 := Bool.toNat_le _
  have allocatedLe : tag.allocated.toNat ≤ 1 := Bool.toNat_le _
  rw [toWord, UInt32.toNat_ofNat']
  exact Nat.mod_eq_of_lt (by omega)

theorem ofWord_toWord {tag : Tag} (encodable : tag.Encodable) :
    ofWord tag.toWord = tag := by
  have word := toNat_toWord encodable
  have aligned : tag.size % 8 = 0 := encodable.1
  obtain ⟨size, allocated, reserved⟩ := tag
  simp only at word aligned
  simp only [ofWord, word, Tag.mk.injEq]
  cases allocated <;> cases reserved <;>
    simp only [Bool.toNat_false, Bool.toNat_true, decide_eq_true_eq, decide_eq_false_iff_not] <;>
    omega

theorem encodable_ofWord (word : UInt32) : (ofWord word).Encodable := by
  have bound := word.toNat_lt
  simp only [Encodable, ofWord, maxBlock]
  omega

/-- Decoding forgets nothing of a word but bit two. -/
theorem toNat_toWord_ofWord (word : UInt32) :
    (ofWord word).toWord.toNat = word.toNat / 8 * 8 + word.toNat % 4 := by
  rw [toNat_toWord (encodable_ofWord word)]
  simp only [ofWord]
  rcases Nat.mod_two_eq_zero_or_one word.toNat with even | odd <;>
    rcases Nat.mod_two_eq_zero_or_one (word.toNat / 2) with clear | set <;>
    simp_all <;>
    omega

theorem toNat_markWord (word : UInt32) (reserved : Bool) :
    (markWord word reserved).toNat =
      word.toNat / 4 * 4 + 2 * reserved.toNat + word.toNat % 2 := by
  have bound := word.toNat_lt
  have reservedLe : reserved.toNat ≤ 1 := Bool.toNat_le _
  rw [markWord, UInt32.toNat_ofNat']
  exact Nat.mod_eq_of_lt (by omega)

theorem ofWord_markWord (word : UInt32) (reserved : Bool) :
    ofWord (markWord word reserved) = { ofWord word with reserved := reserved } := by
  have bound := word.toNat_lt
  simp only [ofWord, toNat_markWord, Tag.mk.injEq]
  cases reserved <;>
    simp only [Bool.toNat_false, Bool.toNat_true, decide_eq_true_eq, decide_eq_false_iff_not,
      decide_eq_decide] <;>
    omega

theorem markWord_of_reserved {word : UInt32} (reserved : (ofWord word).reserved = true) :
    markWord word true = word := by
  have isSet : word.toNat / 2 % 2 = 1 := of_decide_eq_true reserved
  have bound := word.toNat_lt
  apply UInt32.toNat_inj.1
  rw [markWord, UInt32.toNat_ofNat', Bool.toNat_true, Nat.mod_eq_of_lt (by omega)]
  omega

end Tag

end TaggedHeap
