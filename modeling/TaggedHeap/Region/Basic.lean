import TaggedHeap.Region.Buffer
import TaggedHeap.Region.Reservation

/-!
Contract: regions, the contiguous byte ranges that heaps live in.

A region starts at offset zero and only ever grows at its end. A heap addresses it by offset
alone, so two regions that agree on their size, their limit and `Region.byte` are the same
to it, whichever provider keeps the bytes. The main statements say what each change does to
those three.
-/

namespace TaggedHeap

inductive Region where
  | dense (buffer : Buffer)
  | sparse (reservation : Reservation)

namespace Region

/-- Limit of a buffer that was asked for without one: 20 MiB. -/
def defaultLimit : Nat := 20971520

def ofLimit (limit : Nat) : Region :=
  .dense (Buffer.empty limit)

def reserve (capacity : Nat) : Except Refusal Region :=
  match Reservation.claim capacity with
  | .ok reservation => .ok (.sparse reservation)
  | .error defect => .error (.unmapped defect)

/-- Number of bytes in use, the offset one past the last of them. -/
def size : Region → Nat
  | .dense buffer => buffer.size
  | .sparse reservation => reservation.size

/-- Number of bytes that may ever be in use. -/
def limit : Region → Nat
  | .dense buffer => buffer.limit
  | .sparse reservation => reservation.capacity

/-- Byte at an offset, zero outside the region. -/
def byte : Region → Nat → UInt8
  | .dense buffer, offset => buffer.byte offset
  | .sparse reservation, offset => reservation.byte offset

/-- Replaces the byte at an offset, if the region holds it. -/
def setByte : Region → Nat → UInt8 → Region
  | .dense buffer, offset, value => .dense (buffer.setByte offset value)
  | .sparse reservation, offset, value => .sparse (reservation.setByte offset value)

def enlarge (count : Nat) (aligned : count % 8 = 0) :
    (region : Region) → region.size + count ≤ region.limit → Region
  | .dense buffer, fits => .dense (buffer.enlarge count fits aligned)
  | .sparse reservation, fits => .sparse (reservation.enlarge count fits aligned)

/-- How many of the `count` bytes from `start` on the region holds. -/
def clip (region : Region) (start count : Nat) : Nat :=
  min (start + count) region.size - start

/-- The bytes from `start` on, at most `count`, as far as the region holds them. -/
def extract (region : Region) (start count : Nat) : ByteArray :=
  Bytes.gather region.byte start (region.clip start count) ByteArray.empty

def toBytes (region : Region) : ByteArray :=
  region.extract 0 region.size

private def storeFirst (values : ByteArray) (start : Nat) : Nat → Region → Region
  | 0, region => region
  | count + 1, region =>
      storeFirst values start count (region.setByte (start + count) (Bytes.read values count))

/-- Writes bytes from `start` on, as far as the region holds their places. -/
def store (region : Region) (start : Nat) (values : ByteArray) : Region :=
  storeFirst values start values.size region

theorem size_mod (region : Region) : region.size % 8 = 0 := by
  cases region with
  | dense buffer => exact buffer.size_mod
  | sparse reservation => exact reservation.size_mod

theorem size_le_limit (region : Region) : region.size ≤ region.limit := by
  cases region with
  | dense buffer => exact buffer.size_le
  | sparse reservation => exact reservation.size_le

theorem byte_of_size_le (region : Region) {offset : Nat} (outside : region.size ≤ offset) :
    region.byte offset = 0 := by
  cases region with
  | dense buffer => exact Bytes.read_of_size_le outside
  | sparse reservation => exact reservation.untouched offset outside

@[simp] theorem size_setByte (region : Region) (offset : Nat) (value : UInt8) :
    (region.setByte offset value).size = region.size := by
  cases region with
  | dense buffer => exact buffer.size_setByte offset value
  | sparse reservation => exact reservation.size_setByte offset value

@[simp] theorem limit_setByte (region : Region) (offset : Nat) (value : UInt8) :
    (region.setByte offset value).limit = region.limit := by
  cases region with
  | dense buffer => exact buffer.limit_setByte offset value
  | sparse reservation => exact reservation.capacity_setByte offset value

theorem byte_setByte (region : Region) (offset other : Nat) (value : UInt8) :
    (region.setByte offset value).byte other =
      if offset = other ∧ offset < region.size then value else region.byte other := by
  cases region with
  | dense buffer => exact buffer.byte_setByte offset other value
  | sparse reservation => exact reservation.byte_setByte offset other value

@[simp] theorem size_enlarge (region : Region) (count : Nat) (aligned : count % 8 = 0)
    (fits : region.size + count ≤ region.limit) :
    (region.enlarge count aligned fits).size = region.size + count := by
  cases region with
  | dense buffer => exact buffer.size_enlarge count fits aligned
  | sparse reservation => rfl

@[simp] theorem limit_enlarge (region : Region) (count : Nat) (aligned : count % 8 = 0)
    (fits : region.size + count ≤ region.limit) :
    (region.enlarge count aligned fits).limit = region.limit := by
  cases region <;> rfl

@[simp] theorem byte_enlarge (region : Region) (count offset : Nat) (aligned : count % 8 = 0)
    (fits : region.size + count ≤ region.limit) :
    (region.enlarge count aligned fits).byte offset = region.byte offset := by
  cases region with
  | dense buffer => exact buffer.byte_enlarge count offset fits aligned
  | sparse reservation => rfl

theorem size_extract (region : Region) (start count : Nat) :
    (region.extract start count).size = region.clip start count := by
  rw [extract, Bytes.size_gather]
  exact Nat.zero_add _

theorem read_extract (region : Region) (start count index : Nat) :
    Bytes.read (region.extract start count) index =
      if index < region.clip start count then region.byte (start + index) else 0 := by
  rw [extract, Bytes.read_gather]
  by_cases inside : index < region.clip start count
  · rw [if_pos ⟨Nat.zero_le _, by rw [ByteArray.size_empty]; omega⟩, if_pos inside]
    rfl
  · rw [if_neg (by rw [ByteArray.size_empty]; omega), if_neg inside]
    exact Bytes.read_of_size_le (Nat.zero_le _)

private theorem size_storeFirst (values : ByteArray) (start count : Nat) (region : Region) :
    (storeFirst values start count region).size = region.size := by
  induction count generalizing region with
  | zero => rfl
  | succ count inductionHypothesis =>
      rw [storeFirst, inductionHypothesis, size_setByte]

private theorem limit_storeFirst (values : ByteArray) (start count : Nat) (region : Region) :
    (storeFirst values start count region).limit = region.limit := by
  induction count generalizing region with
  | zero => rfl
  | succ count inductionHypothesis =>
      rw [storeFirst, inductionHypothesis, limit_setByte]

private theorem byte_storeFirst (values : ByteArray) (start count : Nat) (region : Region)
    (offset : Nat) :
    (storeFirst values start count region).byte offset =
      if start ≤ offset ∧ offset < start + count ∧ offset < region.size then
        Bytes.read values (offset - start)
      else
        region.byte offset := by
  induction count generalizing region with
  | zero => rw [storeFirst, if_neg (by omega)]
  | succ count inductionHypothesis =>
      rw [storeFirst, inductionHypothesis, size_setByte, byte_setByte]
      by_cases last : start + count = offset
      · subst offset
        rw [if_neg (by omega)]
        by_cases inside : start + count < region.size
        · rw [if_pos ⟨rfl, inside⟩, if_pos (by omega), Nat.add_sub_cancel_left]
        · rw [if_neg (by omega), if_neg (by omega)]
      · by_cases earlier : start ≤ offset ∧ offset < start + count ∧ offset < region.size
        · rw [if_pos earlier, if_pos (by omega)]
        · rw [if_neg earlier, if_neg (by omega), if_neg (by omega)]

@[simp] theorem size_store (region : Region) (start : Nat) (values : ByteArray) :
    (region.store start values).size = region.size :=
  size_storeFirst ..

@[simp] theorem limit_store (region : Region) (start : Nat) (values : ByteArray) :
    (region.store start values).limit = region.limit :=
  limit_storeFirst ..

theorem byte_store (region : Region) (start : Nat) (values : ByteArray) (offset : Nat) :
    (region.store start values).byte offset =
      if start ≤ offset ∧ offset < start + values.size ∧ offset < region.size then
        Bytes.read values (offset - start)
      else
        region.byte offset :=
  byte_storeFirst ..

end Region

end TaggedHeap
