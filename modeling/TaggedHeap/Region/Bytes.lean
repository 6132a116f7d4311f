/-!
Contract: byte arrays seen as functions from offsets, zero outside the array.

The main statements say what replacing a byte and appending zeros do to that view.
-/

namespace TaggedHeap.Bytes

/-- Byte of an array at `index`, zero outside the array. -/
def read (bytes : ByteArray) (index : Nat) : UInt8 :=
  if inside : index < bytes.size then bytes[index] else 0

def zeros (bytes : ByteArray) : Nat → ByteArray
  | 0 => bytes
  | count + 1 => zeros (bytes.push 0) count

/-- Collects `count` bytes from `start` on behind those that were gathered before. -/
@[specialize]
def gather (view : Nat → UInt8) (start : Nat) : Nat → ByteArray → ByteArray
  | 0, gathered => gathered
  | count + 1, gathered => gather view (start + 1) count (gathered.push (view start))

private theorem read_eq_getD (bytes : ByteArray) (index : Nat) :
    read bytes index = bytes.data[index]?.getD 0 := by
  unfold read
  split
  · rename_i inside
    rw [ByteArray.getElem_eq_getElem_data, Array.getElem?_eq_getElem inside]
    rfl
  · rename_i outside
    rw [Array.getElem?_eq_none (Nat.not_lt.1 outside)]
    rfl

theorem read_of_size_le {bytes : ByteArray} {index : Nat} (outside : bytes.size ≤ index) :
    read bytes index = 0 :=
  dif_neg (Nat.not_lt.2 outside)

theorem size_set (bytes : ByteArray) (index : Nat) (value : UInt8)
    (inside : index < bytes.size) : (bytes.set index value inside).size = bytes.size :=
  Array.size_set inside

theorem read_set (bytes : ByteArray) (index other : Nat) (value : UInt8)
    (inside : index < bytes.size) :
    read (bytes.set index value inside) other =
      if index = other then value else read bytes other := by
  rw [read_eq_getD, read_eq_getD, ByteArray.data_set, Array.getElem?_set]
  split <;> rfl

theorem read_push (bytes : ByteArray) (value : UInt8) (index : Nat) :
    read (bytes.push value) index =
      if index = bytes.size then value else read bytes index := by
  rw [read_eq_getD, read_eq_getD, ByteArray.data_push, Array.getElem?_push]
  by_cases atEnd : index = bytes.data.size
  · rw [if_pos atEnd, if_pos (show index = bytes.size from atEnd)]
    rfl
  · rw [if_neg atEnd, if_neg (show ¬index = bytes.size from atEnd)]

theorem size_zeros (bytes : ByteArray) (count : Nat) :
    (zeros bytes count).size = bytes.size + count := by
  induction count generalizing bytes with
  | zero => rfl
  | succ count inductionHypothesis =>
      rw [zeros, inductionHypothesis, ByteArray.size_push]
      omega

theorem read_zeros (bytes : ByteArray) (count index : Nat) :
    read (zeros bytes count) index = read bytes index := by
  induction count generalizing bytes with
  | zero => rfl
  | succ count inductionHypothesis =>
      rw [zeros, inductionHypothesis, read_push]
      split
      · rename_i atEnd
        rw [read_of_size_le (Nat.le_of_eq atEnd.symm)]
      · rfl

theorem size_gather (view : Nat → UInt8) (start count : Nat) (gathered : ByteArray) :
    (gather view start count gathered).size = gathered.size + count := by
  induction count generalizing start gathered with
  | zero => rfl
  | succ count inductionHypothesis =>
      rw [gather, inductionHypothesis, ByteArray.size_push]
      omega

theorem read_gather (view : Nat → UInt8) (start count : Nat) (gathered : ByteArray)
    (index : Nat) :
    read (gather view start count gathered) index =
      if gathered.size ≤ index ∧ index < gathered.size + count then
        view (start + (index - gathered.size))
      else
        read gathered index := by
  induction count generalizing start gathered with
  | zero =>
      rw [gather, if_neg (by omega)]
  | succ count inductionHypothesis =>
      rw [gather, inductionHypothesis, ByteArray.size_push, read_push]
      by_cases atEnd : index = gathered.size
      · subst index
        rw [if_neg (by omega), if_pos rfl, if_pos (by omega), Nat.sub_self]
        rfl
      · rw [if_neg atEnd]
        by_cases later : gathered.size ≤ index ∧ index < gathered.size + (count + 1)
        · have shift : start + 1 + (index - (gathered.size + 1)) =
              start + (index - gathered.size) := by
            omega
          rw [if_pos (by omega), if_pos later, shift]
        · rw [if_neg (by omega), if_neg later]

theorem gather_congr {left right : Nat → UInt8} {start count : Nat}
    (same : ∀ index < count, left (start + index) = right (start + index))
    (gathered : ByteArray) :
    gather left start count gathered = gather right start count gathered := by
  induction count generalizing start gathered with
  | zero => rfl
  | succ count inductionHypothesis =>
      have first : left start = right start := same 0 (Nat.succ_pos count)
      rw [gather, gather, first]
      apply inductionHypothesis
      intro index below
      rw [Nat.add_assoc, Nat.add_comm 1 index]
      exact same (index + 1) (Nat.succ_lt_succ below)

end TaggedHeap.Bytes
