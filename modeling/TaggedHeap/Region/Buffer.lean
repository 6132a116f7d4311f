import TaggedHeap.Region.Bytes
import TaggedHeap.Rounding

/-!
Contract: a bounded buffer, the dense provider of bytes.

A buffer stores each of its bytes. It grows at its end by zero bytes, in multiples of eight,
up to a limit. The module owns the invariants of the type and the view `Buffer.byte`: its
main statements say what `setByte` and `enlarge` do to that view.
-/

namespace TaggedHeap

structure Buffer where
  bytes : ByteArray
  limit : Nat
  size_le : bytes.size ≤ limit
  size_mod : bytes.size % 8 = 0
  limit_mod : limit % 8 = 0

namespace Buffer

def size (buffer : Buffer) : Nat :=
  buffer.bytes.size

def byte (buffer : Buffer) (index : Nat) : UInt8 :=
  Bytes.read buffer.bytes index

/-- An empty buffer that may grow up to `limit`, rounded down. -/
def empty (limit : Nat) : Buffer where
  bytes := ByteArray.empty
  limit := roundDown limit
  size_le := by simp
  size_mod := by simp
  limit_mod := roundDown_mod limit

/-- Replaces the byte at `index`, if the buffer holds it. -/
def setByte (buffer : Buffer) (index : Nat) (value : UInt8) : Buffer :=
  if inside : index < buffer.bytes.size then
    { bytes := buffer.bytes.set index value inside
      limit := buffer.limit
      size_le := by
        rw [Bytes.size_set]
        exact buffer.size_le
      size_mod := by
        rw [Bytes.size_set]
        exact buffer.size_mod
      limit_mod := buffer.limit_mod }
  else
    buffer

/-- Appends `count` zero bytes. -/
def enlarge (buffer : Buffer) (count : Nat) (fits : buffer.size + count ≤ buffer.limit)
    (aligned : count % 8 = 0) : Buffer where
  bytes := Bytes.zeros buffer.bytes count
  limit := buffer.limit
  size_le := by
    rw [Bytes.size_zeros]
    exact fits
  size_mod := by
    have sizeMod := buffer.size_mod
    rw [Bytes.size_zeros]
    omega
  limit_mod := buffer.limit_mod

theorem size_setByte (buffer : Buffer) (index : Nat) (value : UInt8) :
    (buffer.setByte index value).size = buffer.size := by
  unfold setByte
  split
  · exact Bytes.size_set ..
  · rfl

theorem limit_setByte (buffer : Buffer) (index : Nat) (value : UInt8) :
    (buffer.setByte index value).limit = buffer.limit := by
  unfold setByte
  split <;> rfl

theorem byte_setByte (buffer : Buffer) (index other : Nat) (value : UInt8) :
    (buffer.setByte index value).byte other =
      if index = other ∧ index < buffer.size then value else buffer.byte other := by
  unfold setByte
  split
  · rename_i inside
    have inBounds : index < buffer.size := inside
    simp only [inBounds, and_true]
    exact Bytes.read_set ..
  · rename_i outside
    have notInside : ¬index < buffer.size := outside
    simp only [notInside, and_false, ↓reduceIte]

theorem size_enlarge (buffer : Buffer) (count : Nat)
    (fits : buffer.size + count ≤ buffer.limit) (aligned : count % 8 = 0) :
    (buffer.enlarge count fits aligned).size = buffer.size + count :=
  Bytes.size_zeros ..

theorem byte_enlarge (buffer : Buffer) (count index : Nat)
    (fits : buffer.size + count ≤ buffer.limit) (aligned : count % 8 = 0) :
    (buffer.enlarge count fits aligned).byte index = buffer.byte index :=
  Bytes.read_zeros ..

end Buffer

end TaggedHeap
