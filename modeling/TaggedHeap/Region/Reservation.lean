import Std.Data.HashMap
import TaggedHeap.Failure
import TaggedHeap.Region.Bytes
import TaggedHeap.Rounding

/-!
Contract: reserved address space, the sparse provider of bytes.

A reservation claims its whole capacity at once, but stores only the pages that something
was written to; every other byte reads as zero. It grows by moving its end, in multiples of
eight, up to its capacity. The module owns the invariant that nothing is stored at or above
the end, so that growth reveals zero bytes.
-/

namespace TaggedHeap

structure Page where
  bytes : ByteArray
  size_eq : bytes.size = 4096

namespace Page

def zero : Page where
  bytes := ⟨Array.replicate 4096 0⟩
  size_eq := Array.size_replicate

/-- Byte of a page at `index`, taken modulo the size of the page. -/
def byte (page : Page) (index : Nat) : UInt8 :=
  Bytes.read page.bytes (index % 4096)

def setByte (page : Page) (index : Nat) (value : UInt8) : Page :=
  have inside : index % 4096 < page.bytes.size := by
    have sizeEq := page.size_eq
    omega
  { bytes := page.bytes.set (index % 4096) value inside
    size_eq := by
      rw [Bytes.size_set]
      exact page.size_eq }

theorem byte_zero (index : Nat) : zero.byte index = 0 := by
  unfold byte Bytes.read zero
  split
  · rw [ByteArray.getElem_eq_getElem_data]
    exact Array.getElem_replicate _
  · rfl

theorem byte_setByte (page : Page) (index other : Nat) (value : UInt8) :
    (page.setByte index value).byte other =
      if index % 4096 = other % 4096 then value else page.byte other :=
  Bytes.read_set ..

end Page

/-- The pages that something was written to, by number. -/
abbrev PageTable := Std.HashMap Nat Page

namespace PageTable

/-- Byte at `index`, zero where no page is stored. -/
def byte (pages : PageTable) (index : Nat) : UInt8 :=
  match pages[index / 4096]? with
  | some page => page.byte index
  | none => 0

/-- Replaces the byte at `index`, storing its page if need be. -/
def setByte (pages : PageTable) (index : Nat) (value : UInt8) : PageTable :=
  pages.alter (index / 4096) fun page =>
    some ((page.getD Page.zero).setByte index value)

theorem byte_empty (index : Nat) : byte ∅ index = 0 := by
  simp [byte]

theorem byte_setByte (pages : PageTable) (index other : Nat) (value : UInt8) :
    byte (setByte pages index value) other =
      if index = other then value else byte pages other := by
  unfold byte setByte
  rw [Std.HashMap.getElem?_alter]
  by_cases samePage : index / 4096 = other / 4096
  · have sameIndex : index % 4096 = other % 4096 ↔ index = other := by omega
    simp only [samePage, beq_self_eq_true, ↓reduceIte, Page.byte_setByte, sameIndex]
    cases pages[other / 4096]? with
    | none => simp only [Option.getD_none, Page.byte_zero]
    | some page => simp only [Option.getD_some]
  · have different : index ≠ other := by
      intro same
      exact samePage (by rw [same])
    simp only [beq_iff_eq, samePage, different, ↓reduceIte]

end PageTable

/-- Address space of `capacity` bytes, of which the first `size` are in use. -/
structure Reservation where
  pages : PageTable
  size : Nat
  capacity : Nat
  size_le : size ≤ capacity
  size_mod : size % 8 = 0
  capacity_mod : capacity % 8 = 0
  capacity_lt : capacity < addressSpace
  untouched : ∀ index, size ≤ index → pages.byte index = 0

namespace Reservation

/-- Claims `capacity` bytes, rounded down. -/
def claim (capacity : Nat) : Except MappingDefect Reservation :=
  if roundDown capacity = 0 then
    .error .emptyCapacity
  else if fits : roundDown capacity < addressSpace then
    .ok {
      pages := ∅
      size := 0
      capacity := roundDown capacity
      size_le := Nat.zero_le _
      size_mod := rfl
      capacity_mod := roundDown_mod capacity
      capacity_lt := fits
      untouched := fun index _ => PageTable.byte_empty index }
  else
    .error .noAddressSpace

def byte (reservation : Reservation) (index : Nat) : UInt8 :=
  reservation.pages.byte index

/-- Replaces the byte at `index`, if it is in use. -/
def setByte (reservation : Reservation) (index : Nat) (value : UInt8) : Reservation :=
  if inside : index < reservation.size then
    { pages := reservation.pages.setByte index value
      size := reservation.size
      capacity := reservation.capacity
      size_le := reservation.size_le
      size_mod := reservation.size_mod
      capacity_mod := reservation.capacity_mod
      capacity_lt := reservation.capacity_lt
      untouched := by
        intro other above
        have different : index ≠ other := by omega
        rw [PageTable.byte_setByte, if_neg different]
        exact reservation.untouched other above }
  else
    reservation

def enlarge (reservation : Reservation) (count : Nat)
    (fits : reservation.size + count ≤ reservation.capacity) (aligned : count % 8 = 0) :
    Reservation where
  pages := reservation.pages
  size := reservation.size + count
  capacity := reservation.capacity
  size_le := fits
  size_mod := by
    have sizeMod := reservation.size_mod
    omega
  capacity_mod := reservation.capacity_mod
  capacity_lt := reservation.capacity_lt
  untouched := fun index above => reservation.untouched index (by omega)

theorem size_setByte (reservation : Reservation) (index : Nat) (value : UInt8) :
    (reservation.setByte index value).size = reservation.size := by
  unfold setByte
  split <;> rfl

theorem capacity_setByte (reservation : Reservation) (index : Nat) (value : UInt8) :
    (reservation.setByte index value).capacity = reservation.capacity := by
  unfold setByte
  split <;> rfl

theorem byte_setByte (reservation : Reservation) (index other : Nat) (value : UInt8) :
    (reservation.setByte index value).byte other =
      if index = other ∧ index < reservation.size then value
      else reservation.byte other := by
  unfold setByte
  split
  · rename_i inside
    simp only [inside, and_true]
    exact PageTable.byte_setByte ..
  · rename_i outside
    simp only [outside, and_false, ↓reduceIte]

end Reservation

end TaggedHeap
