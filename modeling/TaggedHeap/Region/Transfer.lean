import TaggedHeap.Region.Basic

/-!
Contract: transfers, which copy a range of bytes to another place of the same region.

A transfer takes every byte as it was before, so the two ranges may overlap. A dense region
copies byte for byte. A sparse region copies page for page, and passes over the pages that
are blank before and after, so that an unwritten payload moves at no cost. The main statement
is `Region.byte_transfer`: the ranges, not the provider, decide what a byte becomes.
-/

namespace TaggedHeap

def Page.ofView (view : Nat → UInt8) (number : Nat) : Page where
  bytes := Bytes.gather view (number * 4096) 4096 ByteArray.empty
  size_eq := Bytes.size_gather ..

theorem Page.byte_ofView (view : Nat → UInt8) (index : Nat) :
    (Page.ofView view (index / 4096)).byte index = view index := by
  have inPage : ByteArray.empty.size ≤ index % 4096 ∧
      index % 4096 < ByteArray.empty.size + 4096 := by
    rw [ByteArray.size_empty]
    omega
  have place : index / 4096 * 4096 + (index % 4096 - ByteArray.empty.size) = index := by
    rw [ByteArray.size_empty]
    omega
  rw [Page.byte, Page.ofView, Bytes.read_gather, if_pos inPage, place]

namespace PageTable

/-- What a byte becomes by a transfer. -/
def transferred (pages : PageTable) (source target count index : Nat) : UInt8 :=
  if target ≤ index ∧ index < target + count then
    byte pages (source + (index - target))
  else
    byte pages index

/-- Whether a page is blank and stays so. The bytes that it receives come from two
neighbouring pages at most. -/
def staysBlank (pages : PageTable) (source target number : Nat) : Bool :=
  let first := (source + (number * 4096 - target)) / 4096
  !pages.contains number && !pages.contains first && !pages.contains (first + 1)

/-- Rebuilds `count` pages from `first` on, the last one first. -/
def rebuild (view : Nat → UInt8) (skips : Nat → Bool) (first : Nat) :
    Nat → PageTable → PageTable
  | 0, pages => pages
  | count + 1, pages =>
      let number := first + count
      if skips number then
        rebuild view skips first count pages
      else
        rebuild view skips first count (pages.insert number (Page.ofView view number))

def transfer (pages : PageTable) (source target count : Nat) : PageTable :=
  let first := target / 4096
  rebuild (transferred pages source target count) (staysBlank pages source target) first
    ((target + count + 4095) / 4096 - first) pages

theorem byte_of_not_contains {pages : PageTable} {index : Nat}
    (absent : pages.contains (index / 4096) = false) : byte pages index = 0 := by
  have missing : pages[index / 4096]? = none :=
    Std.HashMap.getElem?_eq_none_of_contains_eq_false absent
  rw [byte, missing]

theorem byte_insert_ofView (pages : PageTable) (view : Nat → UInt8) (number index : Nat) :
    byte (pages.insert number (Page.ofView view number)) index =
      if index / 4096 = number then view index else byte pages index := by
  rw [byte, Std.HashMap.getElem?_insert]
  by_cases same : index / 4096 = number
  · subst number
    rw [if_pos (beq_self_eq_true _), if_pos rfl]
    exact Page.byte_ofView view index
  · have different : (number == index / 4096) = false :=
      beq_eq_false_iff_ne.2 fun equal => same equal.symm
    rw [different, if_neg same]
    rfl

theorem transferred_of_staysBlank {pages : PageTable} {source target index : Nat}
    (count : Nat) (blank : staysBlank pages source target (index / 4096) = true) :
    transferred pages source target count index = byte pages index := by
  simp only [staysBlank, Bool.and_eq_true, Bool.not_eq_true'] at blank
  obtain ⟨⟨ownBlank, firstBlank⟩, secondBlank⟩ := blank
  rw [transferred]
  split
  · rename_i inside
    rw [byte_of_not_contains ownBlank]
    apply byte_of_not_contains
    by_cases onFirst : (source + (index - target)) / 4096 =
        (source + (index / 4096 * 4096 - target)) / 4096
    · rw [onFirst]
      exact firstBlank
    · have onSecond : (source + (index - target)) / 4096 =
          (source + (index / 4096 * 4096 - target)) / 4096 + 1 := by
        omega
      rw [onSecond]
      exact secondBlank
  · rfl

private theorem byte_rebuild (view : Nat → UInt8) (skips : Nat → Bool) (first count : Nat)
    (pages : PageTable)
    (kept : ∀ index, skips (index / 4096) = true → index / 4096 < first + count →
      byte pages index = view index) (index : Nat) :
    byte (rebuild view skips first count pages) index =
      if first ≤ index / 4096 ∧ index / 4096 < first + count then view index
      else byte pages index := by
  induction count generalizing pages with
  | zero => rw [rebuild, if_neg (by omega)]
  | succ count inductionHypothesis =>
      rw [rebuild]
      split
      · rename_i skipped
        rw [inductionHypothesis pages fun other skip below => kept other skip (by omega)]
        by_cases last : index / 4096 = first + count
        · rw [if_neg (by omega), if_pos (by omega)]
          exact kept index (by rw [last]; exact skipped) (by omega)
        · by_cases inside : first ≤ index / 4096 ∧ index / 4096 < first + count
          · rw [if_pos inside, if_pos (by omega)]
          · rw [if_neg inside, if_neg (by omega)]
      · rw [inductionHypothesis]
        · rw [byte_insert_ofView]
          by_cases last : index / 4096 = first + count
          · rw [if_neg (by omega), if_pos last, if_pos (by omega)]
          · by_cases inside : first ≤ index / 4096 ∧ index / 4096 < first + count
            · rw [if_pos inside, if_pos (by omega)]
            · rw [if_neg inside, if_neg last, if_neg (by omega)]
        · intro other skip below
          rw [byte_insert_ofView, if_neg (by omega)]
          exact kept other skip (by omega)

theorem byte_transfer (pages : PageTable) (source target count index : Nat) :
    byte (transfer pages source target count) index =
      transferred pages source target count index := by
  rw [transfer, byte_rebuild]
  · split
    · rfl
    · rw [transferred, if_neg (by omega)]
  · intro other skip _
    exact (transferred_of_staysBlank count skip).symm

end PageTable

namespace Reservation

/-- Copies `count` bytes, if the bytes at `target` are in use. -/
def transfer (reservation : Reservation) (source target count : Nat) : Reservation :=
  if inside : target + count ≤ reservation.size then
    { pages := reservation.pages.transfer source target count
      size := reservation.size
      capacity := reservation.capacity
      size_le := reservation.size_le
      size_mod := reservation.size_mod
      capacity_mod := reservation.capacity_mod
      capacity_lt := reservation.capacity_lt
      untouched := by
        intro index above
        rw [PageTable.byte_transfer, PageTable.transferred, if_neg (by omega)]
        exact reservation.untouched index above }
  else
    reservation

theorem size_transfer (reservation : Reservation) (source target count : Nat) :
    (reservation.transfer source target count).size = reservation.size := by
  unfold transfer
  split <;> rfl

theorem capacity_transfer (reservation : Reservation) (source target count : Nat) :
    (reservation.transfer source target count).capacity = reservation.capacity := by
  unfold transfer
  split <;> rfl

theorem byte_transfer (reservation : Reservation) {source target count : Nat}
    (inside : target + count ≤ reservation.size) (index : Nat) :
    (reservation.transfer source target count).byte index =
      if target ≤ index ∧ index < target + count then
        reservation.byte (source + (index - target))
      else
        reservation.byte index := by
  rw [transfer, dif_pos inside]
  exact PageTable.byte_transfer ..

end Reservation

namespace Region

/-- Copies `count` bytes from `source` to `target`. -/
def transfer (region : Region) (source target count : Nat) : Region :=
  match region with
  | .dense buffer => (dense buffer).store target ((dense buffer).extract source count)
  | .sparse reservation => .sparse (reservation.transfer source target count)

@[simp] theorem size_transfer (region : Region) (source target count : Nat) :
    (region.transfer source target count).size = region.size := by
  cases region with
  | dense buffer => exact size_store ..
  | sparse reservation => exact reservation.size_transfer source target count

@[simp] theorem limit_transfer (region : Region) (source target count : Nat) :
    (region.transfer source target count).limit = region.limit := by
  cases region with
  | dense buffer => exact limit_store ..
  | sparse reservation => exact reservation.capacity_transfer source target count

theorem byte_transfer (region : Region) {source target count : Nat}
    (sourceInside : source + count ≤ region.size)
    (targetInside : target + count ≤ region.size) (index : Nat) :
    (region.transfer source target count).byte index =
      if target ≤ index ∧ index < target + count then
        region.byte (source + (index - target))
      else
        region.byte index := by
  cases region with
  | dense buffer =>
      have held : (dense buffer).clip source count = count := by
        rw [clip]
        omega
      rw [transfer, byte_store, size_extract, held]
      by_cases inside : target ≤ index ∧ index < target + count
      · rw [if_pos (by omega), if_pos inside, read_extract, held, if_pos (by omega)]
      · rw [if_neg (by omega), if_neg inside]
  | sparse reservation => exact reservation.byte_transfer targetInside index

end Region

end TaggedHeap
