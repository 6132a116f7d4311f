import Mathlib.Order.Bounds.Defs
import TaggedHeap.Proofs.Heap.Recency

/-!
Contract: which block serves a request, in terms of what a heap shows.

The search is best fit: of all free blocks that are not reserved and large enough it takes one of
the smallest, and of these the one that was filed last. Only if there is none does the heap grow, by
no more than it must, and the block at its end serves.
-/

namespace TaggedHeap

/-- The block sizes that hold a payload of `request` bytes. -/
def blockSizes (request : Nat) : Set Nat :=
  {size | size % 8 = 0 ∧ 16 ≤ size ∧ request + 8 ≤ size}

section BlockSizes

variable {request size : Nat} (least : IsLeast (blockSizes request) size)

include least

theorem max_roundUp_eq : max minBlock (roundUp (request + 8)) = size := by
  obtain ⟨⟨grained, wide, holds⟩, least⟩ := least
  have aligned := roundUp_mod (request + 8)
  have covers := le_roundUp (request + 8)
  have tight := roundUp_lt (request + 8)
  have isMember : max minBlock (roundUp (request + 8)) ∈ blockSizes request := by
    refine ⟨?_, Nat.le_max_left .., Nat.le_trans covers (Nat.le_max_right ..)⟩
    simp only [minBlock]
    omega
  have atMost := least isMember
  simp only [minBlock] at atMost ⊢
  omega

/-- A request is served by the least block size that holds it. -/
theorem eq_of_blockSizeFor {needed : Nat} (judged : blockSizeFor request = .ok needed) :
    needed = size ∧ size ≤ maxBlock := by
  rw [blockSizeFor, max_roundUp_eq least] at judged
  split at judged
  · rename_i fits
    exact ⟨(Except.ok.inj judged).symm, fits⟩
  · cases judged

theorem blockSizeFor_of_least (encodable : size ≤ maxBlock) : blockSizeFor request = .ok size := by
  rw [blockSizeFor, max_roundUp_eq least]
  exact if_pos encodable

/-- A request is too large if no word can hold that size. -/
theorem excess_of_blockSizeFor {failure : Failure}
    (judged : blockSizeFor request = .error failure) :
    failure = .tooLarge request ∧ maxBlock < size := by
  rw [blockSizeFor, max_roundUp_eq least] at judged
  split at judged
  · cases judged
  · rename_i exceeds
    exact ⟨(Except.error.inj judged).symm, Nat.not_le.1 exceeds⟩

end BlockSizes

/-- A free block that is not reserved and holds `size` bytes. -/
structure BlockInfo.Offers (size : Nat) (info : BlockInfo) : Prop where
  free : info.allocated = false
  unreserved : info.reserved = false
  enough : size ≤ info.size

namespace Heap

/-- The block that serves a request of `size` bytes on a heap that shows `blocks`, with the blocks
around it and the end of the region. -/
inductive Chooses (heap : Heap) (blocks : List BlockInfo)
    (filedLater : Handle × Nat → Handle × Nat → Prop) (size : Nat) :
    List BlockInfo → BlockInfo → List BlockInfo → Nat → Prop where
  | tightest {front back : List BlockInfo} {chosen : BlockInfo}
      (split : blocks = front ++ chosen :: back) (offers : chosen.Offers size)
      (least : ∀ other ∈ blocks, other.Offers size → chosen.size ≤ other.size)
      (latest : ∀ other ∈ blocks, other.Offers size → other.size = chosen.size →
        other ≠ chosen → filedLater chosen.extent other.extent) :
      Chooses heap blocks filedLater size front chosen back heap.region.size
  | grown {front : List BlockInfo} {chosen : BlockInfo} {count : Nat}
      (missing : ∀ other ∈ blocks, ¬other.Offers size)
      (least : count = max size heap.policy.growthUnit)
      (encodable : heap.region.size + count ≤ maxBlock)
      (fits : count ≤ heap.region.limit - heap.region.size)
      (grows : Extends blocks heap.region.size count front chosen) :
      Chooses heap blocks filedLater size front chosen [] (heap.region.size + count)

/-- Why a heap that was to grow by `bytes` does not grow by the `count` bytes that makes. -/
inductive RefusesGrowth (heap : Heap) (bytes count : Nat) : Failure → Prop where
  | tooLarge (excess : maxBlock < heap.region.size + count) :
      RefusesGrowth heap bytes count (.tooLarge bytes)
  | exhausted (encodable : heap.region.size + count ≤ maxBlock)
      (lacks : heap.region.limit - heap.region.size < count) :
      RefusesGrowth heap bytes count
        (.refused (.exhausted count (heap.region.limit - heap.region.size)))

end Heap

namespace Shape

variable {shape later : Shape} {info start block : BlockInfo} {bytes size : Nat}
  {events : List Event} {failure : Failure} {heap : Heap}

/-- A listed block fits if and only if it offers the space. -/
theorem Sound.offers_iff (sound : shape.Sound) {cls : SizeClass}
    (listed : info ∈ shape.lists cls) : info.Offers size ↔ info.fits size = true := by
  rw [BlockInfo.fits, Bool.and_eq_true, decide_eq_true_iff, Bool.not_eq_true']
  exact ⟨fun offers => ⟨offers.enough, offers.unreserved⟩,
    fun fits => ⟨sound.orderly.free listed, fits.2, fits.1⟩⟩

theorem Refuses.refusesGrowth (refuses : shape.Refuses bytes failure events)
    (shows : heap.Shows shape) : heap.RefusesGrowth bytes (growth bytes) failure := by
  have stop : heap.region.size = shape.stop := shows.lays.size
  have inside := heap.region.size_le_limit
  have limit := shows.limit
  cases refuses with
  | tooLarge excess => exact .tooLarge (by omega)
  | exhausted encodable lacks =>
      rw [← stop, ← limit]
      exact .exhausted (by omega) (by omega)

/-- The size of the block that a heap grows by when it cannot serve a request otherwise. -/
theorem growth_eq (shows : heap.Shows shape) (wide : 16 ≤ size) (grained : size % 8 = 0)
    (even : shape.policy.growthUnit % 8 = 0) :
    growth (max size shape.policy.growthUnit) = max size heap.policy.growthUnit := by
  rw [shows.policy]
  exact growth_of_mod (by omega) (by omega)

theorem not_offers_of_missing (sound : shape.Sound) (complete : shape.Complete)
    (missing : shape.lists.fit size = none) : ∀ other ∈ shape.blocks, ¬other.Offers size := by
  intro other member offers
  have listed := complete other member offers.free
  exact FreeLists.not_fits_of_missing sound.orderly missing listed
    ((sound.offers_iff listed).1 offers)

theorem Serves.chooses {filedLater : Handle × Nat → Handle × Nat → Prop}
    (serves : shape.Serves size block later events) (shows : heap.Shows shape)
    (valid : shape.Valid) (wide : 16 ≤ size) (grained : size % 8 = 0)
    (even : shape.policy.growthUnit % 8 = 0)
    (ordered : shape.lists.OrderedBy filedLater) :
    ∃ front chosen back, heap.Chooses shape.blocks filedLater size front chosen back later.stop ∧
      later.blocks = front ++ chosen.taken size :: (chosen.remainder size ++ back) ∧
      block = chosen.taken size := by
  have sound := valid.sound
  have stop : heap.region.size = shape.stop := shows.lays.size
  have limit := shows.limit
  have inside := heap.region.size_le_limit
  cases serves with
  | @found front back info fit split =>
      obtain ⟨cls, infoListed, enough, unreserved⟩ := FreeLists.mem_of_fit fit
      rw [stop_carved, ← stop]
      refine ⟨front, info, back, .tightest split ?_ ?_ ?_, blocks_carved .., rfl⟩
      · exact ⟨sound.orderly.free infoListed, unreserved, enough⟩
      · intro other member offers
        have listed := valid.complete other member offers.free
        exact (FreeLists.fit_least sound.orderly fit listed
          ((sound.offers_iff listed).1 offers)).1
      · intro other member offers same different
        have listed := valid.complete other member offers.free
        have first := (FreeLists.fit_least sound.orderly fit listed
          ((sound.offers_iff listed).1 offers)).2 same
        exact ordered _ _ same.symm (first.resolve_left different)
  | @grown front back start middle events missing grows split =>
      have fitting := growth_eq shows wide grained even
      obtain ⟨earlier, blocks, extended⟩ := grows.extends_later
      obtain ⟨encodable, fits, -⟩ := id grows
      have middleSound := (grows.valid valid).sound
      have nothing : back = [] := by
        have tiles := middleSound.layout.tiles
        rw [split] at tiles
        have behind := tiles.middle.2.2.length_le
        have ends := grows.stop_of_start middleSound
        exact List.eq_nil_of_length_eq_zero (by omega)
      subst back
      obtain ⟨rfl, -⟩ := List.append_inj' (blocks.symm.trans split) rfl
      rw [fitting] at extended encodable fits
      rw [stop_carved, grows.stop_later, fitting, ← stop]
      rw [← stop] at extended
      refine ⟨earlier, start, [], .grown ?_ rfl (by omega) (by omega) extended, ?_, rfl⟩
      · exact not_offers_of_missing sound valid.complete missing
      · exact blocks_carved ..

theorem Lacks.refusesGrowth (lacks : shape.Lacks size failure events) (shows : heap.Shows shape)
    (valid : shape.Valid) (wide : 16 ≤ size) (grained : size % 8 = 0)
    (even : shape.policy.growthUnit % 8 = 0) :
    (∀ other ∈ shape.blocks, ¬other.Offers size) ∧
      heap.RefusesGrowth (max size heap.policy.growthUnit) (max size heap.policy.growthUnit)
        failure := by
  obtain ⟨missing, refuses⟩ := lacks
  have fitting := growth_eq shows wide grained even
  have refused := refuses.refusesGrowth shows
  rw [fitting, ← shows.policy] at refused
  exact ⟨not_offers_of_missing valid.sound valid.complete missing, refused⟩

end Shape

end TaggedHeap
