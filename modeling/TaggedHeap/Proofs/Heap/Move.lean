import TaggedHeap.Proofs.Heap.InPlace
import TaggedHeap.Proofs.Heap.Allocate
import TaggedHeap.Proofs.Heap.Release

/-!
Contract: payloads in terms of shapes, and moving a payload.

A change of an allocated payload does not change the shape. A payload moves by serving a new
block, copying into it, and releasing the old one.
-/

namespace TaggedHeap

/-- The byte belongs to the payload of the block. -/
def BlockInfo.Inside (info : BlockInfo) (index : Nat) : Prop :=
  info.offset ≤ index ∧ index + 8 < info.offset + info.size

/-- Payloads of blocks that lie apart have no byte in common. -/
theorem BlockInfo.Apart.not_inside {info other : BlockInfo} (apart : info.Apart other)
    {index : Nat} (inside : info.Inside index) : ¬other.Inside index := by
  have separated := apart.separated
  obtain ⟨lower, upper⟩ := inside
  rintro ⟨first, last⟩
  omega

namespace Shape

variable {shape middle later : Shape} {info fresh : BlockInfo} {events more : List Event}

/-- Writing into an allocated payload. -/
theorem shows_overwrite (sound : shape.Sound) (member : info ∈ shape.blocks)
    (allocated : info.allocated = true) {heap : Heap} (shows : heap.Shows shape)
    {region : Region} (size : region.size = heap.region.size)
    (limit : region.limit = heap.region.limit)
    (same : ∀ index, ¬info.Inside index → region.byte index = heap.region.byte index) :
    Heap.Shows { heap with region := region } shape where
  policy := shows.policy
  limit := limit.trans shows.limit
  prologue := shows.prologue
  lays := shows.lays.congr sound.layout size fun index outside =>
    same index fun inside => outside ⟨info, member, inside⟩
  stored := by
    apply shows.stored.congr size.ge
    intro cls other listed index lower upper
    have wide := sound.wide (sound.listed listed)
    apply same index
    rintro ⟨first, last⟩
    rcases sound.layout.tiles.apart_of_mem member (sound.listed listed) with rfl | apart
    · exact sound.unlisted_of_allocated allocated cls listed
    · have separated := apart.separated
      omega

/-- Bytes that were held do not lie in a payload that is served. -/
theorem Serves.not_inside_of_held {size : Nat} (serves : shape.Serves size fresh later events)
    (valid : shape.Valid) (laterSound : later.Sound) {index : Nat} (held : shape.Held index) :
    ¬fresh.Inside index := by
  have freshMember := serves.block_mem valid
  rcases held with below | ⟨info, member, allocated, inside⟩
  · rintro ⟨lower, -⟩
    have above := laterSound.layout.tiles.start_le_of_mem freshMember
    rw [serves.same_setting.start] at above
    omega
  · obtain ⟨laterMember, different⟩ := serves.mem_later valid laterSound member allocated
    have apart := (laterSound.layout.tiles.apart_of_mem laterMember freshMember).resolve_left
      different
    exact apart.not_inside inside

/-- Copying from one payload into another. -/
theorem carries_copy (sound : shape.Sound) (member : info ∈ shape.blocks)
    (freshMember : fresh ∈ shape.blocks) (freshAllocated : fresh.allocated = true) {count : Nat}
    (inside : count + 8 ≤ info.size) (freshInside : count + 8 ≤ fresh.size) :
    shape.Carries (liftM (Region.copy info.offset fresh.offset count)) () shape []
      (fun index => ¬fresh.Inside index) info.offset fresh.offset count := by
  intro heap shows
  have size : heap.region.size = shape.stop := shows.lays.size
  have infoUpTo := sound.inside member
  have freshUpTo := sound.inside freshMember
  have sourceInside : info.offset + count ≤ heap.region.size := by omega
  have targetInside : fresh.offset + count ≤ heap.region.size := by omega
  have copied : Region.copy info.offset fresh.offset count heap.region =
      .ok () (heap.region.transfer info.offset fresh.offset count) :=
    if_pos ⟨sourceInside, targetInside⟩
  have byte := heap.region.byte_transfer sourceInside targetInside
  have outside : ∀ index, ¬fresh.Inside index →
      (heap.region.transfer info.offset fresh.offset count).byte index =
        heap.region.byte index := by
    intro index notInside
    rw [byte, if_neg]
    rintro ⟨lower, upper⟩
    exact notInside ⟨lower, by omega⟩
  refine ⟨_, AllocM.run_change copied, ⟨?_, by simp, outside⟩, ?_⟩
  · exact shows_overwrite sound freshMember freshAllocated shows (Region.size_transfer ..)
      (Region.limit_transfer ..) outside
  · intro index below
    change (heap.region.transfer info.offset fresh.offset count).byte _ = _
    rw [byte, if_pos (by omega), Nat.add_sub_cancel_left]

/-! ## Moving as an operation -/

/-- How a payload moves: by which allocated block it is served, and what becomes of the shape. -/
inductive Moves (shape : Shape) (info : BlockInfo) (target : Nat) :
    BlockInfo → Shape → List Event → Prop where
  | intro {fresh : BlockInfo} {middle later : Shape} {events more : List Event}
      (serves : shape.Serves target fresh middle events)
      (releases : middle.Releases info later more) : Moves shape info target fresh later
        (events ++ more)

namespace Moves

variable {target request : Nat} (moves : shape.Moves info target fresh later events)

include moves

theorem same_setting : shape.SameSetting later := by
  obtain ⟨serves, releases⟩ := moves
  exact serves.same_setting.trans releases.same_setting

variable (valid : shape.Valid) (wide : 16 ≤ target) (grained : target % 8 = 0)
  (member : info ∈ shape.blocks) (allocated : info.allocated = true)

include valid wide grained

theorem valid_later (allocated : info.allocated = true) : later.Valid := by
  obtain ⟨serves, releases⟩ := moves
  exact releases.valid_later (serves.valid_later valid wide grained) allocated

include member allocated

theorem result_facts : target ≤ fresh.size ∧ fresh.handle ≠ info.handle := by
  obtain ⟨serves, releases⟩ := moves
  have middleSound := (serves.valid_later valid wide grained).sound
  refine ⟨(serves.block_facts valid).2.2, fun same => ?_⟩
  obtain ⟨middleMember, different⟩ := serves.mem_later valid middleSound member allocated
  have freshMember := serves.block_mem valid
  exact different (middleSound.layout.tiles.eq_of_offset middleMember freshMember
    (congrArg Handle.offset same.symm))

theorem exchanges : shape.Exchanges later [(info.handle, info.size)]
    [(fresh.handle, fresh.size)] := by
  obtain ⟨serves, releases⟩ := moves
  have middleValid := serves.valid_later valid wide grained
  have inExtents := present_of_allocated member allocated
  have without := List.perm_cons_erase inExtents
  have served := serves.extents_later valid
  have released := releases.extents_later middleValid.sound allocated
  refine ⟨_, without, ?_⟩
  have both := released.symm.trans (served.trans (without.cons (fresh.handle, fresh.size)))
  exact (both.trans (List.Perm.swap ..)).cons_inv

theorem carries (enough : request + 8 ≤ target) :
    shape.Carries (Heap.move info.handle info.size target request) fresh.block later
      (events ++ [.moved info.offset request fresh.offset])
      (fun index => shape.Held index ∧ later.Held index) info.offset fresh.offset
      (min (info.size - 8) request) := by
  have present := present_of_allocated member allocated
  have exchanges := moves.exchanges valid wide grained member allocated
  cases moves with
  | @intro middle _ events more serves releases =>
    have middleValid := serves.valid_later valid wide grained
    have middleSound := middleValid.sound
    obtain ⟨freshAllocated, -, covers⟩ := serves.block_facts valid
    have freshMember := serves.block_mem valid
    have infoMember := (serves.mem_later valid middleSound member allocated).1
    have infoWide := valid.sound.wide member
    have judged : difference info.size 8 = .ok (info.size - 8) := difference_of_le (by omega)
    have copying : middle.Carries
        (liftM (Region.copy info.offset fresh.offset (min (info.size - 8) request))) () middle []
        (fun index => ¬fresh.Inside index) info.offset fresh.offset
        (min (info.size - 8) request) :=
      carries_copy middleSound infoMember freshMember freshAllocated (by omega) (by omega)
    have releasing := releases.does middleSound middleValid.complete allocated
    have rest : middle.Grants
        (do
          (Heap.releaseBlock info.handle : HeapM Unit)
          (Heap.report (.moved info.offset request fresh.offset) : HeapM Unit)
          return fresh.block : AllocM Block)
        fresh.block later (more ++ [.moved info.offset request fresh.offset]) later.Held := by
      apply (Grants.lift releasing).bind
      rw [← List.append_nil [_]]
      apply (Grants.lift (Does.report _ _ _)).bind
      exact Grants.pure _ _ _
    rw [Heap.move, List.append_assoc]
    refine Carries.bind_after (serves.grants valid wide grained) ?_ (fun index => And.left) ?_
    · apply Carries.bind_except judged
      have carrying := copying.weaken fun index (held : shape.Held index ∧ later.Held index) =>
        serves.not_inside_of_held valid middleSound held.1
      apply carrying.bind rest fun index => And.right
      · exact fun index below =>
          held_of_present (exchanges.mem_later List.mem_cons_self) (by omega)
    · exact fun index below => held_of_present present (by omega)

end Moves

end Shape

end TaggedHeap
