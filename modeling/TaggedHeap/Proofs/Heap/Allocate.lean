import TaggedHeap.Proofs.Heap.Carve
import TaggedHeap.Proofs.Heap.Growth

/-!
Contract: allocation in terms of shapes.

A request is served by the first free block that fits, or by the block at the end of a heap that
has grown. It fails only if no free block fits and the heap does not grow.
-/

namespace TaggedHeap

theorem blockSizeFor_ok {request size : Nat} (judged : blockSizeFor request = .ok size) :
    16 ≤ size ∧ size % 8 = 0 ∧ request + 8 ≤ size ∧ size ≤ maxBlock := by
  unfold blockSizeFor at judged
  dsimp only at judged
  split at judged
  · rename_i fits
    cases judged
    have aligned := roundUp_mod (request + 8)
    have covers := le_roundUp (request + 8)
    simp only [minBlock] at fits ⊢
    omega
  · cases judged

namespace Shape

variable {shape later : Shape} {size request : Nat} {block : BlockInfo} {events : List Event}
  {failure : Failure}

/-- How a request for a block of `size` bytes is served: by which allocated block, and what
becomes of the shape. -/
inductive Serves (shape : Shape) (size : Nat) : BlockInfo → Shape → List Event → Prop where
  | found {front back : List BlockInfo} {info : BlockInfo}
      (fit : shape.lists.fit size = some info)
      (split : shape.blocks = front ++ info :: back) :
      Serves shape size (info.taken size) (shape.carved front info size back) []
  | grown {front back : List BlockInfo} {start : BlockInfo} {middle : Shape} {events : List Event}
      (missing : shape.lists.fit size = none)
      (grows : shape.Grows (max size shape.policy.growthUnit) start middle events)
      (split : middle.blocks = front ++ start :: back) :
      Serves shape size (start.taken size) (middle.carved front start size back) events

/-- Why no block of `size` bytes can be had. -/
inductive Lacks (shape : Shape) (size : Nat) : Failure → List Event → Prop where
  | intro {failure : Failure} {events : List Event} (missing : shape.lists.fit size = none)
      (refuses : shape.Refuses (max size shape.policy.growthUnit) failure events) :
      Lacks shape size failure events

theorem serves_or_lacks (valid : shape.Valid) (size : Nat) :
    (∃ block later events, shape.Serves size block later events) ∨
      ∃ failure events, shape.Lacks size failure events := by
  cases fit : shape.lists.fit size with
  | some info =>
      obtain ⟨cls, listed, -⟩ := FreeLists.mem_of_fit fit
      obtain ⟨front, back, split⟩ := List.append_of_mem (valid.sound.listed listed)
      exact .inl ⟨_, _, _, .found fit split⟩
  | none =>
      rcases shape.grows_or_refuses (max size shape.policy.growthUnit) with
        ⟨start, middle, events, grows⟩ | ⟨failure, events, refuses⟩
      · have listed := (grows.start_facts valid.complete).1
        obtain ⟨front, back, split⟩ :=
          List.append_of_mem ((grows.valid valid).sound.listed listed)
        exact .inl ⟨_, _, _, .grown fit grows split⟩
      · exact .inr ⟨failure, events, .intro fit refuses⟩

theorem idles_search (sound : shape.Sound) (size : Nat) :
    shape.Idles (liftM (Heap.search size)) ((shape.lists.fit size).map BlockInfo.block) :=
  fun _ shows => AllocM.run_lift (Heap.search_run shows.stored sound.orderly size)

/-- The last step of serving a request: carving the block that was found. -/
theorem grants_carve (sound : shape.Sound) {front back : List BlockInfo} {info : BlockInfo}
    (split : shape.blocks = front ++ info :: back) (listed : info ∈ shape.lists info.cls)
    (wide : 16 ≤ size) (grained : size % 8 = 0) (enough : size ≤ info.size) :
    shape.Grants
      (do
        Heap.carve info.block size
        return info.block)
      (info.taken size).block (shape.carved front info size back) [] shape.Held := by
  apply (Grants.lift (does_carve sound split wide grained enough listed)).bind
  exact Grants.pure _ _ _

namespace Serves

variable (serves : shape.Serves size block later events)

include serves

theorem grants (valid : shape.Valid) (wide : 16 ≤ size) (grained : size % 8 = 0) :
    shape.Grants (Heap.allocateBlock size) block.block later events shape.Held := by
  have sound := valid.sound
  have searched := (idles_search sound size).grants shape.Held
  rw [Heap.allocateBlock]
  cases serves with
  | found fit split =>
      obtain ⟨cls, listed, enough, -⟩ := FreeLists.mem_of_fit fit
      rw [fit] at searched
      apply searched.bind
      dsimp only [Option.map]
      apply (Grants.pure _ _ _).bind
      exact grants_carve sound split (sound.mem_own listed) wide grained enough
  | @grown front back start middle events missing grows split =>
      obtain ⟨listed, -, -, enough⟩ := grows.start_facts valid.complete
      have middleValid := grows.valid valid
      rw [missing] at searched
      apply searched.bind
      dsimp only [Option.map]
      apply Grants.bind_get
      intro heap shows
      rw [shows.policy, ← List.append_nil events]
      apply (grows.grants sound valid.complete).bind
      apply (grants_carve middleValid.sound split listed wide grained
        (Nat.le_trans (Nat.le_max_left ..) enough)).weaken fun index => grows.held_later

theorem valid_later (valid : shape.Valid) (wide : 16 ≤ size) (grained : size % 8 = 0) :
    later.Valid := by
  cases serves with
  | found fit split =>
      obtain ⟨cls, listed, enough, unreserved⟩ := FreeLists.mem_of_fit fit
      exact valid_carved valid split (valid.sound.orderly.free listed) unreserved wide grained
        enough
  | grown missing grows split =>
      obtain ⟨-, free, unreserved, enough⟩ := grows.start_facts valid.complete
      exact valid_carved (grows.valid valid) split free unreserved wide grained
        (Nat.le_trans (Nat.le_max_left ..) enough)

/-- Nothing but the new block becomes allocated. -/
theorem allocated_later (valid : shape.Valid) :
    later.allocated.Perm (block :: shape.allocated) := by
  cases serves with
  | found fit split =>
      obtain ⟨cls, listed, -⟩ := FreeLists.mem_of_fit fit
      exact allocated_carved split (valid.sound.orderly.free listed)
  | @grown front back start middle events missing grows split =>
      obtain ⟨-, free, -⟩ := grows.start_facts valid.complete
      have carved : (middle.carved front start size back).allocated.Perm
          (start.taken size :: middle.allocated) := allocated_carved split free
      rwa [grows.allocated_later] at carved

theorem block_facts (valid : shape.Valid) :
    block.allocated = true ∧ block.reserved = false ∧ size ≤ block.size := by
  cases serves with
  | found fit split =>
      obtain ⟨cls, listed, enough, unreserved⟩ := FreeLists.mem_of_fit fit
      exact ⟨rfl, unreserved, BlockInfo.le_size_taken enough⟩
  | grown missing grows split =>
      obtain ⟨-, -, unreserved, enough⟩ := grows.start_facts valid.complete
      exact ⟨rfl, unreserved,
        BlockInfo.le_size_taken (Nat.le_trans (Nat.le_max_left ..) enough)⟩

theorem same_setting : shape.SameSetting later := by
  cases serves with
  | found fit split => exact same_setting_carved ..
  | grown missing grows split => exact grows.same_setting.trans (same_setting_carved ..)

theorem extents_later (valid : shape.Valid) :
    later.extents.Perm ((block.handle, block.size) :: shape.extents) :=
  (serves.allocated_later valid).map _

theorem exchanges (valid : shape.Valid) :
    shape.Exchanges later [] [(block.handle, block.size)] :=
  ⟨shape.extents, List.Perm.refl _, serves.extents_later valid⟩

theorem block_mem (valid : shape.Valid) : block ∈ later.blocks :=
  (mem_allocated.1 ((serves.allocated_later valid).symm.subset List.mem_cons_self)).1

/-- A block that was allocated before is still there, and is not the new one. -/
theorem mem_later (valid : shape.Valid) (laterSound : later.Sound) {info : BlockInfo}
    (member : info ∈ shape.blocks) (allocated : info.allocated = true) :
    info ∈ later.blocks ∧ info ≠ block := by
  have same := serves.allocated_later valid
  have inAllocated := mem_allocated.2 ⟨member, allocated⟩
  refine ⟨(mem_allocated.1 (same.symm.subset (List.mem_cons_of_mem _ inAllocated))).1, ?_⟩
  have distinct : later.allocated.Nodup := laterSound.layout.tiles.nodup.filter _
  rw [same.nodup_iff, List.nodup_cons] at distinct
  rintro rfl
  exact distinct.1 inAllocated

end Serves

theorem Lacks.denies (lacks : shape.Lacks size failure events) (sound : shape.Sound) :
    shape.Denies (Heap.allocateBlock size) failure events := by
  obtain ⟨missing, refuses⟩ := lacks
  have searched := idles_search sound size
  rw [missing] at searched
  rw [Heap.allocateBlock]
  apply Denies.after_idle searched
  apply Denies.bind_get
  intro heap shows
  rw [shows.policy]
  exact refuses.denies.bind _

end Shape

end TaggedHeap
