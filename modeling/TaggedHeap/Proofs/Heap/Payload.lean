import TaggedHeap.Heap.Payload
import TaggedHeap.Proofs.Heap.Move

/-!
Contract: access to payloads in terms of shapes.

The shape knows where a payload lies and how long it is; what it holds is up to the client. Reading
a payload never faults, and writing one changes neither the shape nor a byte outside it.
-/

namespace TaggedHeap

namespace Shape

variable {shape : Shape} {info : BlockInfo} {handle : Handle} {size : Nat}
  (sound : shape.Sound)

include sound

theorem sees_usable (present : (handle, size) ∈ shape.extents) :
    shape.Sees (Heap.usable handle) (size - 8) := by
  obtain ⟨info, member, -, rfl, rfl⟩ := mem_extents.1 present
  have wide := sound.wide member
  intro heap shows
  have named : (liftM info.handle.block : ReadM Block).run heap.region = .ok info.block :=
    Block.ofOffset_of_mod (sound.offset_mod member)
  have seen : info.block.size.run heap.region = .ok info.size := sees_size sound member heap shows
  rw [Heap.usable]
  change ReaderT.run _ heap.region = _
  rw [ReadM.run_bind named, ReadM.run_bind seen]
  exact difference_of_le (by omega)

theorem sees_extent (present : (handle, size) ∈ shape.extents) :
    shape.Sees (Heap.extent handle) (size - 8) := by
  obtain ⟨info, member, -, rfl, rfl⟩ := mem_extents.1 present
  have upTo := sound.inside member
  intro heap shows
  have regionSize : heap.region.size = shape.stop := shows.lays.size
  have length : (Heap.usable info.handle).run heap.region = .ok (info.size - 8) :=
    sees_usable sound present heap shows
  have inside : ¬heap.region.size < info.handle.offset + (info.size - 8) := by
    change ¬heap.region.size < info.offset + (info.size - 8)
    omega
  rw [Heap.extent]
  change ReaderT.run _ heap.region = _
  rw [ReadM.run_bind length, ReadM.run_bind (show (read : ReadM Region).run heap.region =
    .ok heap.region from rfl), if_neg inside]
  rfl

theorem payload_run (present : (handle, size) ∈ shape.extents) {heap : Heap}
    (shows : heap.Shows shape) :
    Heap.payload handle heap.region = .ok (heap.region.extract handle.offset (size - 8)) := by
  have length : (Heap.extent handle).run heap.region = .ok (size - 8) :=
    sees_extent sound present heap shows
  rw [Heap.payload]
  change ReaderT.run _ heap.region = _
  rw [ReadM.run_bind (show (read : ReadM Region).run heap.region = .ok heap.region from rfl),
    ReadM.run_bind length]
  rfl

theorem readPayload_run (present : (handle, size) ∈ shape.extents) {heap : Heap}
    (shows : heap.Shows shape) (start count : Nat) :
    Heap.readPayload handle start count heap.region = .ok (heap.region.extract
      (handle.offset + start) (min (start + count) (size - 8) - start)) := by
  have length : (Heap.extent handle).run heap.region = .ok (size - 8) :=
    sees_extent sound present heap shows
  rw [Heap.readPayload]
  change ReaderT.run _ heap.region = _
  rw [ReadM.run_bind length,
    ReadM.run_bind (show (read : ReadM Region).run heap.region = .ok heap.region from rfl)]
  rfl

theorem read_payload (present : (handle, size) ∈ shape.extents) {heap : Heap}
    (shows : heap.Shows shape) (index : Nat) :
    Bytes.read (heap.region.extract handle.offset (size - 8)) index =
      if index < size - 8 then heap.region.byte (handle.offset + index) else 0 := by
  obtain ⟨info, member, -, rfl, rfl⟩ := mem_extents.1 present
  have upTo := sound.inside member
  have regionSize : heap.region.size = shape.stop := shows.lays.size
  have clipped : heap.region.clip info.handle.offset (info.size - 8) = info.size - 8 := by
    change min (info.offset + (info.size - 8)) heap.region.size - info.offset = info.size - 8
    omega
  rw [Region.read_extract, clipped]

/-- Writing a payload keeps the shape, and every byte outside the payload. -/
theorem does_writePayload (member : info ∈ shape.blocks) (allocated : info.allocated = true)
    (start : Nat) (values : ByteArray) :
    shape.Does (liftM (Heap.writePayload info.handle start values))
      (min (start + values.size) (info.size - 8) - start) shape []
      (fun index => ¬info.Inside index) := by
  have present := present_of_allocated member allocated
  intro heap shows
  have length := sees_extent sound present heap shows
  have ran : Heap.writePayload info.handle start values heap.region =
      .ok (min (start + values.size) (info.size - 8) - start)
        (heap.region.store (info.handle.offset + start)
          (values.extract 0 (min (start + values.size) (info.size - 8) - start))) := by
    simp only [Heap.writePayload, bind, EStateM.bind, liftM, monadLift, MonadLift.monadLift,
      length]
    rfl
  have outside : ∀ index, ¬info.Inside index →
      (heap.region.store (info.handle.offset + start)
        (values.extract 0 (min (start + values.size) (info.size - 8) - start))).byte index =
        heap.region.byte index := by
    intro index notInside
    rw [Region.byte_store, if_neg]
    rintro ⟨lower, upper, -⟩
    have lower : info.offset + start ≤ index := lower
    have upper : index < info.offset + start + _ := upper
    rw [ByteArray.size_extract] at upper
    exact notInside ⟨by omega, by omega⟩
  refine ⟨_, HeapM.run_change ran, ?_, by simp, outside⟩
  exact shows_overwrite sound member allocated shows (Region.size_store ..)
    (Region.limit_store ..) outside

end Shape

end TaggedHeap
