import TaggedHeap.Proofs.Heap.Resize

/-!
Contract: where a heap stops.

Only growth moves the end of a heap, and it moves it on. Merging, carving, releasing and joining
divide anew what is there.
-/

namespace TaggedHeap.Shape

variable {shape later : Shape} {info start block result fresh : BlockInfo}
  {front back behind : List BlockInfo} {bytes size target request : Nat} {events : List Event}

theorem Merges.same_stop (merges : shape.Merges front info behind start later events) :
    later.stop = shape.stop := by
  cases merges <;> rfl

theorem Grows.stop_later (grows : shape.Grows bytes start later events) :
    later.stop = shape.stop + growth bytes := by
  obtain ⟨-, -, merges⟩ := grows
  exact merges.same_stop

theorem Grows.stop_le (grows : shape.Grows bytes start later events) :
    shape.stop ≤ later.stop := by
  rw [grows.stop_later]
  exact Nat.le_add_right ..

theorem stop_carved (shape : Shape) (front : List BlockInfo) (info : BlockInfo) (size : Nat)
    (back : List BlockInfo) : (shape.carved front info size back).stop = shape.stop := by
  unfold carved
  split <;> rfl

theorem Serves.stop_le (serves : shape.Serves size block later events) :
    shape.stop ≤ later.stop := by
  cases serves with
  | found fit split => rw [stop_carved]
  | grown missing grows split =>
      rw [stop_carved]
      exact grows.stop_le

theorem Releases.same_stop (releases : shape.Releases info later events) :
    later.stop = shape.stop := by
  obtain ⟨split, merges⟩ := releases
  exact merges.same_stop

theorem Expands.stop_le (expands : shape.Expands info target result later events) :
    shape.stop ≤ later.stop := by
  cases expands with
  | within runAt enough => exact Nat.le_refl _
  | beyond runAt short grows laterRun enough => exact grows.stop_le

theorem Moves.stop_le (moves : shape.Moves info target fresh later events) :
    shape.stop ≤ later.stop := by
  obtain ⟨serves, releases⟩ := moves
  rw [releases.same_stop]
  exact serves.stop_le

theorem stop_reservedBehind (shape : Shape) (result : BlockInfo) (target : Nat) :
    (shape.reservedBehind result target).stop = shape.stop := by
  unfold reservedBehind
  split <;> rfl

theorem Enlarges.stop_le (enlarges : shape.Enlarges info target request result later events) :
    shape.stop ≤ later.stop := by
  cases enlarges with
  | inPlace expands => exact expands.stop_le
  | moved blocked moves => exact moves.stop_le

theorem Resizes.stop_le (resizes : shape.Resizes info request result later events) :
    shape.stop ≤ later.stop := by
  cases resizes with
  | stays judged fits enough => rw [stop_reservedBehind]
  | enlarged judged fits short enlarges =>
      rw [stop_reservedBehind]
      exact enlarges.stop_le

end TaggedHeap.Shape
