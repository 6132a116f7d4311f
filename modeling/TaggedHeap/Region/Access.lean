import TaggedHeap.Region.Transfer
import TaggedHeap.Region.Word

/-!
Contract: checked access to a region.

A `ReadM` computation looks at a region and a `RegionM` computation changes it. Either may
stop at a fault; a change keeps the region as the fault found it. Growth is not a fault when
it is refused: the refusal is its answer.
-/

namespace TaggedHeap

abbrev ReadM := ReaderT Region (Except Fault)

abbrev RegionM := EStateM Fault Region

instance : MonadLift ReadM RegionM where
  monadLift look := fun region =>
    match look region with
    | .ok value => .ok value region
    | .error fault => .error fault region

namespace Region

def readWord (offset : Nat) : ReadM UInt32 := fun region =>
  if offset + 4 ≤ region.size then .ok (region.word offset) else .error .outOfBounds

def writeWord (offset : Nat) (value : UInt32) : RegionM Unit := fun region =>
  if offset + 4 ≤ region.size then
    .ok () (region.setWord offset value)
  else
    .error .outOfBounds region

/-- Appends `bytes` zero bytes, rounded up, and answers the offset of the first of them. A
region that lacks the room is left as it is. What the limit allows but no process can
address is a fault; only the limit of a dense region is that high. -/
def grow (bytes : Nat) : RegionM (Except Refusal Nat) := fun region =>
  if fits : region.size + roundUp bytes ≤ region.limit then
    if roundUp bytes < addressSpace then
      .ok (.ok region.size) (region.enlarge (roundUp bytes) (roundUp_mod bytes) fits)
    else
      .error .outOfMemory region
  else
    .ok (.error (.exhausted bytes (region.limit - region.size))) region

/-- Copies `count` bytes. The two ranges may overlap. -/
def copy (source target count : Nat) : RegionM Unit := fun region =>
  if source + count ≤ region.size ∧ target + count ≤ region.size then
    .ok () (region.transfer source target count)
  else
    .error .outOfBounds region

theorem readWord_of_le {region : Region} {offset : Nat} (inside : offset + 4 ≤ region.size) :
    readWord offset region = .ok (region.word offset) :=
  if_pos inside

theorem writeWord_of_le {region : Region} {offset : Nat} (value : UInt32)
    (inside : offset + 4 ≤ region.size) :
    writeWord offset value region = .ok () (region.setWord offset value) :=
  if_pos inside

theorem grow_of_le {region : Region} {bytes : Nat}
    (fits : region.size + roundUp bytes ≤ region.limit)
    (addressable : roundUp bytes < addressSpace) :
    grow bytes region =
      .ok (.ok region.size) (region.enlarge (roundUp bytes) (roundUp_mod bytes) fits) := by
  rw [grow, dif_pos fits, if_pos addressable]

theorem grow_of_lt {region : Region} {bytes : Nat}
    (lacks : region.limit < region.size + roundUp bytes) :
    grow bytes region =
      .ok (.error (.exhausted bytes (region.limit - region.size))) region :=
  dif_neg (Nat.not_le.2 lacks)

end Region

end TaggedHeap
