import TaggedHeap.Proofs.Block.Extent

/-!
Contract: blocks that lie one behind the other.

`Tiles start blocks stop` says that the blocks cover the space from `start` to `stop` without a
gap and in the order of their addresses. A tiling is the concatenation of tilings of its parts,
so a part may be replaced by other blocks that tile the same space.
-/

namespace TaggedHeap

/-- The size of a block: whole grains, with room for header, links and footer. -/
structure BlockInfo.Sized (info : BlockInfo) : Prop where
  wide : 16 ≤ info.size
  grained : info.size % 8 = 0

def Tiles : Nat → List BlockInfo → Nat → Prop
  | start, [], stop => start = stop
  | start, info :: rest, stop =>
      info.offset = start ∧ info.Sized ∧ Tiles (start + info.size) rest stop

/-- Number of bytes of some blocks. -/
def sizeSum : List BlockInfo → Nat
  | [] => 0
  | info :: rest => info.size + sizeSum rest

@[simp] theorem sizeSum_nil : sizeSum [] = 0 :=
  rfl

@[simp] theorem sizeSum_cons (info : BlockInfo) (rest : List BlockInfo) :
    sizeSum (info :: rest) = info.size + sizeSum rest :=
  rfl

theorem sizeSum_append (front back : List BlockInfo) :
    sizeSum (front ++ back) = sizeSum front + sizeSum back := by
  induction front with
  | nil => simp
  | cons info rest inductionHypothesis => simp [inductionHypothesis, Nat.add_assoc]

theorem tiles_append {front back : List BlockInfo} {start stop : Nat} :
    Tiles start (front ++ back) stop ↔
      ∃ middle, Tiles start front middle ∧ Tiles middle back stop := by
  induction front generalizing start with
  | nil =>
      constructor
      · intro tiles
        exact ⟨start, rfl, tiles⟩
      · rintro ⟨_, rfl, tiles⟩
        exact tiles
  | cons info rest inductionHypothesis =>
      simp only [List.cons_append, Tiles, inductionHypothesis]
      constructor
      · rintro ⟨place, sized, middle, inFront, behind⟩
        exact ⟨middle, ⟨place, sized, inFront⟩, behind⟩
      · rintro ⟨middle, ⟨place, sized, inFront⟩, behind⟩
        exact ⟨place, sized, middle, inFront, behind⟩

namespace Tiles

variable {start stop : Nat} {blocks front back : List BlockInfo} {info other : BlockInfo}

theorem stop_eq (tiles : Tiles start blocks stop) : stop = start + sizeSum blocks := by
  induction blocks generalizing start with
  | nil => exact tiles.symm
  | cons info rest inductionHypothesis =>
      rw [inductionHypothesis tiles.2.2, sizeSum_cons, Nat.add_assoc]

theorem le (tiles : Tiles start blocks stop) : start ≤ stop := by
  rw [tiles.stop_eq]
  exact Nat.le_add_right ..

theorem stop_mod (tiles : Tiles start blocks stop) (aligned : start % 8 = 0) : stop % 8 = 0 := by
  induction blocks generalizing start with
  | nil => exact tiles ▸ aligned
  | cons info rest inductionHypothesis =>
      have grained := tiles.2.1.grained
      exact inductionHypothesis tiles.2.2 (by omega)

theorem length_le (tiles : Tiles start blocks stop) : start + 16 * blocks.length ≤ stop := by
  induction blocks generalizing start with
  | nil => exact Nat.le_of_eq tiles
  | cons info rest inductionHypothesis =>
      have wide := tiles.2.1.wide
      have behind := inductionHypothesis tiles.2.2
      rw [List.length_cons]
      omega

theorem sizeSum_mod (tiles : Tiles start blocks stop) : sizeSum blocks % 8 = 0 := by
  induction blocks generalizing start with
  | nil => rfl
  | cons info rest inductionHypothesis =>
      have grained := tiles.2.1.grained
      have behind := inductionHypothesis tiles.2.2
      rw [sizeSum_cons]
      omega

/-! ## A block among the others -/

/-- The block in the middle begins where those in front of it end. -/
theorem middle (tiles : Tiles start (front ++ info :: back) stop) :
    Tiles start front info.offset ∧ info.Sized ∧ Tiles (info.offset + info.size) back stop := by
  obtain ⟨_, inFront, rfl, sized, behind⟩ := tiles_append.1 tiles
  exact ⟨inFront, sized, behind⟩

theorem of_middle (inFront : Tiles start front info.offset) (sized : info.Sized)
    (behind : Tiles (info.offset + info.size) back stop) :
    Tiles start (front ++ info :: back) stop :=
  tiles_append.2 ⟨info.offset, inFront, rfl, sized, behind⟩

variable (tiles : Tiles start blocks stop)

include tiles

/-- A walk over the blocks has come to a block, and goes on behind it. -/
theorem advance (split : blocks = front ++ info :: back) {place : Nat}
    (inFront : Tiles start front place) :
    place = info.offset ∧ blocks = (front ++ [info]) ++ back ∧
      Tiles start (front ++ [info]) (info.offset + info.size) := by
  rw [split] at tiles ⊢
  obtain ⟨tilesFront, sized, -⟩ := tiles.middle
  exact ⟨inFront.stop_eq.trans tilesFront.stop_eq.symm, by simp, of_middle tilesFront sized rfl⟩

theorem sized_of_mem (member : info ∈ blocks) : info.Sized := by
  obtain ⟨front, back, rfl⟩ := List.append_of_mem member
  exact tiles.middle.2.1

theorem start_le_of_mem (member : info ∈ blocks) : start ≤ info.offset := by
  obtain ⟨front, back, rfl⟩ := List.append_of_mem member
  exact tiles.middle.1.le

theorem le_stop_of_mem (member : info ∈ blocks) : info.offset + info.size ≤ stop := by
  obtain ⟨front, back, rfl⟩ := List.append_of_mem member
  exact tiles.middle.2.2.le

theorem offset_mod_of_mem (aligned : start % 8 = 0) (member : info ∈ blocks) :
    info.offset % 8 = 0 := by
  obtain ⟨front, back, rfl⟩ := List.append_of_mem member
  exact tiles.middle.1.stop_mod aligned

theorem apart_of_mem (member : info ∈ blocks) (otherMember : other ∈ blocks) :
    info = other ∨ info.Apart other := by
  obtain ⟨front, back, rfl⟩ := List.append_of_mem member
  obtain ⟨inFront, -, behind⟩ := tiles.middle
  rcases List.mem_append.1 otherMember with otherFront | otherBack
  · exact .inr (.inr (inFront.le_stop_of_mem otherFront))
  · rcases List.mem_cons.1 otherBack with rfl | otherBehind
    · exact .inl rfl
    · exact .inr (.inl (behind.start_le_of_mem otherBehind))

theorem eq_of_offset (member : info ∈ blocks) (otherMember : other ∈ blocks)
    (same : info.offset = other.offset) : info = other := by
  rcases tiles.apart_of_mem member otherMember with equal | apart
  · exact equal
  · have wide := (tiles.sized_of_mem member).wide
    have otherWide := (tiles.sized_of_mem otherMember).wide
    have separated := apart.separated
    omega

theorem eq_of_end (member : info ∈ blocks) (otherMember : other ∈ blocks)
    (same : info.offset + info.size = other.offset + other.size) : info = other := by
  rcases tiles.apart_of_mem member otherMember with equal | apart
  · exact equal
  · have wide := (tiles.sized_of_mem member).wide
    have otherWide := (tiles.sized_of_mem otherMember).wide
    have separated := apart.separated
    omega

theorem offsets_nodup : (blocks.map BlockInfo.offset).Nodup := by
  induction blocks generalizing start with
  | nil => exact List.nodup_nil
  | cons info rest inductionHypothesis =>
      have wide := tiles.2.1.wide
      have place := tiles.1
      refine List.nodup_cons.2 ⟨?_, inductionHypothesis tiles.2.2⟩
      intro member
      obtain ⟨other, inRest, same⟩ := List.mem_map.1 member
      have behind := tiles.2.2.start_le_of_mem inRest
      omega

theorem nodup : blocks.Nodup :=
  List.Pairwise.of_map BlockInfo.offset (fun _ _ different same => different (congrArg _ same))
    tiles.offsets_nodup

end Tiles

end TaggedHeap
