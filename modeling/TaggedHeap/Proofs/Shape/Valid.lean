import Mathlib.Data.List.Chain
import TaggedHeap.Proofs.Shape.Edit

/-!
Contract: valid shapes, those that a heap has between two operations.

In a valid shape every free block is listed, and no free block that is not reserved lies
directly in front of another free block. While an operation runs the second rule may fail at the
block that it works on; the operations restore it by merging.
-/

namespace TaggedHeap

/-- Whether the block `next` may follow: two free blocks are neighbours only behind a reserved
one. -/
def BlockInfo.Admits (info next : BlockInfo) : Prop :=
  info.allocated = true ∨ info.reserved = true ∨ next.allocated = true

/-- No free block lies directly behind a free block that is not reserved. -/
def Separated (blocks : List BlockInfo) : Prop :=
  blocks.IsChain BlockInfo.Admits

section Separated

variable {info other : BlockInfo} {front back : List BlockInfo}

theorem separated_split : Separated (front ++ info :: back) ↔
    Separated (front ++ [info]) ∧ Separated (info :: back) :=
  List.isChain_split

theorem separated_concat : Separated (front ++ [info]) ↔
    Separated front ∧ ∀ last ∈ front.getLast?, last.Admits info := by
  simp [Separated, List.isChain_append]

theorem separated_cons : Separated (info :: back) ↔
    (∀ next ∈ back.head?, info.Admits next) ∧ Separated back :=
  List.isChain_cons

theorem Separated.concat_congr (separated : Separated (front ++ [info]))
    (same : info.allocated = true → other.allocated = true) : Separated (front ++ [other]) := by
  obtain ⟨inFront, seam⟩ := separated_concat.1 separated
  refine separated_concat.2 ⟨inFront, fun last isLast => ?_⟩
  rcases seam last isLast with allocated | reserved | next
  · exact .inl allocated
  · exact .inr (.inl reserved)
  · exact .inr (.inr (same next))

theorem Separated.concat_of_allocated (inFront : Separated front)
    (allocated : info.allocated = true) : Separated (front ++ [info]) :=
  separated_concat.2 ⟨inFront, fun _ _ => .inr (.inr allocated)⟩

theorem Separated.cons_of_allocated (behind : Separated back)
    (allocated : info.allocated = true) : Separated (info :: back) :=
  separated_cons.2 ⟨fun _ _ => .inl allocated, behind⟩

end Separated

namespace Shape

/-- Every free block is listed. -/
def Complete (shape : Shape) : Prop :=
  ∀ info ∈ shape.blocks, info.allocated = false → info ∈ shape.lists info.cls

structure Valid (shape : Shape) : Prop where
  sound : shape.Sound
  complete : shape.Complete
  separated : Separated shape.blocks

def allocated (shape : Shape) : List BlockInfo :=
  shape.blocks.filter BlockInfo.allocated

variable {shape later : Shape} {info : BlockInfo} {front part back : List BlockInfo}

/-- Where the allocated blocks begin, and their sizes. -/
def extents (shape : Shape) : List (Handle × Nat) :=
  shape.allocated.map fun info => (info.handle, info.size)

theorem mem_extents {handle : Handle} {size : Nat} : (handle, size) ∈ shape.extents ↔
    ∃ info ∈ shape.blocks, info.allocated = true ∧ info.handle = handle ∧ info.size = size := by
  simp [extents, allocated, and_assoc]

theorem present_of_allocated (member : info ∈ shape.blocks) (allocated : info.allocated = true) :
    (info.handle, info.size) ∈ shape.extents :=
  mem_extents.2 ⟨info, member, allocated, rfl, rfl⟩

/-- The allocated blocks at `old` became those at `new`, and all others stayed. -/
def Exchanges (shape later : Shape) (old new : List (Handle × Nat)) : Prop :=
  ∃ others, shape.extents.Perm (old ++ others) ∧ later.extents.Perm (new ++ others)

theorem Exchanges.mem_later {old new : List (Handle × Nat)}
    (exchanges : shape.Exchanges later old new) {pair : Handle × Nat} (isNew : pair ∈ new) :
    pair ∈ later.extents := by
  obtain ⟨others, -, after⟩ := exchanges
  exact after.symm.subset (List.mem_append_left others isNew)

theorem held_iff {index : Nat} : shape.Held index ↔ index + 16 < shape.start ∨
    ∃ handle size, (handle, size) ∈ shape.extents ∧
      handle.offset ≤ index ∧ index + 8 < handle.offset + size := by
  rw [Layout.Held]
  refine or_congr_right ⟨?_, ?_⟩
  · rintro ⟨info, member, allocated, inside⟩
    exact ⟨info.handle, info.size, mem_extents.2 ⟨info, member, allocated, rfl, rfl⟩, inside⟩
  · rintro ⟨handle, size, member, inside⟩
    obtain ⟨info, inBlocks, allocated, rfl, rfl⟩ := mem_extents.1 member
    exact ⟨info, inBlocks, allocated, inside⟩

theorem held_of_present {handle : Handle} {size index : Nat}
    (present : (handle, size) ∈ shape.extents) (inside : index + 8 < size) :
    shape.Held (handle.offset + index) :=
  held_iff.2 (.inr ⟨handle, size, present, Nat.le_add_right .., by omega⟩)

/-- What was held is held as long as its block is there. -/
theorem held_mono (part : shape.extents ⊆ later.extents) (start : later.start = shape.start)
    {index : Nat} (held : shape.Held index) : later.Held index := by
  rw [held_iff] at held ⊢
  rw [start]
  exact held.imp_right fun ⟨handle, size, member, inside⟩ => ⟨handle, size, part member, inside⟩

theorem held_congr (same : later.allocated = shape.allocated) (start : later.start = shape.start)
    {index : Nat} : later.Held index ↔ shape.Held index := by
  have extents : later.extents.Perm shape.extents :=
    List.Perm.of_eq (by rw [extents, extents, same])
  exact ⟨held_mono extents.subset start.symm, held_mono extents.symm.subset start⟩

theorem filter_allocated_of_free (free : AllFree part) : part.filter BlockInfo.allocated = [] := by
  rw [List.filter_eq_nil_iff]
  intro info member
  rw [free info member]
  exact Bool.false_ne_true

theorem mem_allocated : info ∈ shape.allocated ↔ info ∈ shape.blocks ∧ info.allocated = true :=
  List.mem_filter

theorem Complete.listed_part (complete : shape.Complete)
    (split : shape.blocks = front ++ (part ++ back))
    (free : AllFree part) :
    ∀ member ∈ part, member ∈ shape.lists member.cls := by
  intro member inPart
  apply complete member ?_ (free member inPart)
  rw [split]
  exact List.mem_append_right _ (List.mem_append_left _ inPart)

/-- The free blocks behind a block, as far as they reach, and what is behind them. -/
theorem exists_run (shape : Shape) (behind : List BlockInfo) :
    ∃ run back, behind = run ++ back ∧ AllFree run ∧ (shape.lead back).allocated = true := by
  induction behind with
  | nil =>
      refine ⟨[], [], rfl, ?_, rfl⟩
      intro info member
      cases member
  | cons head rest inductionHypothesis =>
      by_cases allocated : head.allocated = true
      · refine ⟨[], head :: rest, rfl, ?_, allocated⟩
        intro info member
        cases member
      · obtain ⟨run, back, rfl, free, ends⟩ := inductionHypothesis
        exact ⟨head :: run, back, rfl,
          allFree_cons.2 ⟨Bool.eq_false_of_not_eq_true allocated, free⟩, ends⟩

theorem separated_of_ends (behind : Separated back) (ends : (shape.lead back).allocated = true) :
    Separated (info :: back) := by
  refine separated_cons.2 ⟨fun next first => ?_, behind⟩
  cases back with
  | nil => cases first
  | cons head rest =>
      cases first
      exact .inr (.inr ends)

end Shape

end TaggedHeap
