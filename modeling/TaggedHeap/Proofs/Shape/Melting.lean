import TaggedHeap.Proofs.Shape.Valid

/-!
Contract: what is left of some blocks when payloads are released.

`Melted` says it for any number of payloads at once, without an order: every longest stretch of
blocks that are released or free already becomes one block. The main statement is
`Tiles.eq_of_separated`. Where nothing is reserved, the allocated blocks determine the free ones
between them, since no two free blocks are neighbours.
-/

namespace TaggedHeap

/-- The block has a payload that is not released. -/
def BlockInfo.Kept (gone : List Handle) (info : BlockInfo) : Prop :=
  info.allocated = true ∧ info.handle ∉ gone

/-- What becomes of some blocks when the handles `gone` are released. A stretch of blocks without a
kept payload ends at one that is kept, or with the heap. -/
inductive Melted (gone : List Handle) : List BlockInfo → List BlockInfo → Prop where
  | nil : Melted gone [] []
  | kept {info : BlockInfo} {blocks later : List BlockInfo} (isKept : info.Kept gone)
      (rest : Melted gone blocks later) : Melted gone (info :: blocks) (info :: later)
  | stretch {first : BlockInfo} {others blocks later : List BlockInfo}
      (loose : ∀ info ∈ first :: others, ¬info.Kept gone)
      (ends : ∀ next ∈ blocks.head?, next.Kept gone) (rest : Melted gone blocks later) :
      Melted gone (first :: others ++ blocks)
        (⟨first.handle, sizeSum (first :: others), false, false⟩ :: later)

theorem exists_melted (gone : List Handle) (blocks : List BlockInfo) :
    ∃ later, Melted gone blocks later := by
  induction blocks with
  | nil => exact ⟨[], .nil⟩
  | cons info rest inductionHypothesis =>
      obtain ⟨later, melted⟩ := inductionHypothesis
      by_cases isKept : info.Kept gone
      · exact ⟨_, .kept isKept melted⟩
      · have alone : ∀ other ∈ [info], ¬other.Kept gone := by simpa using isKept
        cases melted with
        | nil => exact ⟨_, .stretch alone nofun .nil⟩
        | @kept next blocks later nextKept rest =>
            refine ⟨_, @Melted.stretch gone info [] (next :: blocks) _ alone ?_ (.kept nextKept rest)⟩
            rintro _ ⟨⟩
            exact nextKept
        | @stretch first others blocks later loose ends rest =>
            exact ⟨_, @Melted.stretch gone info (first :: others) blocks later
              (List.forall_mem_cons.2 ⟨isKept, loose⟩) ends rest⟩

namespace Melted

variable {gone : List Handle} {blocks later : List BlockInfo} {info : BlockInfo} {start stop : Nat}
  (melted : Melted gone blocks later)

include melted

theorem tiles (tiles : Tiles start blocks stop) : Tiles start later stop := by
  induction melted generalizing start with
  | nil => exact tiles
  | kept isKept rest inductionHypothesis =>
      exact ⟨tiles.1, tiles.2.1, inductionHypothesis tiles.2.2⟩
  | stretch loose ends rest inductionHypothesis =>
      obtain ⟨middle, inFront, behind⟩ := tiles_append.1 tiles
      obtain rfl := inFront.stop_eq
      refine ⟨inFront.1, ⟨?_, inFront.sizeSum_mod⟩, inductionHypothesis behind⟩
      exact Nat.le_trans inFront.2.1.wide (Nat.le_add_right ..)

theorem allocated_head (ends : ∀ next ∈ blocks.head?, next.Kept gone) :
    ∀ next ∈ later.head?, next.allocated = true := by
  cases melted with
  | nil => exact nofun
  | kept isKept rest =>
      rintro _ ⟨⟩
      exact isKept.1
  | stretch loose _ rest => exact absurd (ends _ rfl) (loose _ List.mem_cons_self)

theorem separated : Separated later := by
  induction melted with
  | nil => exact List.isChain_nil
  | kept isKept rest inductionHypothesis =>
      exact inductionHypothesis.cons_of_allocated isKept.1
  | stretch loose ends rest inductionHypothesis =>
      refine separated_cons.2 ⟨fun next isNext => ?_, inductionHypothesis⟩
      exact .inr (.inr (rest.allocated_head ends next isNext))

theorem unreserved (unreserved : ∀ info ∈ blocks, info.reserved = false) :
    ∀ info ∈ later, info.reserved = false := by
  induction melted with
  | nil => exact nofun
  | kept isKept rest inductionHypothesis =>
      obtain ⟨first, others⟩ := List.forall_mem_cons.1 unreserved
      exact List.forall_mem_cons.2 ⟨first, inductionHypothesis others⟩
  | stretch loose ends rest inductionHypothesis =>
      obtain ⟨-, others⟩ := List.forall_mem_append.1 unreserved
      exact List.forall_mem_cons.2 ⟨rfl, inductionHypothesis others⟩

/-- The allocated blocks that are left are those that are kept. -/
theorem mem_iff (allocated : info.allocated = true) :
    info ∈ later ↔ info ∈ blocks ∧ info.handle ∉ gone := by
  induction melted with
  | nil => simp
  | @kept first blocks later isKept rest inductionHypothesis =>
      rw [List.mem_cons, List.mem_cons, inductionHypothesis]
      constructor
      · rintro (rfl | ⟨member, stays⟩)
        · exact ⟨.inl rfl, isKept.2⟩
        · exact ⟨.inr member, stays⟩
      · rintro ⟨rfl | member, stays⟩
        · exact .inl rfl
        · exact .inr ⟨member, stays⟩
  | @stretch first others blocks later loose ends rest inductionHypothesis =>
      rw [List.mem_cons, List.mem_append, inductionHypothesis]
      constructor
      · rintro (rfl | ⟨member, stays⟩)
        · exact absurd allocated Bool.false_ne_true
        · exact ⟨.inr member, stays⟩
      · rintro ⟨inStretch | member, stays⟩
        · exact absurd ⟨allocated, stays⟩ (loose info inStretch)
        · exact .inr ⟨member, stays⟩

end Melted

/-! ## Tilings that have the same allocated blocks -/

namespace Tiles

variable {start stop : Nat} {blocks others : List BlockInfo} {info other : BlockInfo}

/-- A free block reaches at least as far as another that begins at the same place, if all allocated
blocks behind it are behind the other as well. -/
theorem size_le_of_free (tiles : Tiles start (info :: blocks) stop)
    (otherTiles : Tiles start (other :: others) stop) (separated : Separated (info :: blocks))
    (free : info.allocated = false) (unreserved : info.reserved = false)
    (otherFree : other.allocated = false)
    (part : ∀ next ∈ blocks, next.allocated = true → next ∈ other :: others) :
    other.size ≤ info.size := by
  cases blocks with
  | nil =>
      have ends : start + info.size = stop := tiles.2.2
      have upTo := otherTiles.2.2.le
      omega
  | cons next rest =>
      obtain ⟨place, -⟩ := tiles.2.2
      have allocated : next.allocated = true := by
        rcases (separated_cons.1 separated).1 next rfl with isAllocated | isReserved | isAllocated
        · exact absurd (free.symm.trans isAllocated) Bool.false_ne_true
        · exact absurd (unreserved.symm.trans isReserved) Bool.false_ne_true
        · exact isAllocated
      rcases List.mem_cons.1 (part next List.mem_cons_self allocated) with rfl | isBehind
      · exact absurd (otherFree.symm.trans allocated) Bool.false_ne_true
      · have lower := otherTiles.2.2.start_le_of_mem isBehind
        omega

section Determined

variable (tiles : Tiles start blocks stop) (otherTiles : Tiles start others stop)
  (separated : Separated blocks) (otherSeparated : Separated others)
  (unreserved : ∀ info ∈ blocks, info.reserved = false)
  (otherUnreserved : ∀ info ∈ others, info.reserved = false)
  (same : ∀ info : BlockInfo, info.allocated = true → (info ∈ blocks ↔ info ∈ others))

include tiles otherTiles separated otherSeparated unreserved otherUnreserved same

theorem first_eq (first : info ∈ blocks.head?) (otherFirst : other ∈ others.head?) :
    info = other := by
  obtain ⟨rest, rfl⟩ := List.head?_eq_some_iff.1 first
  obtain ⟨otherRest, rfl⟩ := List.head?_eq_some_iff.1 otherFirst
  have offset : info.offset = other.offset := tiles.1.trans otherTiles.1.symm
  by_cases allocated : info.allocated = true
  · have member := (same info allocated).1 List.mem_cons_self
    exact otherTiles.eq_of_offset member List.mem_cons_self offset
  by_cases otherAllocated : other.allocated = true
  · have member := (same other otherAllocated).2 List.mem_cons_self
    exact tiles.eq_of_offset List.mem_cons_self member offset
  rw [Bool.not_eq_true] at allocated otherAllocated
  obtain ⟨infoUnreserved, -⟩ := List.forall_mem_cons.1 unreserved
  obtain ⟨otherIsUnreserved, -⟩ := List.forall_mem_cons.1 otherUnreserved
  have noLarger := tiles.size_le_of_free otherTiles separated allocated infoUnreserved
    otherAllocated fun next member isAllocated =>
      (same next isAllocated).1 (List.mem_cons_of_mem _ member)
  have noSmaller := otherTiles.size_le_of_free tiles otherSeparated otherAllocated
    otherIsUnreserved allocated fun next member isAllocated =>
      (same next isAllocated).2 (List.mem_cons_of_mem _ member)
  have size : info.size = other.size := Nat.le_antisymm noSmaller noLarger
  calc
    info = ⟨⟨info.offset⟩, info.size, info.allocated, info.reserved⟩ := rfl
    _ = ⟨⟨other.offset⟩, other.size, other.allocated, other.reserved⟩ := by
      rw [offset, size, allocated, otherAllocated, infoUnreserved, otherIsUnreserved]
    _ = other := rfl

/-- Blocks of which none is reserved and no two free ones are neighbours are determined by the
allocated ones among them. -/
theorem eq_of_separated : blocks = others := by
  induction blocks generalizing start others with
  | nil =>
      have empty : start = stop := tiles
      have fits := otherTiles.length_le
      exact (List.eq_nil_of_length_eq_zero (by omega)).symm
  | cons info rest inductionHypothesis =>
      cases others with
      | nil =>
          have empty : start = stop := otherTiles
          have fits := tiles.length_le
          rw [List.length_cons] at fits
          omega
      | cons other others =>
          obtain rfl := tiles.first_eq otherTiles separated otherSeparated unreserved
            otherUnreserved same rfl rfl
          obtain ⟨fresh, -⟩ := List.nodup_cons.1 tiles.nodup
          obtain ⟨otherFresh, -⟩ := List.nodup_cons.1 otherTiles.nodup
          have behind : ∀ next : BlockInfo, next.allocated = true →
              (next ∈ rest ↔ next ∈ others) := by
            intro next allocated
            have alike := same next allocated
            rw [List.mem_cons, List.mem_cons] at alike
            constructor
            · intro member
              exact (alike.1 (.inr member)).resolve_left fun isFirst => fresh (isFirst ▸ member)
            · intro member
              exact (alike.2 (.inr member)).resolve_left fun isFirst =>
                otherFresh (isFirst ▸ member)
          rw [inductionHypothesis tiles.2.2 otherTiles.2.2 (separated_cons.1 separated).2
            (separated_cons.1 otherSeparated).2 (List.forall_mem_cons.1 unreserved).2
            (List.forall_mem_cons.1 otherUnreserved).2 behind]

end Determined

end Tiles

end TaggedHeap
