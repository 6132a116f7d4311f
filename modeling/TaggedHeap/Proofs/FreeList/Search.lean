import TaggedHeap.Proofs.FreeList.Basic

/-!
Contract: the search for a free block.

On a heap that stores orderly lists, the search never faults. It finds the first member that fits
in the first class that has one, the classes taken from that of the request upwards.
-/

namespace TaggedHeap

/-- Whether a request of `size` bytes may be served by a free block. -/
def BlockInfo.fits (size : Nat) (info : BlockInfo) : Bool :=
  decide (size ≤ info.size) && !info.reserved

namespace FreeLists

def fitIn (lists : FreeLists) (size : Nat) (classes : List SizeClass) : Option BlockInfo :=
  classes.findSome? fun cls => (lists cls).find? (BlockInfo.fits size)

def fit (lists : FreeLists) (size : Nat) : Option BlockInfo :=
  lists.fitIn size (SizeClass.ofSize size).above

variable {lists : FreeLists} {info : BlockInfo} {size : Nat}

theorem mem_of_fit (found : lists.fit size = some info) :
    ∃ cls, info ∈ lists cls ∧ size ≤ info.size ∧ info.reserved = false := by
  obtain ⟨cls, -, first⟩ := List.exists_of_findSome?_eq_some found
  have fits := List.find?_some first
  rw [BlockInfo.fits, Bool.and_eq_true, decide_eq_true_iff, Bool.not_eq_true'] at fits
  exact ⟨cls, List.mem_of_find?_eq_some first, fits.1, fits.2⟩

end FreeLists

namespace Heap

variable {heap : Heap} {lists : FreeLists}

theorem firstFit_of_linked {region : Region} {members : List BlockInfo} (size : Nat)
    {previous : Option Block} {patience : Nat} (linked : Linked region previous members none)
    (resident : ∀ member ∈ members, region.Resident member)
    (free : ∀ member ∈ members, member.allocated = false)
    (patient : members.length < patience) :
    (firstFit size patience (firstOr members none)).run region =
      .ok ((members.find? (BlockInfo.fits size)).map BlockInfo.block) := by
  induction members generalizing previous patience with
  | nil =>
      obtain ⟨patience, rfl⟩ := Nat.exists_eq_add_one_of_ne_zero (Nat.ne_zero_of_lt patient)
      rfl
  | cons member rest inductionHypothesis =>
      obtain ⟨patience, rfl⟩ := Nat.exists_eq_add_one_of_ne_zero (Nat.ne_zero_of_lt patient)
      have memberResident := resident member List.mem_cons_self
      have tag : (member.block.tag).run region = .ok member.tag := memberResident.tag_eq
      have condition : (size ≤ member.tag.size ∧ member.tag.reserved = false) ↔
          member.fits size = true := by
        rw [BlockInfo.fits, Bool.and_eq_true, decide_eq_true_iff, Bool.not_eq_true']
        rfl
      rw [firstOr, firstFit, ReadM.run_bind tag, List.find?_cons]
      by_cases fits : member.fits size = true
      · rw [if_pos (condition.2 fits), fits]
        rfl
      · have links : (member.block.links).run region = .ok ⟨previous, firstOr rest none⟩ := by
          rw [← linked.1]
          exact memberResident.links_eq (free member List.mem_cons_self)
        rw [if_neg (mt condition.1 fits), ReadM.run_bind links, Bool.eq_false_of_not_eq_true fits]
        exact inductionHypothesis linked.2
          (fun other inRest => resident other (List.mem_cons_of_mem _ inRest))
          (fun other inRest => free other (List.mem_cons_of_mem _ inRest))
          (Nat.lt_of_succ_lt_succ patient)

theorem searchIn_of_stored (stored : FreeLists.Stored heap.region heap.heads lists)
    (orderly : lists.Orderly) (size : Nat) (classes : List SizeClass) :
    (heap.searchIn size classes).run heap.region =
      .ok ((lists.fitIn size classes).map BlockInfo.block) := by
  induction classes with
  | nil => rfl
  | cons cls classes inductionHypothesis =>
      have patienceIs : patience.run heap.region = .ok (heap.region.size + 1) := rfl
      have headIs : heap.head cls = firstOr (lists cls) none := stored.first cls
      have searched := firstFit_of_linked size (stored.linked cls) (fun _ => stored.resident)
        (fun _ => orderly.free) (Nat.lt_succ_of_le (stored.length_le orderly cls))
      rw [searchIn, ReadM.run_bind patienceIs, headIs, ReadM.run_bind searched]
      rw [FreeLists.fitIn, List.findSome?_cons]
      cases (lists cls).find? (BlockInfo.fits size) with
      | none => exact inductionHypothesis
      | some found => rfl

theorem search_run (stored : FreeLists.Stored heap.region heap.heads lists)
    (orderly : lists.Orderly) (size : Nat) :
    (search size).run heap = .ok ((lists.fit size).map BlockInfo.block) heap := by
  rw [search, HeapM.run_bind HeapM.run_get]
  exact HeapM.run_read (searchIn_of_stored stored orderly size _)

end Heap

end TaggedHeap
