import TaggedHeap.Proofs.FreeList.Filing
import TaggedHeap.Proofs.FreeList.Search

/-!
Contract: the order of a free list, and what the search makes of it.

A block is filed in front of every block of its size, so blocks of one size stand in their list
with the latest first. `FreeLists.Follows` says that some lists have come about from others by
filing certain blocks and by removals; filing, unfiling and marking are cases of it, and it
composes. The search picks the first of the smallest blocks that fit, and misses none.
-/

namespace TaggedHeap

/-- Where a block begins, and its size. -/
def BlockInfo.extent (info : BlockInfo) : Handle × Nat :=
  (info.handle, info.size)

namespace FreeLists

variable {lists middle later : FreeLists} {info other : BlockInfo} {cls : SizeClass}
  {newer older : Handle × Nat} {recent more : List (Handle × Nat)}

def Lists (lists : FreeLists) (extent : Handle × Nat) : Prop :=
  ∃ cls, extent ∈ (lists cls).map BlockInfo.extent

def Precedes (lists : FreeLists) (newer older : Handle × Nat) : Prop :=
  ∃ cls, [newer, older].Sublist ((lists cls).map BlockInfo.extent)

/-- Of two blocks of one size the one that stands in front was filed later, by the account
`filedLater` of what was filed when. -/
def OrderedBy (lists : FreeLists) (filedLater : Handle × Nat → Handle × Nat → Prop) : Prop :=
  ∀ newer older, newer.2 = older.2 → lists.Precedes newer older → filedLater newer older

/-- The blocks `recent`, the latest first, were filed on the way from the one to the other. A block
precedes another of its size if it did so before, or if it was filed later. -/
structure Follows (lists later : FreeLists) (recent : List (Handle × Nat)) : Prop where
  listed : ∀ {extent}, later.Lists extent → extent ∈ recent ∨ lists.Lists extent
  ordered : ∀ {newer older}, newer.2 = older.2 → later.Precedes newer older →
    lists.Precedes newer older ∨ newer ∈ recent ∧ lists.Lists older ∨
      [newer, older].Sublist recent

namespace Follows

theorem trans (first : lists.Follows middle recent) (second : middle.Follows later more) :
    lists.Follows later (more ++ recent) where
  listed present := by
    rcases second.listed present with inMore | inMiddle
    · exact .inl (List.mem_append_left _ inMore)
    · exact (first.listed inMiddle).imp_left (List.mem_append_right _)
  ordered same precedes := by
    rcases second.ordered same precedes with before | ⟨inMore, wasListed⟩ | both
    · rcases first.ordered same before with initially | ⟨inRecent, wasListed⟩ | both
      · exact .inl initially
      · exact .inr (.inl ⟨List.mem_append_right _ inRecent, wasListed⟩)
      · exact .inr (.inr (both.trans (List.sublist_append_right ..)))
    · rcases first.listed wasListed with inRecent | initially
      · have inOrder := (List.singleton_sublist.2 inMore).append (List.singleton_sublist.2 inRecent)
        exact .inr (.inr inOrder)
      · exact .inr (.inl ⟨List.mem_append_left _ inMore, initially⟩)
    · exact .inr (.inr (both.trans (List.sublist_append_left ..)))

/-- Lists that lost members, or the marks of which have changed. -/
theorem of_sublist (part : ∀ cls,
      ((later cls).map BlockInfo.extent).Sublist ((lists cls).map BlockInfo.extent)) :
    lists.Follows later [] where
  listed := fun ⟨cls, member⟩ => .inr ⟨cls, (part cls).subset member⟩
  ordered := fun _ ⟨cls, inOrder⟩ => .inl ⟨cls, inOrder.trans (part cls)⟩

theorem refl (lists : FreeLists) : lists.Follows lists [] :=
  of_sublist fun _ => List.Sublist.refl _

theorem without (lists : FreeLists) (removed : List BlockInfo) :
    lists.Follows (lists.without removed) [] :=
  of_sublist fun _ => List.filter_sublist.map _

end Follows

/-- A pair that stands in a list stood there before a member was added, or has that member. -/
theorem pair_of_inserted {α : Type} {first second added : α} {front back : List α}
    (inOrder : [first, second].Sublist (front ++ added :: back)) :
    [first, second].Sublist (front ++ back) ∨ first = added ∧ second ∈ back ∨
      second = added ∧ first ∈ front := by
  obtain ⟨left, right, cut, inFront, behind⟩ := List.sublist_append_iff.1 inOrder
  match left, cut with
  | [], cut =>
      obtain rfl := cut
      cases behind with
      | cons _ later => exact .inl (later.trans (List.sublist_append_right ..))
      | cons_cons _ rest => exact .inr (.inl ⟨rfl, List.singleton_sublist.1 rest⟩)
  | [_], cut =>
      obtain ⟨rfl, rfl⟩ := List.cons.inj cut
      have firstIn := List.singleton_sublist.1 inFront
      rcases List.mem_cons.1 (List.singleton_sublist.1 behind) with rfl | inBack
      · exact .inr (.inr ⟨rfl, firstIn⟩)
      · exact .inl (inFront.append (List.singleton_sublist.2 inBack))
  | [_, _], cut =>
      obtain ⟨rfl, rest⟩ := List.cons.inj cut
      obtain ⟨rfl, -⟩ := List.cons.inj rest
      exact .inl (inFront.trans (List.sublist_append_left ..))
  | _ :: _ :: _ :: _, cut => simp at cut

theorem follows_filed (lists : FreeLists) (info : BlockInfo) :
    lists.Follows (lists.filed info) [info.extent] where
  listed := by
    rintro extent ⟨cls, isExtent⟩
    obtain ⟨other, member, rfl⟩ := List.mem_map.1 isExtent
    rcases mem_filed.1 member with old | ⟨rfl, -⟩
    · exact .inr ⟨cls, List.mem_map_of_mem old⟩
    · exact .inl (List.mem_singleton_self _)
  ordered := by
    rintro newer older same ⟨cls, inOrder⟩
    by_cases own : cls = info.cls
    · subst cls
      obtain ⟨front, back, before, seated⟩ := info.exists_seated (lists info.cls)
      rw [filed_of_seated before seated, List.map_append, List.map_cons] at inOrder
      rcases pair_of_inserted inOrder with stays | ⟨rfl, inBack⟩ | ⟨rfl, inFront⟩
      · exact .inl ⟨info.cls, by rwa [before, List.map_append]⟩
      · refine .inr (.inl ⟨List.mem_singleton_self _, info.cls, ?_⟩)
        rw [before, List.map_append]
        exact List.mem_append_right _ inBack
      · obtain ⟨other, member, rfl⟩ := List.mem_map.1 inFront
        exact absurd same (Nat.ne_of_lt (seated.behind other member))
    · rw [filed_of_ne own] at inOrder
      exact .inl ⟨cls, inOrder⟩

/-- What is filed and removed again might as well not have been filed. -/
theorem without_filed {gone : List BlockInfo} (lists : FreeLists) (member : info ∈ gone) :
    (lists.filed info).without gone = lists.without gone := by
  funext cls
  by_cases own : cls = info.cls
  · subst cls
    obtain ⟨front, back, before, seated⟩ := info.exists_seated (lists info.cls)
    rw [without, without, filed_of_seated before seated, before, List.filter_append, List.filter_append,
      List.filter_cons_of_neg (by simpa using member)]
  · rw [without, without, filed_of_ne own]

/-! ## The search -/

theorem above_sorted (first : SizeClass) : first.above.Pairwise (· < ·) :=
  (List.pairwise_lt_finRange 20).sublist (List.drop_sublist ..)

theorem mem_above_of_fits {size : Nat} (orderly : lists.Orderly) (member : other ∈ lists cls)
    (fits : other.fits size = true) : cls ∈ (SizeClass.ofSize size).above := by
  rw [BlockInfo.fits, Bool.and_eq_true, decide_eq_true_iff] at fits
  rw [SizeClass.mem_above, ← orderly.classed member]
  exact SizeClass.ofSize_mono fits.1

/-- The search misses no block that fits. -/
theorem not_fits_of_missing {size : Nat} (orderly : lists.Orderly)
    (missing : lists.fit size = none) (member : other ∈ lists cls) : ¬other.fits size = true := by
  intro fits
  have inClass := List.findSome?_eq_none_iff.1 missing cls (mem_above_of_fits orderly member fits)
  exact List.find?_eq_none.1 inClass other member fits

/-- Among the blocks that fit, the search finds one of the smallest, and of these the first. -/
theorem fit_least {size : Nat} (orderly : lists.Orderly) (found : lists.fit size = some info)
    (member : other ∈ lists cls) (fits : other.fits size = true) : info.size ≤ other.size ∧
      (other.size = info.size → other = info ∨ lists.Precedes info.extent other.extent) := by
  obtain ⟨smaller, own, larger, classes, first, skipped⟩ :=
    List.findSome?_eq_some_iff.1 found
  obtain ⟨-, front, back, split, passed⟩ := List.find?_eq_some_iff_append.1 first
  have infoMember : info ∈ lists own := by simp [split]
  have candidate := mem_above_of_fits orderly member fits
  have increasing := above_sorted (SizeClass.ofSize size)
  rw [classes] at candidate increasing
  rcases List.mem_append.1 candidate with isSmaller | isOther
  · exact absurd fits (List.find?_eq_none.1 (skipped cls isSmaller) other member)
  rcases List.mem_cons.1 isOther with rfl | isLarger
  · have sorted := orderly.sorted cls
    rw [split] at member sorted
    rcases List.mem_append.1 member with inFront | notFront
    · have unfit := passed other inFront
      rw [fits] at unfit
      exact absurd unfit Bool.false_ne_true
    rcases List.mem_cons.1 notFront with rfl | inBack
    · exact ⟨Nat.le_refl _, fun _ => .inl rfl⟩
    · have noLarger := (List.pairwise_cons.1 (List.pairwise_append.1 sorted).2.1).1 other inBack
      refine ⟨noLarger, fun _ => .inr ⟨cls, ?_⟩⟩
      rw [split, List.map_append, List.map_cons]
      exact ((List.singleton_sublist.2 (List.mem_map_of_mem inBack)).cons_cons _).trans
        (List.sublist_append_right ..)
  · have below := (List.pairwise_cons.1 (List.pairwise_append.1 increasing).2.1).1 cls isLarger
    have smallerSize : info.size < other.size := by
      by_contra notSmaller
      have noLarger := SizeClass.ofSize_mono (Nat.le_of_not_lt notSmaller)
      have infoClass : SizeClass.ofSize info.size = own := orderly.classed infoMember
      have otherClass : SizeClass.ofSize other.size = cls := orderly.classed member
      rw [infoClass, otherClass] at noLarger
      exact absurd below (not_lt.2 noLarger)
    exact ⟨Nat.le_of_lt smallerSize, fun same => absurd same (Nat.ne_of_gt smallerSize)⟩

end FreeLists

end TaggedHeap
