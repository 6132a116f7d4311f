import Mathlib.Logic.Function.Basic
import TaggedHeap.Proofs.FreeList.Recency

/-!
Contract: the free lists in memory refine sorted lists.

Heads and links represent one sorted list for each size class. Filing a block inserts it into its
list, unfiling takes one member out, and the search looks for the first block that fits. An edit
reaches two links at most besides those of the block itself, and one head.
-/

namespace TaggedHeap

namespace FreeLists

variable {lists : FreeLists} {info : BlockInfo} {cls : SizeClass} {front back : List BlockInfo}

theorem filed_eq_update (split : lists info.cls = front ++ back)
    (seated : info.Seated front back) :
    lists.filed info = Function.update lists info.cls (front ++ info :: back) := by
  funext other
  by_cases own : other = info.cls
  · subst own
    rw [filed_of_seated split seated, Function.update_self]
  · rw [filed_of_ne own, Function.update_of_ne own]

theorem without_eq_update (orderly : lists.Orderly) (split : lists cls = front ++ info :: back) :
    lists.without [info] = Function.update lists cls (front ++ back) := by
  have member : info ∈ lists cls := by simp [split]
  funext other
  by_cases own : other = cls
  · subst own
    rw [Function.update_self, without_of_split (orderly.distinct other) split]
  · rw [← orderly.classed member] at own
    rw [orderly.without_of_ne own, Function.update_of_ne]
    rwa [← orderly.classed member]

/-- The search looks through the lists as if they were one. -/
theorem fit_eq_find (lists : FreeLists) (size : Nat) :
    lists.fit size = ((SizeClass.ofSize size).above.flatMap lists).find? (BlockInfo.fits size) := by
  rw [fit, fitIn, List.find?_flatMap]

end FreeLists

namespace Heap

/-- The list of `cls` has changed between `front` and `back` and nowhere else: of the heads at most
that of this list is another one, and of the bytes at most those in `own` and in the two links by
which the neighbours name what is between them. -/
structure Splices (before after : Heap) (cls : SizeClass) (front back : List BlockInfo)
    (own : Nat → Prop) : Prop where
  heads : ∀ other ≠ cls, after.heads.get other = before.heads.get other
  bytes : ∀ index, ¬own index →
    (⟨lastOr front none, firstOr back none⟩ : Links).Spares index →
      after.region.byte index = before.region.byte index
  size : after.region.size = before.region.size
  limit : after.region.limit = before.region.limit
  policy : after.policy = before.policy
  prologue : after.prologue = before.prologue
  journal : after.journal = before.journal

/-- The heads and the links of the heap represent the lists. -/
structure Represents (heap : Heap) (lists : FreeLists) : Prop where
  stored : FreeLists.Stored heap.region heap.heads lists
  orderly : lists.Orderly

variable {heap : Heap} {lists : FreeLists} {info : BlockInfo} {cls : SizeClass}
  {front back : List BlockInfo}

theorem heads_rehead {previous member : Option Block} {other : SizeClass}
    (foreign : other ≠ cls) :
    (rehead heap.heads cls previous member).get other = heap.heads.get other := by
  rw [get_rehead, if_neg fun both => foreign both.2.symm]

theorem Represents.unfiles (represents : heap.Represents lists) (own : info.cls = cls)
    (split : lists cls = front ++ info :: back) :
    ∃ after, (unfile info.block).run heap = .ok () after ∧
      after.Represents (Function.update lists cls (front ++ back)) ∧
      heap.Splices after cls front back (fun _ => False) := by
  obtain ⟨stored, orderly⟩ := represents
  subst own
  obtain ⟨ran, later⟩ := unfile_spliced stored orderly split
  have remaining := orderly.without [info]
  rw [FreeLists.without_eq_update orderly split] at later remaining
  refine ⟨_, ran, ⟨later, remaining⟩, ⟨fun _ => heads_rehead, ?_, ?_, ?_, rfl, rfl, rfl⟩⟩
  · exact fun _ _ spared => Region.byte_unlink_of_spared spared
  · exact Region.size_unlink ..
  · exact Region.limit_unlink ..

theorem Represents.files (represents : heap.Represents lists)
    (resident : heap.region.Resident info) (free : info.allocated = false)
    (apart : ∀ cls, ∀ other ∈ lists cls, info.Apart other) :
    ∃ front back filed, lists info.cls = front ++ back ∧ info.Seated front back ∧
      (file info.block).run heap = .ok () filed ∧
      filed.Represents (Function.update lists info.cls (front ++ info :: back)) ∧
      heap.Splices filed info.cls front back
        (fun index => info.offset ≤ index ∧ index < info.offset + 8) := by
  obtain ⟨stored, orderly⟩ := represents
  have fresh : ∀ cls, info ∉ lists cls := fun cls listed =>
    (resident.block_ne_of_apart resident (apart cls info listed)) rfl
  obtain ⟨front, back, split, seated, ran, later⟩ :=
    file_spliced stored orderly resident fun listed => apart _ _ listed
  have extended := orderly.filed free fresh fun listed => apart _ _ listed
  rw [FreeLists.filed_eq_update split seated] at later extended
  refine ⟨front, back, _, split, seated, ran, ⟨later, extended⟩,
    ⟨fun _ => heads_rehead, ?_, ?_, ?_, rfl, rfl, rfl⟩⟩
  · intro index outside spared
    refine Region.byte_linkIn_of_spared ?_ spared
    rw [BlockInfo.offset_block]
    omega
  · exact Region.size_linkIn ..
  · exact Region.limit_linkIn ..

/-- Taking out the block that was filed leads back to the lists from before. -/
theorem Represents.unfiles_filed {filed : Heap} (split : lists info.cls = front ++ back)
    (represents : filed.Represents (Function.update lists info.cls (front ++ info :: back))) :
    ∃ last, (unfile info.block).run filed = .ok () last ∧ last.Represents lists := by
  obtain ⟨last, ran, later, -⟩ := represents.unfiles rfl (Function.update_self ..)
  rw [Function.update_idem, ← split, Function.update_eq_self] at later
  exact ⟨last, ran, later⟩

/-- On a heap that represents orderly lists, whatever blocks these are, filing a free block that is
apart from all members puts it in front of the first member of its class that is not smaller, and
unfiling it then leads back to the same lists; unfiling a member takes that member out of its list;
and the search answers the first member that fits and is not reserved, the lists taken one after
the other from the class of the request on. Nothing changes but the links of the block that is
filed, one link of each neighbour, and the head of the list. -/
theorem Represents.refines_sorted (represents : heap.Represents lists) :
    (∀ info, heap.region.Resident info → info.allocated = false →
      (∀ cls, ∀ other ∈ lists cls, info.Apart other) →
      ∃ front back filed last, lists info.cls = front ++ back ∧ info.Seated front back ∧
        (file info.block).run heap = .ok () filed ∧
        filed.Represents (Function.update lists info.cls (front ++ info :: back)) ∧
        heap.Splices filed info.cls front back
          (fun index => info.offset ≤ index ∧ index < info.offset + 8) ∧
        (unfile info.block).run filed = .ok () last ∧ last.Represents lists) ∧
    (∀ cls, ∀ info ∈ lists cls, ∃ front back after, lists cls = front ++ info :: back ∧
      (unfile info.block).run heap = .ok () after ∧
      after.Represents (Function.update lists cls (front ++ back)) ∧
      heap.Splices after cls front back (fun _ => False)) ∧
    ∀ size, (search size).run heap =
      .ok ((((SizeClass.ofSize size).above.flatMap lists).find? (BlockInfo.fits size)).map
        BlockInfo.block) heap := by
  refine ⟨fun info resident free apart => ?_, fun cls info member => ?_, fun size => ?_⟩
  · obtain ⟨front, back, filed, split, seated, ran, later, splices⟩ :=
      represents.files resident free apart
    obtain ⟨last, unfiled, restored⟩ := Represents.unfiles_filed split later
    exact ⟨front, back, filed, last, split, seated, ran, later, splices, unfiled, restored⟩
  · obtain ⟨front, back, split⟩ := List.append_of_mem member
    obtain ⟨after, ran, later, splices⟩ :=
      represents.unfiles (represents.orderly.classed member) split
    exact ⟨front, back, after, split, ran, later, splices⟩
  · rw [← FreeLists.fit_eq_find]
    exact search_run represents.stored represents.orderly size

/-- A heap without members represents empty lists. -/
theorem represents_blank (region : Region) (policy : Policy) :
    (blank region policy).Represents (fun _ => []) where
  stored := ⟨nofun, fun _ => Vector.getElem_replicate .., fun _ => trivial⟩
  orderly := ⟨nofun, nofun, fun _ => List.Pairwise.nil, fun _ => List.nodup_nil, nofun⟩

/-- Two blocks of one class are filed, the larger one is found, and the smaller one taken out. -/
theorem refines_sorted_of_blank : ∃ start first second last : Heap,
    start.Represents (fun _ => []) ∧ (file ⟨8⟩).run start = .ok () first ∧
      (file ⟨24⟩).run first = .ok () second ∧
      second.Represents (Function.update (fun _ => []) 4
        [⟨⟨8⟩, 16, false, false⟩, ⟨⟨24⟩, 24, false, false⟩]) ∧
      (search 20).run second = .ok (some ⟨24⟩) second ∧
      (unfile ⟨8⟩).run second = .ok () last ∧
      last.Represents (Function.update (fun _ => []) 4 [⟨⟨24⟩, 24, false, false⟩]) := by
  obtain ⟨region, small, large⟩ : ∃ region : Region,
      region.Resident ⟨⟨8⟩, 16, false, false⟩ ∧ region.Resident ⟨⟨24⟩, 24, false, false⟩ := by
    refine ⟨(((Region.ofLimit 64).enlarge 64 rfl (by decide)).stamp
      ⟨⟨8⟩, 16, false, false⟩).stamp ⟨⟨24⟩, 24, false, false⟩, ?_, ?_⟩
    · exact ⟨by decide, by decide, by decide +kernel, by decide, by decide +kernel⟩
    · exact ⟨by decide, by decide, by decide +kernel, by decide, by decide +kernel⟩
  have empty := represents_blank region {}
  obtain ⟨front, back, first, -, split, -, filed, one, splices, -⟩ :=
    (Represents.refines_sorted empty).1 _ small rfl nofun
  obtain ⟨rfl, rfl⟩ := List.append_eq_nil_iff.1 split.symm
  have stays : first.region.Resident ⟨⟨24⟩, 24, false, false⟩ := by
    refine large.congr splices.size.ge fun index lower upper => splices.bytes index ?_ ?_
    · intro own
      change 24 ≤ index + 4 at lower
      change 8 ≤ index ∧ index < 16 at own
      omega
    · exact ⟨nofun, nofun⟩
  have fourth : (BlockInfo.mk ⟨8⟩ 16 false false).cls = 4 := by decide
  have alsoFourth : (BlockInfo.mk ⟨24⟩ 24 false false).cls = 4 := by decide
  rw [fourth, List.nil_append] at one
  have apart : ∀ cls : SizeClass,
      ∀ other ∈ Function.update (fun _ => []) 4 [⟨⟨8⟩, 16, false, false⟩] cls,
      (BlockInfo.mk ⟨24⟩ 24 false false).Apart other := by
    intro cls other member
    by_cases own : cls = 4
    · subst own
      rw [Function.update_self] at member
      rw [List.mem_singleton.1 member]
      exact .inr (by decide)
    · rw [Function.update_of_ne own] at member
      cases member
  obtain ⟨front, back, second, -, split, seated, filedBehind, two, -⟩ :=
    (Represents.refines_sorted one).1 _ stays rfl apart
  rw [alsoFourth, Function.update_self] at split
  cases front with
  | nil =>
      obtain rfl := split
      exact absurd (seated.before _ rfl) (by decide)
  | cons member rest =>
      obtain ⟨rfl, noneLeft⟩ := List.cons.inj split
      obtain ⟨rfl, rfl⟩ := List.append_eq_nil_iff.1 noneLeft.symm
      rw [alsoFourth, Function.update_idem] at two
      obtain ⟨-, unfiles, searches⟩ := Represents.refines_sorted two
      obtain ⟨front, back, last, cut, unfiled, remains, -⟩ :=
        unfiles 4 ⟨⟨8⟩, 16, false, false⟩ (by decide)
      have whole : [] ++ ⟨⟨8⟩, 16, false, false⟩ :: [⟨⟨24⟩, 24, false, false⟩] =
          front ++ ⟨⟨8⟩, 16, false, false⟩ :: back := cut
      obtain ⟨rfl, -, rfl⟩ :=
        (List.append_cons_inj_of_notMem (by decide) (by decide)).1 whole
      rw [Function.update_idem] at remains
      exact ⟨_, first, second, last, empty, filed, filedBehind, two, searches 20, unfiled, remains⟩

end Heap

end TaggedHeap
