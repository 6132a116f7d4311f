import TaggedHeap.Proofs.Heap.Audit
import TaggedHeap.Proofs.Heap.Creation
import TaggedHeap.Proofs.Heap.Survey

/-!
Contract: what the construction of a heap comes to, told by the region and the policy alone.

The region is asked for the sentinels and then for the first block, and each request may be refused.
The space of the sentinels stays in the region if only the second one is.
-/

namespace TaggedHeap

/-- The heap passes its audit and has a single block, at `place`, which is free and not reserved,
reaches to the end of the region and is the only member of a list. -/
structure Heap.Pristine (heap : Heap) (place size : Nat) : Prop where
  stop : heap.region.size = place + size
  audit : heap.audit = .ok none
  blocks : heap.blocks = .ok [⟨⟨place⟩, size, false, false⟩]
  members : ∀ cls, heap.members cls = .ok (if cls = SizeClass.ofSize size then [⟨place⟩] else [])

/-- How the construction of a heap at the end of a region is answered, and what it leaves. -/
inductive Heap.Constructs (region : Region) (policy : Policy) : Except Failure Unit → Heap → Prop
    where
  | invalid {defect : PolicyDefect} {heap : Heap} (defective : policy.defect? = some defect)
      (stop : heap.region.size = region.size) :
      Constructs region policy (.error (.invalidPolicy defect)) heap
  | cramped {heap : Heap} (sane : policy.defect? = none)
      (lacks : region.limit < region.size + 16) (stop : heap.region.size = region.size) :
      Constructs region policy (.error (.refused (.exhausted 16 (region.limit - region.size)))) heap
  | tooLarge {heap : Heap} (sane : policy.defect? = none)
      (room : region.size + 16 ≤ region.limit)
      (excess : maxBlock < region.size + 16 + max 16 policy.initialGrowth)
      (stop : heap.region.size = region.size + 16) :
      Constructs region policy (.error (.tooLarge policy.initialGrowth)) heap
  | exhausted {heap : Heap} (sane : policy.defect? = none)
      (room : region.size + 16 ≤ region.limit)
      (encodable : region.size + 16 + max 16 policy.initialGrowth ≤ maxBlock)
      (lacks : region.limit < region.size + 16 + max 16 policy.initialGrowth)
      (stop : heap.region.size = region.size + 16) :
      Constructs region policy
        (.error (.refused
          (.exhausted (max 16 policy.initialGrowth) (region.limit - region.size - 16)))) heap
  | built {heap : Heap} (sane : policy.defect? = none)
      (encodable : region.size + 16 + max 16 policy.initialGrowth ≤ maxBlock)
      (fits : region.size + 16 + max 16 policy.initialGrowth ≤ region.limit)
      (pristine : heap.Pristine (region.size + 16) (max 16 policy.initialGrowth)) :
      Constructs region policy (.ok ()) heap

namespace Shape

variable {region : Region} {policy : Policy} {later : Shape} {start : BlockInfo} {size : Nat}
  {events : List Event} {failure : Failure} {heap : Heap}

/-- A policy that is not refused asks for its first growth in whole grains. -/
theorem growth_initial (sane : policy.defect? = none) :
    growth policy.initialGrowth = max 16 policy.initialGrowth := by
  have grained := ((policy.defect?_eq_none_iff).1 sane).1.2
  rw [growth, roundUp_of_mod grained]
  exact Nat.max_comm ..

/-- There is nothing in front of the first block that it could merge with. -/
theorem Grows.of_founded (grows : (founded region policy).Grows policy.initialGrowth start later
    events) : later = (founded region policy).grown (growth policy.initialGrowth) := by
  obtain ⟨-, -, merges⟩ := grows
  cases merges with
  | alone stays ends => rfl
  | behind cut free stays joins ends => exact absurd (List.append_eq_nil_iff.1 cut.symm).1 joins
  | front last => exact absurd (List.append_eq_nil_iff.1 last.symm).2 (List.cons_ne_nil _ _)

theorem lists_grown_founded (cls : SizeClass) :
    ((founded region policy).grown size).lists cls =
      if cls = SizeClass.ofSize size then [⟨⟨region.size + 16⟩, size, false, false⟩] else [] :=
  rfl

theorem pristine_of_shows (shows : heap.Shows ((founded region policy).grown size))
    (valid : ((founded region policy).grown size).Valid) :
    heap.Pristine (region.size + 16) size where
  stop := shows.lays.size
  audit := shows.audit_eq valid
  blocks := shows.blocks_eq valid.sound
  members cls := by
    rw [shows.members_eq valid.sound, lists_grown_founded]
    split <;> rfl

theorem Founds.constructs (founds : Founds region policy later events)
    (shows : heap.Shows later) : Heap.Constructs region policy (.ok ()) heap := by
  have valid := founds.valid_later
  obtain ⟨sane, room, grows⟩ := founds
  obtain rfl := grows.of_founded
  obtain ⟨encodable, fits, -⟩ := grows
  rw [growth_initial sane] at shows valid encodable fits
  exact .built sane encodable fits (pristine_of_shows shows valid)

theorem Fails.constructs (fails : Fails region policy failure size)
    (stop : heap.region.size = size) : Heap.Constructs region policy (.error failure) heap := by
  cases fails with
  | invalid defective => exact .invalid defective stop
  | cramped sane lacks => exact .cramped sane lacks stop
  | refused sane room refuses =>
      have initial := growth_initial sane
      cases refuses with
      | tooLarge excess =>
          rw [initial] at excess
          exact .tooLarge sane room excess stop
      | exhausted encodable lacks =>
          rw [initial] at encodable lacks ⊢
          have left : (founded region policy).limit - (founded region policy).stop =
              region.limit - region.size - 16 := Nat.sub_add_eq ..
          rw [left]
          exact .exhausted sane room encodable lacks stop

end Shape

/-- The construction of a heap never faults, whatever the region holds already and whatever the
policy says. Its answer and the end of the region depend only on the policy and on the end and the
limit of the region, and a heap that was built has one free block between its sentinels. -/
theorem Heap.create_constructs (region : Region) (policy : Policy) :
    ∃ reply heap, (create policy).run (blank region policy) = .ok reply heap ∧
      Constructs region policy reply heap := by
  rcases Shape.founds_or_fails region policy with
    ⟨later, events, founds⟩ | ⟨failure, size, fails⟩
  · obtain ⟨after, ran, shows, -⟩ := founds.run
    exact ⟨_, after, ran, founds.constructs shows⟩
  · obtain ⟨after, ran, stop, -⟩ := fails.run
    exact ⟨_, after, ran, fails.constructs stop⟩

end TaggedHeap
