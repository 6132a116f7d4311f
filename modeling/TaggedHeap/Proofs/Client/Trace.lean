import TaggedHeap.Proofs.Client.Invariant
import TaggedHeap.Proofs.Client.Replay
import TaggedHeap.Proofs.Heap.Survey
import TaggedHeap.Proofs.Heap.Trace

/-!
Contract: the journal of every reachable state as a trace of that state.

What is heard during a step changes what a listener knows as the step changes the state, so
that by induction over the run a listener who has heard everything knows the state. The main
statement is that the messages tell in every reachable state which blocks are allocated and
where the region ends, and that there is one warning for each answer that the region refused
to grow.
-/

namespace TaggedHeap

/-- Whether an answer is that the region refused to grow. -/
def exhausts {α : Type} : Except Failure α → Bool
  | .ok _ => false
  | .error failure => failure.isExhausted

namespace Shape

variable {shape later : Shape} {bytes : Nat} {request : Request} {reply : Reply}
  {events : List Event} {failure : Failure} {answer : Option Handle} {trace : Trace}

/-! ## Steps -/

/-- The offset that a handle stands for, if there is a handle. -/
def named (handle : Option Handle) : Finset Nat :=
  (handle.toList.map Handle.offset).toFinset

theorem Settles.offsets_later {surrendered : Option Handle}
    (settles : shape.Settles later surrendered answer bytes) (sound : shape.Sound) :
    later.offsets = named answer ∪ (shape.offsets \ named surrendered) := by
  obtain ⟨old, new, ⟨others, before, after⟩, oldHandles, newHandles, -⟩ := settles
  have distinct : (shape.extents.map fun extent => extent.1.offset).Nodup := by
    have handles := (handles_nodup sound).map (f := Handle.offset) fun _ _ same =>
      congrArg Handle.mk same
    rwa [List.map_map] at handles
  have places (handle : Option Handle) (extents : List (Handle × Nat))
      (same : extents.map Prod.fst = handle.toList) :
      (extents.map fun extent => extent.1.offset).toFinset = named handle := by
    rw [named, ← same, List.map_map]
    rfl
  have beforePlaces := before.map fun extent => extent.1.offset
  have apart := beforePlaces.nodup_iff.1 distinct
  rw [List.map_append] at beforePlaces apart
  have disjoint := List.disjoint_toFinset_iff_disjoint.2 (List.disjoint_of_nodup_append apart)
  rw [offsets, offsets, List.toFinset_eq_of_perm _ _ (after.map _),
    List.toFinset_eq_of_perm _ _ beforePlaces, List.map_append, List.toFinset_append,
    List.toFinset_append, places _ _ newHandles, ← places _ _ oldHandles,
    Finset.union_sdiff_cancel_left disjoint]

theorem Allocates.heard_granted (allocates : shape.Allocates bytes (.ok answer) later events)
    (known : trace.high = some shape.stop) : trace.hearAll events =
      ⟨named answer ∪ trace.offsets, some later.stop, trace.warnings⟩ := by
  cases allocates with
  | nothing =>
      rw [← known]
      exact congrArg (Trace.mk · _ _) (Finset.empty_union _).symm
  | served something judged serves =>
      rw [Trace.hearAll_concat, serves.heard known]
      rfl

theorem Allocates.heard_failed
    (allocates : shape.Allocates bytes (.error failure) later events) (trace : Trace) :
    trace.hearAll events =
      { trace with warnings := trace.warnings + if failure.isExhausted then 1 else 0 } := by
  cases allocates with
  | excessive something judged =>
      rw [not_isExhausted_of_blockSizeFor judged]
      exact trace.hearAll_nil
  | lacking something judged lacks => exact lacks.heard trace

theorem Steps.heard_granted (steps : shape.Steps request (.ok answer) later events)
    (known : trace.high = some shape.stop) : trace.hearAll events =
      ⟨named answer ∪ (trace.offsets \ named request.surrendered), some later.stop,
        trace.warnings⟩ := by
  have nothing : trace.offsets \ named none = trace.offsets := Finset.sdiff_empty
  have released : named none ∪ trace.offsets \ named none = trace.offsets :=
    (Finset.empty_union _).trans nothing
  cases steps with
  | allocate allocates | resizeNothing allocates =>
      rw [allocates.heard_granted known]
      exact congrArg (fun offsets => Trace.mk (named answer ∪ offsets) _ _) nothing.symm
  | releaseNothing | write =>
      rw [← known]
      exact congrArg (Trace.mk · _ _) released.symm
  | release member allocated releases | resizeAway member allocated releases =>
      rw [releases.heard, releases.same_stop, ← known]
      exact congrArg (Trace.mk · _ _)
        ((Finset.erase_eq ..).trans (Finset.empty_union _).symm)
  | resize something member allocated resizes =>
      rw [resizes.heard known, Finset.insert_eq, Finset.erase_eq]
      rfl

theorem Steps.heard_failed (steps : shape.Steps request (.error failure) later events)
    (trace : Trace) : trace.hearAll events =
      { trace with warnings := trace.warnings + if failure.isExhausted then 1 else 0 } := by
  cases steps with
  | allocate allocates | resizeNothing allocates => exact allocates.heard_failed trace
  | reject something member allocated rejects => exact rejects.heard trace

/-- A listener who knew the state before a step knows the state after it, and has heard a
warning if the region refused to grow. -/
theorem Steps.heard (steps : shape.Steps request reply later events) (valid : shape.Valid)
    (tuned : shape.policy.resizeSlack % 8 = 0) (warnings : Nat) :
    (Trace.mk shape.offsets (some shape.stop) warnings).hearAll events =
      ⟨later.offsets, some later.stop, warnings + if exhausts reply then 1 else 0⟩ := by
  cases reply with
  | ok answer =>
      rw [steps.heard_granted rfl, (steps.settles valid tuned).offsets_later valid.sound]
      rfl
  | error failure =>
      have failed := steps.failed
      rw [steps.heard_failed, failed]
      rfl

end Shape

/-- What the journal tells from its beginning is the state: the offsets of the allocated
blocks, and where the region ends. -/
structure Heap.Told (heap : Heap) : Prop where
  offsets : ∃ blocks, heap.blocks = .ok blocks ∧ (Trace.ofJournal heap.journal).offsets =
    ((blocks.filter fun info => info.allocated).map BlockInfo.offset).toFinset
  high : (Trace.ofJournal heap.journal).high = some heap.region.size

namespace Client

variable {client next first last : Client} {shape later : Shape} {request : Request}
  {reply : Reply} {requests : List Request} {replies : List Reply} {events : List Event}
  {warnings : Nat}

theorem Tracks.told (tracks : client.Tracks shape)
    (told : Trace.ofJournal client.heap.journal = ⟨shape.offsets, some shape.stop, warnings⟩) :
    client.heap.Told where
  offsets := by
    refine ⟨shape.blocks, tracks.shows.blocks_eq tracks.valid.sound, ?_⟩
    rw [told, Shape.offsets, Shape.extents, List.map_map]
    rfl
  high := by
    rw [told, tracks.shows.lays.size]

theorem Tracks.told_later (tracks : client.Tracks shape)
    (told : Trace.ofJournal client.heap.journal = ⟨shape.offsets, some shape.stop, warnings⟩)
    (steps : shape.Steps request reply later events) {kept : Nat → Prop}
    (leads : client.heap.Leads next.heap later events kept) :
    Trace.ofJournal next.heap.journal =
      ⟨later.offsets, some later.stop, warnings + if exhausts reply then 1 else 0⟩ := by
  rw [leads.journal, Trace.ofJournal_append, told, steps.heard tracks.valid tracks.tuned]

theorem Runs.told (runs : Runs first requests replies last) (tracks : first.Tracks shape)
    (told : Trace.ofJournal first.heap.journal = ⟨shape.offsets, some shape.stop, warnings⟩) :
    ∃ later more, last.Tracks later ∧
      Trace.ofJournal last.heap.journal = ⟨later.offsets, some later.stop, more⟩ := by
  induction runs generalizing shape warnings with
  | nil => exact ⟨shape, warnings, tracks, told⟩
  | cons permitted performed rest inductionHypothesis =>
      obtain ⟨middle, events, steps, middleTracks, leads⟩ := tracks.step permitted performed
      exact inductionHypothesis middleTracks (tracks.told_later told steps leads)

theorem Reachable.told (reachable : Reachable client) :
    ∃ shape warnings, client.Tracks shape ∧
      Trace.ofJournal client.heap.journal = ⟨shape.offsets, some shape.stop, warnings⟩ := by
  obtain ⟨region, policy, opened, requests, replies, opens, runs⟩ := reachable
  obtain ⟨shape, events, founds, tracks⟩ := opens.founds
  obtain ⟨after, ran, -, journal, -⟩ := founds.run
  cases opens.1.symm.trans ran
  have told : Trace.ofJournal opened.heap.journal = ⟨shape.offsets, some shape.stop, 0⟩ := by
    rw [journal]
    exact founds.heard
  exact runs.told tracks told

/-- A step reports as many warnings as it adds to what was heard. -/
theorem Tracks.warned (tracks : client.Tracks shape)
    (steps : shape.Steps request reply later events) :
    (events.countP fun event => event.level = .warn) = if exhausts reply then 1 else 0 := by
  have heard := congrArg Trace.warnings (steps.heard tracks.valid tracks.tuned 0)
  rw [Trace.warnings_hearAll] at heard
  exact Nat.add_left_cancel heard

/-- In every reachable state the messages tell which blocks are allocated and where the region
ends. A step reports one warning if it answers that the region refused to grow, and no
warning otherwise, and so does the construction. -/
theorem journal_tells :
    (∀ region policy outcome after,
      (Heap.create policy).run (Heap.blank region policy) = .ok outcome after →
        (after.journal.toList.countP fun event => event.level = .warn) =
          if exhausts outcome then 1 else 0) ∧
    ∀ client, Reachable client → client.heap.Told ∧
      ∀ request, client.Permits request → ∃ reply next events,
        client.perform request = .ok (reply, next) ∧ next.heap.Told ∧
          next.heap.journal = client.heap.journal ++ List.toArray events ∧
          (events.countP fun event => event.level = .warn) =
            if exhausts reply then 1 else 0 := by
  refine ⟨?_, ?_⟩
  · intro region policy outcome after created
    rw [← Trace.warnings_ofJournal]
    rcases Shape.founds_or_fails region policy with
      ⟨later, events, founds⟩ | ⟨failure, size, fails⟩
    · obtain ⟨heap, ran, -, journal, -⟩ := founds.run
      cases created.symm.trans ran
      rw [journal]
      exact congrArg Trace.warnings founds.heard
    · obtain ⟨heap, ran, warned⟩ := fails.heard
      cases created.symm.trans ran
      exact warned
  · intro client reachable
    obtain ⟨shape, warnings, tracks, told⟩ := reachable.told
    refine ⟨tracks.told told, fun request permitted => ?_⟩
    obtain ⟨reply, next, later, events, steps, performed, nextTracks, leads⟩ :=
      tracks.perform permitted
    have nextTold := tracks.told_later told steps leads
    exact ⟨reply, next, events, performed, nextTracks.told nextTold, leads.journal,
      tracks.warned steps⟩

/-- A run with a resize that moves its block, and then a request that the region has no room
for. -/
theorem journal_tells_of_replay : ∃ client,
    replay (.ofLimit 512) ⟨16, 8, 16, 2⟩ [.allocate 1, .allocate 2, .resize (some ⟨16⟩) 9,
        .release (some ⟨32⟩)] = some client ∧ client.heap.Told ∧
      ∃ failure next events, client.perform (.allocate 4096) = .ok (.error failure, next) ∧
        next.heap.Told ∧ next.heap.journal = client.heap.journal ++ List.toArray events ∧
        (events.countP fun event => event.level = .warn) = 1 := by
  have played : (replay (.ofLimit 512) ⟨16, 8, 16, 2⟩ [.allocate 1, .allocate 2,
      .resize (some ⟨16⟩) 9, .release (some ⟨32⟩)]).any (fun client =>
        (client.perform (.allocate 4096)).toOption.any fun outcome =>
          exhausts outcome.1) = true := by
    decide +kernel
  obtain ⟨client, replayed, checked⟩ := (Option.any_eq_true _ _).1 played
  obtain ⟨told, answers⟩ := journal_tells.2 client (reachable_of_replay replayed)
  obtain ⟨reply, next, events, performed, nextTold, grown, warned⟩ :=
    answers _ (permits_allocate client 4096)
  rw [performed] at checked
  have exhausted : exhausts reply = true := checked
  cases reply with
  | ok answer => cases exhausted
  | error failure =>
      rw [exhausted] at warned
      exact ⟨client, replayed, told, failure, next, events, performed, nextTold, grown, warned⟩

end Client

end TaggedHeap
