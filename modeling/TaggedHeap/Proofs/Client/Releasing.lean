import TaggedHeap.Proofs.Client.Invariant

/-!
Contract: releasing some payloads one after the other.

Whatever the order, every release is granted, and the payloads that are left are those that were not
released. What each release preserves holds in the end.
-/

namespace TaggedHeap

theorem Shape.Releases.mem_extents_later {shape later : Shape} {info : BlockInfo}
    {events : List Event} (releases : shape.Releases info later events) (sound : shape.Sound)
    (allocated : info.allocated = true) (extent : Handle × Nat) :
    extent ∈ later.extents ↔ extent ∈ shape.extents ∧ extent.1 ≠ info.handle := by
  have extents := releases.extents_later sound allocated
  have distinct := handles_nodup sound
  rw [(extents.map Prod.fst).nodup_iff, List.map_cons, List.nodup_cons] at distinct
  rw [extents.mem_iff, List.mem_cons]
  constructor
  · intro stays
    have isHandle : extent.1 ∈ later.extents.map Prod.fst := List.mem_map_of_mem stays
    exact ⟨.inr stays, fun same => distinct.1 (same ▸ isHandle)⟩
  · rintro ⟨rfl | stays, different⟩
    · exact absurd rfl different
    · exact stays

namespace Client

variable {client : Client} {shape : Shape} {order : List Handle}

/-- Live handles can be released in any order. -/
theorem Tracks.release_each (holds : Shape → Prop)
    (preserved : ∀ {shape info later events}, shape.Releases info later events → shape.Valid →
      info.allocated = true → holds shape → holds later)
    (tracks : client.Tracks shape) (initially : holds shape) (distinct : order.Nodup)
    (live : order ⊆ client.handles) :
    ∃ last later, Runs client (order.map fun handle => .release (some handle))
        (order.map fun _ => .ok none) last ∧
      last.Tracks later ∧ holds later ∧
      ∀ extent, extent ∈ later.extents ↔ extent ∈ shape.extents ∧ extent.1 ∉ order := by
  induction order generalizing client shape with
  | nil => exact ⟨client, shape, .nil client, tracks, initially, by simp⟩
  | cons handle rest inductionHypothesis =>
      obtain ⟨fresh, distinctRest⟩ := List.nodup_cons.1 distinct
      have permitted : client.Permits (.release (some handle)) :=
        permits_of_mem rfl (live List.mem_cons_self)
      obtain ⟨reply, next, middle, events, steps, performed, nextTracks, -⟩ :=
        tracks.perform permitted
      cases steps with
      | @release info middle events member allocated releases =>
          have released := releases.mem_extents_later tracks.valid.sound allocated
          have liveRest : rest ⊆ next.handles := by
            intro other inRest
            obtain ⟨size, present⟩ :=
              tracks.present_of_mem (live (List.mem_cons_of_mem _ inRest))
            exact nextTracks.mem_of_present ((released _).2
              ⟨present, fun same => fresh (same ▸ inRest)⟩)
          obtain ⟨last, later, runs, lastTracks, ultimately, extents⟩ := inductionHypothesis
            nextTracks (preserved releases tracks.valid allocated initially) distinctRest liveRest
          refine ⟨last, later, .cons permitted performed runs, lastTracks, ultimately, ?_⟩
          intro extent
          rw [extents, released, List.mem_cons, not_or, and_assoc]

end Client

end TaggedHeap
