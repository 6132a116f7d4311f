import TaggedHeap.Proofs.Client.Step
import TaggedHeap.Proofs.Heap.Creation

/-!
Contract: the invariant that ties a client to the shape of its heap.

`Client.Tracks` says that the heap shows a valid shape and that the leases are its allocated
blocks, one for one. A client that was just opened tracks a shape. The main statement is
`Client.Tracks.perform`: a permitted request never faults, is a step of the shape, and leads to a
client that tracks the later shape. Every reachable client therefore tracks a shape.
-/

namespace TaggedHeap

/-! ## Leases -/

theorem filter_of_toList_append {surrendered : Option Handle} {others : List Handle}
    (distinct : (surrendered.toList ++ others).Nodup) :
    (surrendered.toList ++ others).filter (fun handle => surrendered ≠ some handle) = others := by
  cases surrendered with
  | none => simp
  | some handle =>
      rw [Option.toList_some, List.singleton_append, List.nodup_cons] at distinct
      rw [Option.toList_some, List.singleton_append, List.filter_cons_of_neg (by simp)]
      apply List.filter_eq_self.2
      intro other isOther
      apply decide_eq_true
      rintro same
      cases same
      exact distinct.1 isOther

theorem Request.handles_settle (request : Request) (answer : Option Handle)
    (leases : List Lease) :
    (request.settle answer leases).map Lease.handle = answer.toList ++
      (leases.map Lease.handle).filter fun handle => request.surrendered ≠ some handle := by
  have kept : (leases.filter fun lease => request.surrendered ≠ some lease.handle).map
      Lease.handle = (leases.map Lease.handle).filter fun handle =>
        request.surrendered ≠ some handle := by
    rw [List.filter_map]
    rfl
  cases answer with
  | none => simp only [Request.settle, kept, Option.toList_none, List.nil_append]
  | some handle =>
      simp only [Request.settle, List.map_cons, kept, Option.toList_some, List.singleton_append]

namespace Shape

variable {shape later : Shape}

theorem handles_nodup (sound : shape.Sound) : (shape.extents.map Prod.fst).Nodup := by
  have handles : shape.extents.map Prod.fst = shape.allocated.map BlockInfo.handle := by
    simp [extents]
  rw [handles]
  have distinct : shape.allocated.Nodup := sound.layout.tiles.nodup.filter _
  apply distinct.map_on
  intro info member other otherMember same
  exact sound.layout.tiles.eq_of_offset (mem_allocated.1 member).1 (mem_allocated.1 otherMember).1
    (congrArg Handle.offset same)

/-- A handle that is not given up keeps its block. -/
theorem Settles.keeps {surrendered answer : Option Handle} {bytes size : Nat} {handle : Handle}
    (settles : shape.Settles later surrendered answer bytes)
    (present : (handle, size) ∈ shape.extents) (stays : surrendered ≠ some handle) :
    (handle, size) ∈ later.extents := by
  obtain ⟨old, new, ⟨others, before, after⟩, oldHandles, -, -⟩ := settles
  rcases List.mem_append.1 (before.subset present) with inOld | inOthers
  · have surrenders : handle ∈ surrendered.toList := by
      rw [← oldHandles]
      exact List.mem_map_of_mem inOld
    exact absurd (Option.mem_toList.1 surrenders) stays
  · exact after.symm.subset (List.mem_append_right _ inOthers)

theorem Steps.keeps {request : Request} {reply : Reply} {events : List Event} {handle : Handle}
    {size : Nat} (steps : shape.Steps request reply later events) (valid : shape.Valid)
    (tuned : shape.policy.resizeSlack % 8 = 0) (present : (handle, size) ∈ shape.extents)
    (stays : request.surrendered ≠ some handle) : (handle, size) ∈ later.extents := by
  cases reply with
  | ok answer => exact (steps.settles valid tuned).keeps present stays
  | error failure =>
      obtain rfl := steps.failed
      exact present

/-- The handle that is answered has a block that holds the request. -/
theorem Settles.answers {surrendered : Option Handle} {bytes : Nat} {handle : Handle}
    (settles : shape.Settles later surrendered (some handle) bytes) :
    ∃ size, (handle, size) ∈ later.extents ∧ bytes + 8 ≤ size := by
  obtain ⟨old, new, exchanges, -, newHandles, covers⟩ := settles
  have answered : handle ∈ new.map Prod.fst := by simp [newHandles]
  obtain ⟨pair, inNew, rfl⟩ := List.mem_map.1 answered
  exact ⟨pair.2, exchanges.mem_later inNew, covers pair inNew⟩

end Shape

namespace Client

/-- The heap of the client shows the shape, and the leases are its allocated blocks. -/
structure Tracks (client : Client) (shape : Shape) : Prop where
  shows : client.heap.Shows shape
  valid : shape.Valid
  tuned : shape.policy.resizeSlack % 8 = 0
  matched : client.handles.Perm (shape.extents.map Prod.fst)
  covered : ∀ lease ∈ client.leases, ∃ size,
    (lease.handle, size) ∈ shape.extents ∧ lease.bytes + 8 ≤ size

variable {client next : Client} {shape later : Shape} {request : Request} {reply : Reply}
  {events : List Event}

theorem Tracks.present_of_mem (tracks : client.Tracks shape) {handle : Handle}
    (held : handle ∈ client.handles) : ∃ size, (handle, size) ∈ shape.extents := by
  obtain ⟨pair, present, rfl⟩ := List.mem_map.1 (tracks.matched.subset held)
  exact ⟨pair.2, present⟩

theorem Tracks.mem_of_present (tracks : client.Tracks shape) {handle : Handle} {size : Nat}
    (present : (handle, size) ∈ shape.extents) : handle ∈ client.handles :=
  tracks.matched.symm.subset (List.mem_map_of_mem present)

/-- The leases after a granted request are again the allocated blocks. -/
theorem Tracks.settled (tracks : client.Tracks shape) {answer : Option Handle}
    (settles : shape.Settles later request.surrendered answer request.bytes)
    {heap : Heap} (shows : heap.Shows later) (valid : later.Valid)
    (policy : later.policy = shape.policy) :
    Tracks ⟨heap, request.settle answer client.leases⟩ later where
  shows := shows
  valid := valid
  tuned := by
    rw [policy]
    exact tracks.tuned
  matched := by
    obtain ⟨old, new, ⟨others, before, after⟩, oldHandles, newHandles, -⟩ := settles
    have distinct := Shape.handles_nodup tracks.valid.sound
    have beforeHandles := before.map Prod.fst
    have afterHandles := after.map Prod.fst
    rw [List.map_append, oldHandles] at beforeHandles
    rw [List.map_append, newHandles] at afterHandles
    rw [beforeHandles.nodup_iff] at distinct
    have kept := (tracks.matched.trans beforeHandles).filter
      fun handle => request.surrendered ≠ some handle
    rw [filter_of_toList_append distinct] at kept
    change ((request.settle answer client.leases).map Lease.handle).Perm _
    rw [Request.handles_settle]
    exact (kept.append_left _).trans afterHandles.symm
  covered := by
    intro lease isLease
    have kept : lease ∈ client.leases.filter (fun lease =>
        request.surrendered ≠ some lease.handle) →
        ∃ size, (lease.handle, size) ∈ later.extents ∧ lease.bytes + 8 ≤ size := by
      intro isKept
      obtain ⟨wasLease, stays⟩ := List.mem_filter.1 isKept
      obtain ⟨size, present, covers⟩ := tracks.covered lease wasLease
      exact ⟨size, settles.keeps present (of_decide_eq_true stays), covers⟩
    cases answer with
    | none => exact kept isLease
    | some handle =>
        rcases List.mem_cons.1 isLease with rfl | isKept
        · exact settles.answers
        · exact kept isKept

theorem perform_granted {answer : Option Handle} {heap : Heap}
    (ran : request.act.run client.heap = .ok (.ok answer) heap) :
    client.perform request = .ok (.ok answer, ⟨heap, request.settle answer client.leases⟩) := by
  rw [perform, ran]

theorem perform_failed {failure : Failure} {heap : Heap}
    (ran : request.act.run client.heap = .ok (.error failure) heap) :
    client.perform request = .ok (.error failure, ⟨heap, client.leases⟩) := by
  rw [perform, ran]

/-- Every client that tracks a shape can take every step of the shape. -/
theorem Tracks.perform_of_steps (tracks : client.Tracks shape)
    (steps : shape.Steps request reply later events) :
    ∃ next, client.perform request = .ok (reply, next) ∧ next.Tracks later ∧
      client.heap.Leads next.heap later events (shape.Spared later request) := by
  have valid := tracks.valid
  obtain ⟨after, ran, leads⟩ := steps.replies valid tracks.tuned client.heap tracks.shows
  cases reply with
  | ok answer =>
      refine ⟨_, perform_granted ran, ?_, leads⟩
      exact tracks.settled (steps.settles valid tracks.tuned) leads.shows
        (steps.valid_later valid tracks.tuned) steps.same_setting.policy
  | error failure =>
      obtain rfl := steps.failed
      exact ⟨_, perform_failed ran, ⟨leads.shows, valid, tracks.tuned, tracks.matched,
        tracks.covered⟩, leads⟩

/-- A permitted request does not fault. It is a step of the shape, and the client tracks the
later shape. -/
theorem Tracks.perform (tracks : client.Tracks shape) (permitted : client.Permits request) :
    ∃ reply next later events, shape.Steps request reply later events ∧
      client.perform request = .ok (reply, next) ∧ next.Tracks later ∧
      client.heap.Leads next.heap later events (shape.Spared later request) := by
  obtain ⟨reply, later, events, steps⟩ := Shape.exists_steps tracks.valid tracks.tuned request
    fun handle named => tracks.present_of_mem (permitted handle named)
  obtain ⟨next, performed, nextTracks, leads⟩ := tracks.perform_of_steps steps
  exact ⟨reply, next, later, events, steps, performed, nextTracks, leads⟩

/-- What a permitted request has led to is a step. -/
theorem Tracks.step (tracks : client.Tracks shape) (permitted : client.Permits request)
    (performed : client.perform request = .ok (reply, next)) :
    ∃ later events, shape.Steps request reply later events ∧ next.Tracks later ∧
      client.heap.Leads next.heap later events (shape.Spared later request) := by
  obtain ⟨_, _, later, events, steps, ran, nextTracks, leads⟩ := tracks.perform permitted
  rw [performed] at ran
  cases ran
  exact ⟨later, events, steps, nextTracks, leads⟩

/-! ## Runs -/

/-- A client that was just opened tracks the shape that the construction leads to. -/
theorem Opens.tracks_of_founds {region : Region} {policy : Policy}
    (opens : Opens region policy client) (founds : Shape.Founds region policy shape events) :
    client.Tracks shape := by
  obtain ⟨created, noLeases⟩ := opens
  obtain ⟨after, ran, shows, -⟩ := founds.run
  cases created.symm.trans ran
  obtain ⟨-, policyIs, -, noExtents, sane⟩ := founds.later_facts
  have tuned := ((policy.defect?_eq_none_iff).1 sane).2.2.1
  refine ⟨shows, founds.valid_later, ?_, ?_, ?_⟩
  · rw [policyIs]
    exact tuned
  · rw [handles, noLeases, noExtents]
    exact List.Perm.refl _
  · rw [noLeases]
    exact nofun

theorem Opens.founds {region : Region} {policy : Policy} (opens : Opens region policy client) :
    ∃ shape events, Shape.Founds region policy shape events ∧ client.Tracks shape := by
  obtain ⟨later, events, founds, -⟩ := Shape.founds_of_created opens.1
  exact ⟨later, events, founds, opens.tracks_of_founds founds⟩

theorem Opens.tracks {region : Region} {policy : Policy} (opens : Opens region policy client) :
    ∃ shape, client.Tracks shape ∧ shape.start = region.size + 16 ∧ shape.policy = policy ∧
      shape.limit = region.limit := by
  obtain ⟨shape, events, founds, tracks⟩ := opens.founds
  obtain ⟨start, policyIs, limit, -⟩ := founds.later_facts
  exact ⟨shape, tracks, start, policyIs, limit⟩

/-! ### What every step preserves -/

section Maintaining

variable {holds : Shape → Prop}
  (stepped : ∀ {shape request reply later events}, shape.Steps request reply later events →
    shape.Valid → shape.policy.resizeSlack % 8 = 0 → holds shape → holds later)

include stepped

theorem Runs.maintains {first last : Client} {requests : List Request} {replies : List Reply}
    (runs : Runs first requests replies last) (tracks : first.Tracks shape) (held : holds shape) :
    ∃ later, last.Tracks later ∧ holds later := by
  induction runs generalizing shape with
  | nil => exact ⟨shape, tracks, held⟩
  | cons permitted performed rest inductionHypothesis =>
      obtain ⟨middle, events, steps, middleTracks, -⟩ := tracks.step permitted performed
      exact inductionHypothesis middleTracks (stepped steps tracks.valid tracks.tuned held)

/-- What holds of the shape of a new heap and is preserved by every step holds in every reachable
state. -/
theorem Reachable.maintains
    (founded : ∀ {region policy later events}, Shape.Founds region policy later events →
      holds later)
    (reachable : Reachable client) : ∃ shape, client.Tracks shape ∧ holds shape := by
  obtain ⟨region, policy, opened, requests, replies, opens, runs⟩ := reachable
  obtain ⟨shape, events, founds, tracks⟩ := opens.founds
  exact runs.maintains stepped tracks (founded founds)

end Maintaining

theorem Runs.tracks {first last : Client} {requests : List Request} {replies : List Reply}
    (runs : Runs first requests replies last) (tracks : first.Tracks shape) :
    ∃ later, last.Tracks later ∧ shape.SameSetting later :=
  runs.maintains (fun steps _ _ setting => setting.trans steps.same_setting) tracks (.refl shape)

theorem Reachable.tracks (reachable : Reachable client) : ∃ shape, client.Tracks shape := by
  have maintained : ∃ shape, client.Tracks shape ∧ True :=
    Reachable.maintains (fun _ _ _ _ => trivial) (fun _ => trivial) reachable
  obtain ⟨shape, tracks, -⟩ := maintained
  exact ⟨shape, tracks⟩

end Client

end TaggedHeap
