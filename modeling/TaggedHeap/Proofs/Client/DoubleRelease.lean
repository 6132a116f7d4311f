import TaggedHeap.Proofs.Client.Contents
import TaggedHeap.Proofs.Client.Leases
import TaggedHeap.Proofs.Client.Releasing
import TaggedHeap.Proofs.Heap.Vacancy

/-!
Contract: a handle that is released once more.

The place of a handle that was given up is vacant, and it stays so through every request, whatever
is merged, split, filed or grown meanwhile, until an allocated block takes in the word in front of
it. As long as it is vacant, another release of the handle stops at once and names it.
-/

namespace TaggedHeap

/-- The block has all of the word in front of the place. -/
def BlockInfo.Covers (info : BlockInfo) (place : Nat) : Prop :=
  ∀ index < place, place ≤ index + 4 → info.Occupies index

instance (info : BlockInfo) (place : Nat) : Decidable (info.Covers place) :=
  inferInstanceAs (Decidable (∀ index < place, place ≤ index + 4 → info.Occupies index))

/-- The ways in which a request gives up a handle for good. -/
inductive Request.GivesUp (handle : Handle) : Request → Reply → Prop where
  | release (reply : Reply) : GivesUp handle (.release (some handle)) reply
  | resizeAway (reply : Reply) : GivesUp handle (.resize (some handle) 0) reply
  | moved {other : Handle} (bytes : Nat) (different : other ≠ handle) :
      GivesUp handle (.resize (some handle) bytes) (.ok (some other))

theorem Request.GivesUp.named_eq {handle : Handle} {request : Request} {reply : Reply}
    (givesUp : request.GivesUp handle reply) : request.named = some handle := by
  cases givesUp <;> rfl

theorem Heap.release_of_vacant {heap : Heap} {handle : Handle}
    (vacant : heap.region.Vacant handle.offset) :
    (Heap.release (some handle)).run heap = .error (.doubleRelease handle.offset) heap := by
  have above := vacant.above
  have named : handle.block = .ok ⟨handle.offset⟩ := Block.ofOffset_of_mod vacant.aligned
  have tag : (⟨handle.offset⟩ : Block).tag heap.region =
      .ok (heap.region.headerTag handle.offset) :=
    Block.tag_of_le (show 4 ≤ handle.offset by omega) vacant.inside
  have free := Block.isAllocated_of_tag tag
  rw [vacant.clear] at free
  rw [Heap.release, Heap.releaseBlock, HeapM.run_bind (HeapM.run_except named),
    HeapM.run_bind (HeapM.run_read free)]
  rfl

namespace Shape

variable {shape later : Shape} {info result : BlockInfo} {request : Request} {reply : Reply}
  {handle : Handle} {place bytes : Nat} {events : List Event}

/-! ## Where a handle was given up -/

theorem Releases.uncovered (releases : shape.Releases info later events) (sound : shape.Sound)
    (member : info ∈ shape.blocks) (allocated : info.allocated = true) :
    later.Uncovered info.offset := by
  intro handle size present
  obtain ⟨stays, different⟩ := (releases.mem_extents_later sound allocated _).1 present
  obtain ⟨other, otherMember, -, rfl, rfl⟩ := mem_extents.1 stays
  have infoWide := sound.wide member
  rcases sound.layout.tiles.apart_of_mem member otherMember with rfl | apart
  · exact absurd rfl different
  · have separated := apart.separated
    change info.offset < other.offset ∨ other.offset + other.size ≤ info.offset
    omega

theorem Resizes.uncovered (resizes : shape.Resizes info bytes result later events)
    (valid : shape.Valid) (tuned : shape.policy.resizeSlack % 8 = 0) (member : info ∈ shape.blocks)
    (allocated : info.allocated = true) (different : result.handle ≠ info.handle) :
    later.Uncovered info.offset := by
  cases resizes with
  | stays => exact absurd rfl different
  | enlarged judged fits short enlarges =>
      obtain ⟨wide, grained, -⟩ := blockSizeFor_ok judged
      rw [Uncovered, extents_reservedBehind]
      cases enlarges with
      | inPlace expands => exact absurd expands.result_facts.1 different
      | moved blocked moves =>
          obtain ⟨serves, releases⟩ := moves
          have middleSound := (serves.valid_later valid (by omega) (by omega)).sound
          have middleMember := (serves.mem_later valid middleSound member allocated).1
          exact releases.uncovered middleSound middleMember allocated

theorem Steps.uncovered (steps : shape.Steps request reply later events) (valid : shape.Valid)
    (tuned : shape.policy.resizeSlack % 8 = 0) (givesUp : request.GivesUp handle reply) :
    later.Uncovered handle.offset ∧ ∃ answer, reply = .ok answer := by
  cases givesUp with
  | release =>
      cases steps with
      | release member allocated releases =>
          exact ⟨releases.uncovered valid.sound member allocated, none, rfl⟩
  | resizeAway =>
      cases steps with
      | resizeAway member allocated releases =>
          exact ⟨releases.uncovered valid.sound member allocated, none, rfl⟩
      | resize something => exact absurd rfl something
      | reject something => exact absurd rfl something
  | moved bytes different =>
      cases steps with
      | resize something member allocated resizes =>
          exact ⟨resizes.uncovered valid tuned member allocated different, _, rfl⟩

/-! ## Requests that keep what is vacant -/

theorem Allocates.keepsVacant {answer : Option Handle}
    (allocates : shape.Allocates bytes (.ok answer) later events) (valid : shape.Valid)
    (uncovered : later.Uncovered place) : shape.KeepsVacant place (Heap.allocate bytes).run := by
  rw [Heap.allocate]
  cases allocates with
  | nothing nothing =>
      rw [if_pos nothing]
      exact Secures.pure _ _ _
  | @served size block later events something judged serves =>
      obtain ⟨wide, grained, -⟩ := blockSizeFor_ok judged
      have outside : place < block.offset ∨ block.offset + block.size ≤ place :=
        uncovered _ _ ((serves.exchanges valid).mem_later List.mem_cons_self)
      have blockWide := (serves.block_facts valid).2.2
      have elsewhere : block.offset ≠ place := by omega
      rw [if_neg something]
      apply Secures.granted_after_idle (Idles.answer judged)
      apply (serves.keepsVacant valid wide grained elsewhere).granted_bind
        (serves.grants valid wide grained)
      exact Secures.granted_bind_report (Secures.pure _ _ _)

/-- A release, as the last thing that a request does. -/
theorem Releases.secures_act (releases : shape.Releases info later events) (valid : shape.Valid)
    (allocated : info.allocated = true) (place : Nat) :
    shape.Secures (Vacating info.offset place)
      (do
        (Heap.releaseBlock info.handle : HeapM Unit)
        return none : AllocM (Option Handle)).run (Region.Vacant place) :=
  (releases.secures valid.sound valid.complete allocated place).bind_lift
    (releases.does valid.sound valid.complete allocated) (Secures.pure _ _ _)

/-- After a granted request the place is vacant if it was so before, or if the request gave up its
handle, unless a block covers it now. -/
theorem Steps.secures {answer : Option Handle}
    (steps : shape.Steps request (.ok answer) later events) (valid : shape.Valid)
    (tuned : shape.policy.resizeSlack % 8 = 0) (uncovered : later.Uncovered place) :
    shape.Secures (fun region => request.surrendered = some ⟨place⟩ ∨ region.Vacant place)
      request.act.run (Region.Vacant place) := by
  have vacating : ∀ info : BlockInfo, ∀ region : Region,
      some info.handle = some ⟨place⟩ ∨ region.Vacant place → Vacating info.offset place region :=
    fun info region => Or.imp_left fun same => (congrArg Handle.offset (Option.some.inj same)).symm
  have remaining : ∀ region : Region,
      none = some (⟨place⟩ : Handle) ∨ region.Vacant place → region.Vacant place :=
    fun _ either => either.resolve_left (Option.some_ne_none _).symm
  cases steps with
  | allocate allocates | resizeNothing allocates =>
      exact (allocates.keepsVacant valid uncovered).strengthen remaining
  | releaseNothing => exact (Secures.pure _ _ _).strengthen remaining
  | release member allocated releases | resizeAway member allocated releases =>
      exact (releases.secures_act valid allocated place).strengthen (vacating _)
  | resize something member allocated resizes =>
      exact (resizes.secures_resize valid tuned member allocated uncovered something).strengthen
        (vacating _)
  | @write info start values member allocated =>
      have outside : place < info.offset ∨ info.offset + info.size ≤ place :=
        uncovered _ _ (present_of_allocated member allocated)
      have writing := does_writePayload valid.sound member allocated start values
      have keeps : shape.KeepsVacant place
          (liftM (Heap.writePayload info.handle start values) : HeapM Nat) := by
        apply writing.keepsVacant (Nat.le_refl _)
        rintro index lower upper ⟨first, last⟩
        omega
      exact (keeps.bind_lift writing (Secures.pure _ _ _)).strengthen remaining

end Shape

namespace Client

variable {client next first last : Client} {shape later : Shape} {request : Request}
  {reply : Reply} {requests : List Request} {replies : List Reply} {handle : Handle}

/-- No allocated block has all of the word in front of the handle. -/
def Uncovered (client : Client) (handle : Handle) : Prop :=
  ∀ blocks, client.heap.blocks = .ok blocks →
    ∀ info ∈ blocks, info.allocated = true → ¬info.Covers handle.offset

instance (client : Client) (handle : Handle) : Decidable (client.Uncovered handle) :=
  match surveyed : client.heap.blocks with
  | .ok blocks =>
      decidable_of_iff (∀ info ∈ blocks, info.allocated = true → ¬info.Covers handle.offset)
        ⟨fun bare _ isSurveyed => by cases surveyed.symm.trans isSurveyed; exact bare,
          fun uncovered => uncovered blocks surveyed⟩
  | .error _ => isTrue fun _ isSurveyed => by cases surveyed.symm.trans isSurveyed

/-- What a client becomes by permitted requests, after each of which `holds` is so. -/
inductive RunsWhile (holds : Client → Prop) :
    Client → List Request → List Reply → Client → Prop where
  | nil (client : Client) : RunsWhile holds client [] [] client
  | cons {first second last : Client} {request : Request} {reply : Reply}
      {requests : List Request} {replies : List Reply}
      (permitted : first.Permits request)
      (performed : first.perform request = .ok (reply, second))
      (held : holds second)
      (rest : RunsWhile holds second requests replies last) :
      RunsWhile holds first (request :: requests) (reply :: replies) last

theorem RunsWhile.of_play {holds : Client → Prop} {second : Client}
    (rest : RunsWhile holds second requests replies last)
    (played : play [request] first = some second) (held : holds second) :
    ∃ reply, RunsWhile holds first (request :: requests) (reply :: replies) last := by
  obtain ⟨reply, permitted, performed⟩ := exists_performed_of_play played
  exact ⟨reply, .cons permitted performed held rest⟩

theorem Tracks.uncovered (tracks : client.Tracks shape) (uncovered : client.Uncovered handle)
    (aligned : handle.offset % 8 = 0) : shape.Uncovered handle.offset := by
  intro other size present
  have sound := tracks.valid.sound
  obtain ⟨info, member, allocated, rfl, rfl⟩ := Shape.mem_extents.1 present
  have infoAligned : info.handle.offset % 8 = 0 := sound.offset_mod member
  have grained := sound.grained member
  by_contra inside
  apply uncovered _ (tracks.shows.blocks_eq sound) info member allocated
  intro index upper lower
  constructor <;> omega

/-- Giving up a live handle makes its place vacant. -/
theorem Tracks.vacates (tracks : client.Tracks shape) (live : handle ∈ client.handles)
    (givesUp : request.GivesUp handle reply)
    (performed : client.perform request = .ok (reply, next)) :
    ∃ later, next.Tracks later ∧ next.heap.region.Vacant handle.offset := by
  have permitted : client.Permits request := permits_of_mem givesUp.named_eq live
  obtain ⟨later, events, steps, nextTracks, -⟩ := tracks.step permitted performed
  obtain ⟨uncovered, answer, rfl⟩ := steps.uncovered tracks.valid tracks.tuned givesUp
  have surrendered : request.surrendered = some handle := by
    cases givesUp <;> rfl
  exact ⟨later, nextTracks, (steps.secures tracks.valid tracks.tuned uncovered).after tracks.shows
    (.inl surrendered) (run_of_perform performed)⟩

/-- What is vacant stays so, unless an allocated block covers it. -/
theorem Tracks.keeps_vacant (tracks : client.Tracks shape) (permitted : client.Permits request)
    (performed : client.perform request = .ok (reply, next)) (uncovered : next.Uncovered handle)
    (vacant : client.heap.region.Vacant handle.offset) :
    ∃ later, next.Tracks later ∧ next.heap.region.Vacant handle.offset := by
  obtain ⟨later, events, steps, nextTracks, -⟩ := tracks.step permitted performed
  refine ⟨later, nextTracks, ?_⟩
  have ran := run_of_perform performed
  cases reply with
  | ok answer =>
      have bare := nextTracks.uncovered uncovered vacant.aligned
      exact (steps.secures tracks.valid tracks.tuned bare).after tracks.shows (.inr vacant) ran
  | error failure =>
      have failed := steps.denies tracks.valid.sound client.heap tracks.shows
      injection ran.symm.trans failed with _ same
      rw [same]
      exact vacant

theorem RunsWhile.vacant (runs : RunsWhile (Uncovered · handle) first requests replies last)
    (tracks : first.Tracks shape) (vacant : first.heap.region.Vacant handle.offset) :
    last.heap.region.Vacant handle.offset := by
  induction runs generalizing shape with
  | nil => exact vacant
  | cons permitted performed uncovered rest inductionHypothesis =>
      obtain ⟨later, laterTracks, stillVacant⟩ :=
        tracks.keeps_vacant permitted performed uncovered vacant
      exact inductionHypothesis laterTracks stillVacant

/-- A handle that was given up, by a release, by a resize to nothing or by a resize that moved its
payload, cannot be released again: whatever the client does, as long as no allocated block covers
the word in front of it, the release stops at a double release of that handle and changes
nothing. -/
theorem double_release_caught (reachable : Reachable client) (live : handle ∈ client.handles)
    (givesUp : request.GivesUp handle reply)
    (performed : client.perform request = .ok (reply, next))
    (runs : RunsWhile (Uncovered · handle) next requests replies last) :
    (Heap.release (some handle)).run last.heap = .error (.doubleRelease handle.offset) last.heap ∧
      (Fault.doubleRelease handle.offset).message? =
        some s!"double release of {handle.offset}" := by
  obtain ⟨shape, tracks⟩ := reachable.tracks
  obtain ⟨later, nextTracks, vacant⟩ := tracks.vacates live givesUp performed
  exact ⟨Heap.release_of_vacant (runs.vacant nextTracks vacant), rfl⟩

/-- The second of two payloads is released. The release of the first one buries its header, and an
allocation then splits the space there again. -/
theorem double_release_of_replay : ∃ client reply next replies last,
    replay (.ofLimit 512) ⟨16, 8, 16, 2⟩ [.allocate 1, .allocate 2] = some client ∧
      client.perform (.release (some ⟨32⟩)) = .ok (reply, next) ∧
      RunsWhile (Uncovered · ⟨32⟩) next [.release (some ⟨16⟩), .allocate 3] replies last ∧
      (Heap.release (some ⟨32⟩)).run last.heap = .error (.doubleRelease 32) last.heap := by
  have played : (replay (.ofLimit 512) ⟨16, 8, 16, 2⟩ [.allocate 1, .allocate 2]).any (fun client =>
      ⟨32⟩ ∈ client.handles ∧
        (play [.release (some ⟨32⟩)] client).any (fun next =>
          (play [.release (some ⟨16⟩)] next).any fun second =>
            second.Uncovered ⟨32⟩ ∧
              (play [.allocate 3] second).any fun last => last.Uncovered ⟨32⟩)) = true := by
    decide +kernel
  obtain ⟨client, replayed, checked⟩ := (Option.any_eq_true _ _).1 played
  obtain ⟨live, releases⟩ := of_decide_eq_true checked
  obtain ⟨next, released, goesOn⟩ := (Option.any_eq_true _ _).1 releases
  obtain ⟨second, playedSecond, checkedSecond⟩ := (Option.any_eq_true _ _).1 goesOn
  obtain ⟨bareSecond, allocates⟩ := of_decide_eq_true checkedSecond
  obtain ⟨last, playedLast, bareLast⟩ := (Option.any_eq_true _ _).1 allocates
  have ends : RunsWhile (Uncovered · ⟨32⟩) last [] [] last := .nil last
  obtain ⟨_, runsLast⟩ := ends.of_play playedLast (of_decide_eq_true bareLast)
  obtain ⟨_, runs⟩ := runsLast.of_play playedSecond bareSecond
  obtain ⟨reply, -, performed⟩ := exists_performed_of_play released
  have caught :=
    double_release_caught (reachable_of_replay replayed) live (.release reply) performed runs
  exact ⟨client, reply, next, _, last, replayed, performed, runs, caught.1⟩

end Client

end TaggedHeap
