import TaggedHeap.Client
import TaggedHeap.Proofs.Heap.Payload
import TaggedHeap.Proofs.Heap.Resize
import TaggedHeap.Proofs.Heap.Stop

/-!
Contract: the requests of a client in terms of shapes.

`Shape.Steps` says once what a permitted request can do: which reply it gets, what becomes of the
shape, and what is reported. The main statements say that every permitted request is one of these
steps and runs without a fault, which bytes it keeps, and how it changes the allocated blocks.
-/

namespace TaggedHeap

/-- The handle whose payload a request writes. -/
def Request.overwritten : Request → Option Handle
  | .write handle _ _ => some handle
  | .allocate _ | .release _ | .resize _ _ => none

theorem Request.named_of_overwritten {request : Request} {handle : Handle}
    (overwritten : request.overwritten = some handle) : request.named = some handle := by
  cases request with
  | write => exact overwritten
  | allocate | release | resize => cases overwritten

theorem Request.named_of_surrendered {request : Request} {handle : Handle}
    (surrendered : request.surrendered = some handle) : request.named = some handle := by
  cases request with
  | release | resize => exact surrendered
  | allocate | write => cases surrendered

namespace Shape

/-- How a request for a payload of `bytes` bytes is answered. -/
inductive Allocates (shape : Shape) (bytes : Nat) : Reply → Shape → List Event → Prop where
  | nothing (nothing : bytes = 0) : Allocates shape bytes (.ok none) shape []
  | served {size : Nat} {block : BlockInfo} {later : Shape} {events : List Event}
      (something : bytes ≠ 0) (judged : blockSizeFor bytes = .ok size)
      (serves : shape.Serves size block later events) :
      Allocates shape bytes (.ok (some block.handle)) later
        (events ++ [.allocated bytes block.offset])
  | excessive {failure : Failure} (something : bytes ≠ 0)
      (judged : blockSizeFor bytes = .error failure) :
      Allocates shape bytes (.error failure) shape []
  | lacking {size : Nat} {failure : Failure} {events : List Event} (something : bytes ≠ 0)
      (judged : blockSizeFor bytes = .ok size) (lacks : shape.Lacks size failure events) :
      Allocates shape bytes (.error failure) shape events

/-- What a permitted request does. -/
inductive Steps (shape : Shape) : Request → Reply → Shape → List Event → Prop where
  | allocate {bytes : Nat} {reply : Reply} {later : Shape} {events : List Event}
      (allocates : shape.Allocates bytes reply later events) :
      Steps shape (.allocate bytes) reply later events
  | releaseNothing : Steps shape (.release none) (.ok none) shape []
  | release {info : BlockInfo} {later : Shape} {events : List Event}
      (member : info ∈ shape.blocks) (allocated : info.allocated = true)
      (releases : shape.Releases info later events) :
      Steps shape (.release (some info.handle)) (.ok none) later events
  | resizeNothing {bytes : Nat} {reply : Reply} {later : Shape} {events : List Event}
      (allocates : shape.Allocates bytes reply later events) :
      Steps shape (.resize none bytes) reply later events
  | resizeAway {info : BlockInfo} {later : Shape} {events : List Event}
      (member : info ∈ shape.blocks) (allocated : info.allocated = true)
      (releases : shape.Releases info later events) :
      Steps shape (.resize (some info.handle) 0) (.ok none) later events
  | resize {info result : BlockInfo} {bytes : Nat} {later : Shape} {events : List Event}
      (something : bytes ≠ 0) (member : info ∈ shape.blocks) (allocated : info.allocated = true)
      (resizes : shape.Resizes info bytes result later events) :
      Steps shape (.resize (some info.handle) bytes) (.ok (some result.handle)) later events
  | reject {info : BlockInfo} {bytes : Nat} {failure : Failure} {events : List Event}
      (something : bytes ≠ 0) (member : info ∈ shape.blocks) (allocated : info.allocated = true)
      (rejects : shape.Rejects info bytes failure events) :
      Steps shape (.resize (some info.handle) bytes) (.error failure) shape events
  | write {info : BlockInfo} {start : Nat} {values : ByteArray} (member : info ∈ shape.blocks)
      (allocated : info.allocated = true) :
      Steps shape (.write info.handle start values) (.ok none) shape []

/-- The byte was held before the step, is held after it, and was not up for writing. -/
def Spared (shape later : Shape) (request : Request) (index : Nat) : Prop :=
  shape.Held index ∧ later.Held index ∧
    ∀ info ∈ shape.blocks, request.overwritten = some info.handle → ¬info.Inside index

variable {shape later : Shape} {request : Request} {reply : Reply} {bytes : Nat}
  {events : List Event}

/-! ## Every permitted request is a step -/

theorem exists_allocates (valid : shape.Valid) (bytes : Nat) :
    ∃ reply later events, shape.Allocates bytes reply later events := by
  by_cases nothing : bytes = 0
  · exact ⟨_, _, _, .nothing nothing⟩
  · cases judged : blockSizeFor bytes with
    | error failure => exact ⟨_, _, _, .excessive nothing judged⟩
    | ok size =>
        rcases serves_or_lacks valid size with
          ⟨block, later, events, serves⟩ | ⟨failure, events, lacks⟩
        · exact ⟨_, _, _, .served nothing judged serves⟩
        · exact ⟨_, _, _, .lacking nothing judged lacks⟩

theorem exists_steps (valid : shape.Valid) (tuned : shape.policy.resizeSlack % 8 = 0)
    (request : Request)
    (live : ∀ handle, request.named = some handle → ∃ size, (handle, size) ∈ shape.extents) :
    ∃ reply later events, shape.Steps request reply later events := by
  have named : ∀ handle, request.named = some handle →
      ∃ info ∈ shape.blocks, info.allocated = true ∧ info.handle = handle := by
    intro handle isNamed
    obtain ⟨size, present⟩ := live handle isNamed
    obtain ⟨info, member, allocated, same, -⟩ := mem_extents.1 present
    exact ⟨info, member, allocated, same⟩
  cases request with
  | allocate bytes =>
      obtain ⟨reply, later, events, allocates⟩ := exists_allocates valid bytes
      exact ⟨_, _, _, .allocate allocates⟩
  | release handle =>
      cases handle with
      | none => exact ⟨_, _, _, .releaseNothing⟩
      | some handle =>
          obtain ⟨info, member, allocated, rfl⟩ := named handle rfl
          obtain ⟨later, events, releases⟩ := exists_releases member
          exact ⟨_, _, _, .release member allocated releases⟩
  | resize handle bytes =>
      cases handle with
      | none =>
          obtain ⟨reply, later, events, allocates⟩ := exists_allocates valid bytes
          exact ⟨_, _, _, .resizeNothing allocates⟩
      | some handle =>
          obtain ⟨info, member, allocated, rfl⟩ := named handle rfl
          by_cases nothing : bytes = 0
          · subst bytes
            obtain ⟨later, events, releases⟩ := exists_releases member
            exact ⟨_, _, _, .resizeAway member allocated releases⟩
          · rcases resizes_or_rejects valid tuned member allocated bytes with
              ⟨result, later, events, resizes⟩ | ⟨failure, events, rejects⟩
            · exact ⟨_, _, _, .resize nothing member allocated resizes⟩
            · exact ⟨_, _, _, .reject nothing member allocated rejects⟩
  | write handle start values =>
      obtain ⟨info, member, allocated, rfl⟩ := named handle rfl
      exact ⟨_, _, _, .write member allocated⟩

/-! ## Steps run -/

/-- What an operation does, whether it is granted or denied. -/
def Replies (shape : Shape) (operation : AllocM (Option Handle)) (reply : Reply) (later : Shape)
    (events : List Event) (kept : Nat → Prop) : Prop :=
  ∀ before : Heap, before.Shows shape →
    ∃ after, operation.run.run before = .ok reply after ∧ before.Leads after later events kept

theorem Replies.weaken {operation : AllocM (Option Handle)} {kept fewer : Nat → Prop}
    (replies : shape.Replies operation reply later events kept)
    (part : ∀ index, fewer index → kept index) :
    shape.Replies operation reply later events fewer := by
  intro before shows
  obtain ⟨after, ran, leads⟩ := replies before shows
  exact ⟨after, ran, leads.weaken part⟩

theorem Denies.replies {operation : AllocM (Option Handle)} {failure : Failure}
    (denies : shape.Denies operation failure events) (kept : Nat → Prop) :
    shape.Replies operation (.error failure) shape events kept :=
  fun heap shows => ⟨_, denies heap shows, ⟨⟨shows.policy, shows.limit, shows.prologue,
    shows.lays, shows.stored⟩, rfl, fun _ _ => rfl⟩⟩

theorem Allocates.denies {failure : Failure}
    (allocates : shape.Allocates bytes (.error failure) later events) (sound : shape.Sound) :
    shape.Denies (Heap.allocate bytes) failure events := by
  rw [Heap.allocate]
  cases allocates with
  | excessive something judged =>
      rw [if_neg something]
      exact (Denies.answer judged).bind _
  | lacking something judged lacks =>
      rw [if_neg something]
      apply Denies.after_idle (Idles.answer judged)
      exact (lacks.denies sound).bind _

theorem Allocates.replies (allocates : shape.Allocates bytes reply later events)
    (valid : shape.Valid) : shape.Replies (Heap.allocate bytes) reply later events shape.Held := by
  cases allocates with
  | nothing nothing =>
      rw [Heap.allocate, if_pos nothing]
      exact Grants.pure _ _ _
  | @served size block later events something judged serves =>
      obtain ⟨wide, grained, -⟩ := blockSizeFor_ok judged
      have serving := serves.grants valid wide grained
      rw [Heap.allocate, if_neg something, ← List.nil_append (_ ++ _)]
      apply ((Idles.answer judged).grants shape.Held).bind
      apply serving.bind
      rw [← List.append_nil [_]]
      apply (Grants.lift (Does.report _ _ _)).bind
      exact Grants.pure _ _ _
  | excessive something judged =>
      exact (Allocates.denies (.excessive something judged) valid.sound).replies _
  | lacking something judged lacks =>
      exact (Allocates.denies (.lacking something judged lacks) valid.sound).replies _

/-- Releasing a block, as the last thing that an operation does. -/
theorem Releases.replies {info : BlockInfo} (releases : shape.Releases info later events)
    (valid : shape.Valid) (allocated : info.allocated = true) :
    shape.Replies
      (do
        (Heap.releaseBlock info.handle : HeapM Unit)
        return none)
      (.ok none) later events later.Held := by
  have releasing := releases.does valid.sound valid.complete allocated
  rw [← List.append_nil events]
  apply (Grants.lift releasing).bind
  exact Grants.pure _ _ _

/-- A step that fails changes nothing but the journal, on whichever path it fails. -/
theorem Steps.denies {failure : Failure}
    (steps : shape.Steps request (.error failure) later events) (sound : shape.Sound) :
    shape.Denies request.act failure events := by
  cases steps with
  | allocate allocates | resizeNothing allocates => exact allocates.denies sound
  | @reject info bytes failure events something member allocated rejects =>
      change shape.Denies (Heap.resize (some info.handle) bytes) _ _
      rw [Heap.resize, if_neg something]
      exact (rejects.denies sound member).bind _

theorem Steps.replies (steps : shape.Steps request reply later events) (valid : shape.Valid)
    (tuned : shape.policy.resizeSlack % 8 = 0) :
    shape.Replies request.act reply later events (shape.Spared later request) := by
  have sound := valid.sound
  cases steps with
  | allocate allocates => exact (allocates.replies valid).weaken fun _ spared => spared.1
  | releaseNothing => exact Grants.pure _ _ _
  | release member allocated releases =>
      exact (releases.replies valid allocated).weaken fun _ spared => spared.2.1
  | resizeNothing allocates => exact (allocates.replies valid).weaken fun _ spared => spared.1
  | resizeAway member allocated releases =>
      exact (releases.replies valid allocated).weaken fun _ spared => spared.2.1
  | @resize info result bytes later events something member allocated resizes =>
      have resizing := (resizes.carries_resize valid tuned member allocated something).grants
      exact resizing.weaken fun index (spared : shape.Spared later _ index) =>
        ⟨spared.1, spared.2.1⟩
  | reject something member allocated rejects =>
      exact (Steps.denies (.reject something member allocated rejects) sound).replies _
  | @write info start values member allocated =>
      have writing := does_writePayload sound member allocated start values
      rw [← List.append_nil []]
      apply Grants.bind (Grants.lift (writing.weaken ?_))
      · exact Grants.pure _ _ _
      · exact fun index (spared : shape.Spared shape _ index) => spared.2.2 info member rfl

/-! ## What a step preserves, and what it exchanges -/

theorem Allocates.same_setting (allocates : shape.Allocates bytes reply later events) :
    shape.SameSetting later := by
  cases allocates with
  | served something judged serves => exact serves.same_setting
  | nothing | excessive | lacking => exact .refl shape

theorem Allocates.valid_later (allocates : shape.Allocates bytes reply later events)
    (valid : shape.Valid) : later.Valid := by
  cases allocates with
  | served something judged serves =>
      obtain ⟨wide, grained, -⟩ := blockSizeFor_ok judged
      exact serves.valid_later valid wide grained
  | nothing | excessive | lacking => exact valid

theorem Steps.same_setting (steps : shape.Steps request reply later events) :
    shape.SameSetting later := by
  cases steps with
  | allocate allocates | resizeNothing allocates => exact allocates.same_setting
  | release member allocated releases | resizeAway member allocated releases =>
      exact releases.same_setting
  | resize something member allocated resizes => exact resizes.same_setting
  | releaseNothing | reject | write => exact .refl shape

theorem Steps.valid_later (steps : shape.Steps request reply later events) (valid : shape.Valid)
    (tuned : shape.policy.resizeSlack % 8 = 0) : later.Valid := by
  cases steps with
  | allocate allocates | resizeNothing allocates => exact allocates.valid_later valid
  | release member allocated releases | resizeAway member allocated releases =>
      exact releases.valid_later valid allocated
  | resize something member allocated resizes => exact resizes.valid_later valid tuned allocated
  | releaseNothing | reject | write => exact valid

theorem Allocates.stop_le (allocates : shape.Allocates bytes reply later events) :
    shape.stop ≤ later.stop := by
  cases allocates with
  | served something judged serves => exact serves.stop_le
  | nothing | excessive | lacking => exact Nat.le_refl _

/-- No step makes the heap smaller. -/
theorem Steps.stop_le (steps : shape.Steps request reply later events) :
    shape.stop ≤ later.stop := by
  cases steps with
  | allocate allocates | resizeNothing allocates => exact allocates.stop_le
  | release member allocated releases | resizeAway member allocated releases =>
      rw [releases.same_stop]
  | resize something member allocated resizes => exact resizes.stop_le
  | releaseNothing | reject | write => exact Nat.le_refl _

theorem Steps.failed {failure : Failure}
    (steps : shape.Steps request (.error failure) later events) : later = shape := by
  cases steps with
  | allocate allocates | resizeNothing allocates => cases allocates <;> rfl
  | reject => rfl

/-- Writing does not fail. -/
theorem Steps.overwritten_of_failed {failure : Failure}
    (steps : shape.Steps request (.error failure) later events) : request.overwritten = none := by
  cases steps with
  | allocate | resizeNothing | reject => rfl

/-- The allocated block of the handle that is given up makes way for one that holds `bytes` bytes
under the handle that is answered, and all others stay. -/
def Settles (shape later : Shape) (surrendered answer : Option Handle) (bytes : Nat) : Prop :=
  ∃ old new, shape.Exchanges later old new ∧ old.map Prod.fst = surrendered.toList ∧
    new.map Prod.fst = answer.toList ∧ ∀ pair ∈ new, bytes + 8 ≤ pair.2

theorem settles_refl (shape : Shape) (bytes : Nat) : shape.Settles shape none none bytes :=
  ⟨[], [], ⟨shape.extents, List.Perm.refl _, List.Perm.refl _⟩, rfl, rfl, nofun⟩

theorem Allocates.settles {answer : Option Handle}
    (allocates : shape.Allocates bytes (.ok answer) later events) (valid : shape.Valid) :
    shape.Settles later none answer bytes := by
  cases allocates with
  | nothing nothing => exact settles_refl ..
  | served something judged serves =>
      obtain ⟨-, -, holds, -⟩ := blockSizeFor_ok judged
      have covers := (serves.block_facts valid).2.2
      refine ⟨[], _, serves.exchanges valid, rfl, rfl, fun pair isBlock => ?_⟩
      rw [List.mem_singleton.1 isBlock]
      exact Nat.le_trans holds covers

theorem Steps.settles {answer : Option Handle}
    (steps : shape.Steps request (.ok answer) later events) (valid : shape.Valid)
    (tuned : shape.policy.resizeSlack % 8 = 0) :
    shape.Settles later request.surrendered answer request.bytes := by
  cases steps with
  | allocate allocates | resizeNothing allocates => exact allocates.settles valid
  | release member allocated releases | resizeAway member allocated releases =>
      exact ⟨_, [], releases.exchanges valid.sound allocated, rfl, rfl, nofun⟩
  | resize something member allocated resizes =>
      obtain ⟨holds, -⟩ := resizes.result_facts valid tuned member allocated
      refine ⟨_, _, resizes.exchanges valid tuned member allocated, rfl, rfl, ?_⟩
      intro pair isResult
      rw [List.mem_singleton.1 isResult]
      exact holds
  | releaseNothing | write => exact settles_refl ..

end Shape

end TaggedHeap
