import TaggedHeap.Proofs.Client.Refusal
import TaggedHeap.Proofs.Heap.Choice

/-!
Contract: a resize of a payload whose block holds the request already.

The block stays where it is, and of all bytes of the region only the mark behind it may change. But
the slack of the policy is added to the request before the block is looked at, so that a policy
with a slack near the largest block has such a resize refused, however small the request is.
-/

namespace TaggedHeap

/-- The region with the block behind a payload reserved, if the block of the payload has `size`
bytes and those beyond `target` are fewer than `margin`. -/
def Region.reservedBehind (region : Region) (handle : Handle) (size target margin : Nat) : Region :=
  if size - target < margin then region.mark (handle.offset + size) true else region

/-- How a resize to `request` bytes is answered if the payload has a block of `size` bytes already,
no less than the `needed` bytes of a new one. -/
inductive Heap.Accommodates (heap : Heap) (handle : Handle) (size request needed : Nat) :
    Reply → Heap → Prop where
  | stays {next : Heap} (encodable : needed + heap.policy.resizeSlack ≤ maxBlock)
      (unchanged : Heap.Unchanged { heap with
        region := heap.region.reservedBehind handle size (needed + heap.policy.resizeSlack)
          heap.policy.reserveMargin } next) :
      Accommodates heap handle size request needed (.ok (some handle)) next
  | padded {next : Heap} (exceeds : maxBlock < needed + heap.policy.resizeSlack)
      (unchanged : heap.Unchanged next) :
      Accommodates heap handle size request needed (.error (.tooLarge request)) next

/-- Whatever the answer, the region keeps its end, and no byte changes outside of the header behind
the payload. -/
theorem Heap.Accommodates.keeps_bytes {heap next : Heap} {handle : Handle}
    {size request needed : Nat} {reply : Reply}
    (accommodates : heap.Accommodates handle size request needed reply next) (wide : 4 ≤ size) :
    next.region.size = heap.region.size ∧ ∀ index,
      index + 4 < handle.offset + size ∨ handle.offset + size ≤ index →
        next.region.byte index = heap.region.byte index := by
  cases accommodates with
  | padded exceeds unchanged =>
      rw [unchanged.region]
      exact ⟨rfl, fun _ _ => rfl⟩
  | stays encodable unchanged =>
      rw [unchanged.region]
      dsimp only
      unfold Region.reservedBehind
      split
      · exact ⟨Region.size_mark .., fun index outside =>
          Region.byte_mark_of_outside (by omega) outside⟩
      · exact ⟨rfl, fun _ _ => rfl⟩

namespace Shape

variable {shape : Shape} {info : BlockInfo} {heap : Heap} {request needed : Nat}

section Staying

variable (sound : shape.Sound) (member : info ∈ shape.blocks) (shows : heap.Shows shape)

include sound member shows

theorem run_reserveBehind (target : Nat) :
    (Heap.reserveBehind info.block target).run heap = .ok () { heap with
      region := heap.region.reservedBehind info.handle info.size target
        heap.policy.reserveMargin } := by
  have upTo := sound.inside member
  have stop : heap.region.size = shape.stop := shows.lays.size
  have wide := sound.wide member
  rw [Heap.reserveBehind, Region.reservedBehind,
    HeapM.run_bind (HeapM.run_read (sees_size sound member heap shows)),
    HeapM.run_bind HeapM.run_get]
  split
  · rw [HeapM.run_bind (HeapM.run_read (sees_next sound member heap shows))]
    exact HeapM.run_change (Block.setReserved_of_le true
      (show 4 ≤ info.offset + info.size by omega)
      (show info.offset + info.size ≤ heap.region.size by omega))
  · exact HeapM.run_pure

theorem run_resize_of_fitting (something : request ≠ 0)
    (judged : blockSizeFor request = .ok needed)
    (encodable : needed + heap.policy.resizeSlack ≤ maxBlock) (enough : needed ≤ info.size) :
    (Heap.resize (some info.handle) request).run.run heap = .ok (.ok (some info.handle))
      { heap with
        region := heap.region.reservedBehind info.handle info.size
          (needed + heap.policy.resizeSlack) heap.policy.reserveMargin
        journal := heap.journal.push (.resized info.offset request info.offset) } := by
  have named : info.handle.block = .ok info.block :=
    Block.ofOffset_of_mod (sound.offset_mod member)
  have seen := sees_size sound member heap shows
  have reserved := run_reserveBehind sound member shows (needed + heap.policy.resizeSlack)
  have answered : (liftM (blockSizeFor request) : AllocM Nat).run.run heap =
      .ok (.ok needed) heap := by
    rw [judged]
    exact AllocM.run_answer _
  have resized : (Heap.resizeBlock info.handle request).run.run heap = .ok (.ok info.block)
      { heap with
        region := heap.region.reservedBehind info.handle info.size
          (needed + heap.policy.resizeSlack) heap.policy.reserveMargin
        journal := heap.journal.push (.resized info.offset request info.offset) } := by
    rw [Heap.resizeBlock, AllocM.run_bind answered, AllocM.run_bind AllocM.run_get]
    dsimp only
    rw [if_neg (Nat.not_lt.2 encodable), AllocM.run_bind (AllocM.run_except named),
      AllocM.run_bind (AllocM.run_read seen), if_pos enough, pure_bind,
      AllocM.run_bind (AllocM.run_lift reserved)]
    rfl
  rw [Heap.resize, if_neg something, AllocM.run_bind resized]
  rfl

end Staying

end Shape

namespace Client

variable {client : Client} {handle : Handle} {request length needed : Nat}

/-- In every reachable state, a resize of a live payload to no more than its usable length leaves
the block where it is, and all of the heap as it was but for the mark behind the block. It is refused
exactly where the policy has a slack that takes the request beyond the largest block, and changes
nothing then. -/
theorem accommodates_of_fitting (reachable : Reachable client) (held : handle ∈ client.handles)
    (usable : Heap.usable handle client.heap.region = .ok length) (something : 1 ≤ request)
    (fits : request ≤ length) (least : IsLeast (blockSizes request) needed) :
    ∃ reply next, client.perform (.resize (some handle) request) = .ok (reply, next) ∧
      client.heap.Accommodates handle (length + 8) request needed reply next.heap := by
  obtain ⟨shape, tracks⟩ := reachable.tracks
  obtain ⟨size, present⟩ := tracks.present_of_mem held
  obtain ⟨info, member, allocated, rfl, rfl⟩ := Shape.mem_extents.1 present
  have sound := tracks.valid.sound
  have shows := tracks.shows
  have wide := sound.wide member
  have inside := sound.inside member
  have encodable := sound.layout.encodable
  have lengthIs : length = info.size - 8 :=
    Except.ok.inj (usable.symm.trans (Shape.sees_usable sound present client.heap shows))
  have enough : needed ≤ info.size := least.2 ⟨sound.grained member, by omega, by omega⟩
  have judged : blockSizeFor request = .ok needed := by
    cases judged : blockSizeFor request with
    | ok size => rw [(eq_of_blockSizeFor least judged).1]
    | error failure =>
        have excess := (excess_of_blockSizeFor least judged).2
        omega
  have size : length + 8 = info.size := by omega
  rw [size]
  rcases Nat.lt_or_ge maxBlock (needed + client.heap.policy.resizeSlack) with exceeds | encodable
  · have rejects : shape.Rejects info request (.tooLarge request) [] := by
      refine .padded judged ?_
      rwa [← shows.policy]
    have denied : (Request.resize (some info.handle) request).act.run client.heap = _ :=
      (Shape.Steps.reject (by omega) member allocated rejects).denies sound client.heap shows
    exact ⟨_, _, perform_failed denied, .padded exceeds ⟨rfl, rfl, rfl, rfl⟩⟩
  · have ran : (Request.resize (some info.handle) request).act.run client.heap = _ :=
      Shape.run_resize_of_fitting sound member shows (by omega) judged encodable enough
    exact ⟨_, _, perform_granted ran, .stays encodable ⟨rfl, rfl, rfl, rfl⟩⟩

/-- A payload of 80 bytes is cut back to 50. -/
theorem accommodates_of_replay : ∃ client reply next,
    replay (.ofLimit 512) ⟨128, 8, 16, 2⟩ [.allocate 80] = some client ∧
      client.perform (.resize (some ⟨16⟩) 50) = .ok (reply, next) ∧
      client.heap.Accommodates ⟨16⟩ 88 50 64 reply next.heap := by
  have played : (replay (.ofLimit 512) ⟨128, 8, 16, 2⟩ [.allocate 80]).any (fun client =>
      ⟨16⟩ ∈ client.handles ∧ Heap.usable ⟨16⟩ client.heap.region = .ok 80) = true := by
    decide +kernel
  obtain ⟨client, replayed, checked⟩ := (Option.any_eq_true _ _).1 played
  obtain ⟨held, usable⟩ := of_decide_eq_true checked
  have least : IsLeast (blockSizes 50) 64 :=
    ⟨⟨rfl, by decide, by decide⟩, fun size ⟨grained, wide, holds⟩ => by omega⟩
  obtain ⟨reply, next, performed, accommodates⟩ := accommodates_of_fitting
    (reachable_of_replay replayed) held usable (by decide) (by decide) least
  exact ⟨client, reply, next, replayed, performed, accommodates⟩

/-- A policy that is not refused, under which a payload of eight bytes is refused its own eight
bytes. -/
theorem not_stays_of_padding : ∃ client next,
    replay (.ofLimit 512) ⟨64, 8, 4294967288, 2⟩ [.allocate 8] = some client ∧
      client.heap.policy.defect? = none ∧ ⟨16⟩ ∈ client.handles ∧
      Heap.usable ⟨16⟩ client.heap.region = .ok 8 ∧
      client.perform (.resize (some ⟨16⟩) 8) = .ok (.error (.tooLarge 8), next) := by
  have played : (replay (.ofLimit 512) ⟨64, 8, 4294967288, 2⟩ [.allocate 8]).any (fun client =>
      client.heap.policy.defect? = none ∧ ⟨16⟩ ∈ client.handles ∧
        Heap.usable ⟨16⟩ client.heap.region = .ok 8 ∧
        (client.perform (.resize (some ⟨16⟩) 8)).map Prod.fst = .ok (.error (.tooLarge 8))) =
          true := by
    decide +kernel
  obtain ⟨client, replayed, checked⟩ := (Option.any_eq_true _ _).1 played
  obtain ⟨sane, held, usable, answered⟩ := of_decide_eq_true checked
  obtain ⟨next, performed⟩ := exists_performed answered
  exact ⟨client, next, replayed, sane, held, usable, performed⟩

end Client

end TaggedHeap
