import TaggedHeap.Proofs.Client.Invariant
import TaggedHeap.Proofs.Client.Replay
import TaggedHeap.Proofs.Heap.Outermost
import TaggedHeap.Proofs.Heap.Survey

/-!
Contract: one payload that is resized again and again.

A payload with nothing but free space behind it never moves. In a heap whose free space all lies at
its end a payload moves at most once, since it has nothing but free space behind it then. This holds
whatever the sizes are, and whether the resizes succeed or fail.
-/

namespace TaggedHeap.Client

/-- The handle of a payload after a resize was answered. A resize that fails leaves it as it is. -/
def handleAfter (handle : Handle) : Reply → Handle
  | .ok (some answer) => answer
  | .ok none | .error _ => handle

/-- The handles that a payload has in turn while its resizes are answered. -/
def trail (handle : Handle) (replies : List Reply) : List Handle :=
  replies.scanl handleAfter handle

/-- Resizes a payload to one size after the other, each time under the handle that it has by
then. -/
def resizeEach : List Nat → Handle → Client → Except Fault (List Reply × Client)
  | [], _, client => return ([], client)
  | size :: sizes, handle, client => do
      let (reply, next) ← client.perform (.resize (some handle) size)
      let (replies, last) ← resizeEach sizes (handleAfter handle reply) next
      return (reply :: replies, last)

variable {client next last : Client} {shape : Shape} {handle : Handle}
  {request size : Nat} {sizes : List Nat} {reply : Reply} {replies : List Reply}
  {blocks : List BlockInfo}

theorem resizeEach_cons (performed : client.perform (.resize (some handle) request) =
      .ok (reply, next))
    (rest : resizeEach sizes (handleAfter handle reply) next = .ok (replies, last)) :
    resizeEach (request :: sizes) handle client = .ok (reply :: replies, last) := by
  rw [resizeEach, performed]
  change (resizeEach sizes (handleAfter handle reply) next >>= _) = _
  rw [rest]
  rfl

theorem trail_cons (handle : Handle) (reply : Reply) (replies : List Reply) :
    trail handle (reply :: replies) = handle :: trail (handleAfter handle reply) replies :=
  List.scanl_cons

theorem handleAfter_eq (stays : ∀ answer, reply = .ok answer → answer = some handle) :
    handleAfter handle reply = handle := by
  match reply with
  | .ok (some answer) => exact Option.some.inj (stays (some answer) rfl)
  | .ok none | .error _ => rfl

/-- A payload whose resizes answer no other handle keeps its own. -/
theorem trail_eq_replicate (stays : ∀ answer, .ok answer ∈ replies → answer = some handle) :
    trail handle replies = List.replicate (replies.length + 1) handle := by
  induction replies with
  | nil => rfl
  | cons reply replies inductionHypothesis =>
      have same : handleAfter handle reply = handle :=
        handleAfter_eq fun answer isReply => stays answer (isReply ▸ List.mem_cons_self)
      have rest := inductionHypothesis fun answer isReply =>
        stays answer (List.mem_cons_of_mem _ isReply)
      rw [trail_cons, same, rest]
      rfl

/-! ## One resize -/

/-- What one resize does to the place of its payload among the others. -/
theorem Tracks.resize_once (tracks : client.Tracks shape) (something : request ≠ 0)
    (present : (handle, size) ∈ shape.extents) :
    ∃ reply next later nextSize,
      client.perform (.resize (some handle) request) = .ok (reply, next) ∧ next.Tracks later ∧
      (handleAfter handle reply, nextSize) ∈ later.extents ∧
      (shape.Outermost handle →
        (∀ answer, reply = .ok answer → answer = some handle) ∧ later.Outermost handle) ∧
      (shape.Compacted → handleAfter handle reply = handle ∧ later.Compacted ∨
        later.Outermost (handleAfter handle reply)) := by
  have valid := tracks.valid
  have tuned := tracks.tuned
  have permitted : client.Permits (.resize (some handle) request) :=
    permits_of_mem rfl (tracks.mem_of_present present)
  obtain ⟨reply, next, later, events, steps, performed, nextTracks, -⟩ := tracks.perform permitted
  cases steps with
  | resizeAway => exact absurd rfl something
  | reject =>
      exact ⟨_, next, shape, size, performed, nextTracks, present,
        fun outermost => ⟨nofun, outermost⟩, fun compacted => .inl ⟨rfl, compacted⟩⟩
  | @resize info result _ _ _ _ member allocated resizes =>
      have nextPresent := (resizes.exchanges valid tuned member allocated).mem_later
        List.mem_cons_self
      refine ⟨_, next, later, result.size, performed, nextTracks, nextPresent,
        fun outermost => ?_, fun compacted => compacted.resizes resizes valid tuned allocated⟩
      obtain ⟨same, stillOutermost⟩ := outermost.resizes resizes valid tuned member allocated
      refine ⟨fun answer isAnswer => ?_, stillOutermost⟩
      rw [← Except.ok.inj isAnswer, same]

/-! ## One resize after the other -/

/-- The last allocated block never moves. -/
theorem Tracks.resizeEach_of_outermost (tracks : client.Tracks shape) (nonzero : 0 ∉ sizes)
    (present : (handle, size) ∈ shape.extents) (outermost : shape.Outermost handle) :
    ∃ replies last, resizeEach sizes handle client = .ok (replies, last) ∧
      ∀ answer, .ok answer ∈ replies → answer = some handle := by
  induction sizes generalizing client shape size with
  | nil => exact ⟨[], client, rfl, nofun⟩
  | cons request sizes inductionHypothesis =>
      obtain ⟨something, others⟩ := List.ne_and_not_mem_of_not_mem_cons nonzero
      obtain ⟨reply, next, later, nextSize, performed, nextTracks, nextPresent, ifOutermost, -⟩ :=
        tracks.resize_once something.symm present
      obtain ⟨stays, nextOutermost⟩ := ifOutermost outermost
      have same := handleAfter_eq stays
      rw [same] at nextPresent
      obtain ⟨replies, last, rest, restStays⟩ :=
        inductionHypothesis nextTracks others nextPresent nextOutermost
      rw [← same] at rest
      refine ⟨_, last, resizeEach_cons performed rest, fun answer isReply => ?_⟩
      rcases List.mem_cons.1 isReply with isFirst | inRest
      · exact stays answer isFirst.symm
      · exact restStays answer inRest

/-- Where all free blocks lie at the end, a block moves at most once: then it is the last one. -/
theorem Tracks.resizeEach_of_compacted (tracks : client.Tracks shape) (nonzero : 0 ∉ sizes)
    (present : (handle, size) ∈ shape.extents) (compacted : shape.Compacted) :
    ∃ replies last, resizeEach sizes handle client = .ok (replies, last) ∧
      ∃ other stays moved,
        trail handle replies = List.replicate stays handle ++ List.replicate moved other := by
  induction sizes generalizing client shape size with
  | nil => exact ⟨[], client, rfl, handle, 1, 0, rfl⟩
  | cons request sizes inductionHypothesis =>
      obtain ⟨something, others⟩ := List.ne_and_not_mem_of_not_mem_cons nonzero
      obtain ⟨reply, next, later, nextSize, performed, nextTracks, nextPresent, -, ifCompacted⟩ :=
        tracks.resize_once something.symm present
      rcases ifCompacted compacted with ⟨same, nextCompacted⟩ | nextOutermost
      · rw [same] at nextPresent
        obtain ⟨replies, last, rest, other, stays, moved, isTrail⟩ :=
          inductionHypothesis nextTracks others nextPresent nextCompacted
        rw [← same] at rest
        refine ⟨_, last, resizeEach_cons performed rest, other, stays + 1, moved, ?_⟩
        rw [trail_cons, same, isTrail]
        rfl
      · obtain ⟨replies, last, rest, stays⟩ :=
          nextTracks.resizeEach_of_outermost others nextPresent nextOutermost
        refine ⟨_, last, resizeEach_cons performed rest, handleAfter handle reply, 1,
          replies.length + 1, ?_⟩
        rw [trail_cons, trail_eq_replicate stays]
        rfl

/-- In every reachable state, whatever sizes a payload is resized to in turn, none of them zero: if
only free blocks lie behind it, every resize that succeeds answers its own handle. If all free blocks
of the heap lie behind all allocated ones, its handle changes at most once, and a resize that fails
does not change it. -/
theorem moves_at_most_once (reachable : Reachable client) (held : handle ∈ client.handles)
    (shown : client.heap.blocks = .ok blocks) (nonzero : 0 ∉ sizes) :
    (Trails handle blocks → ∃ replies last,
      resizeEach sizes handle client = .ok (replies, last) ∧
        ∀ answer, .ok answer ∈ replies → answer = some handle) ∧
    (Compact blocks → ∃ replies last,
      resizeEach sizes handle client = .ok (replies, last) ∧
        ∃ other stays moved,
          trail handle replies = List.replicate stays handle ++ List.replicate moved other) := by
  obtain ⟨shape, tracks⟩ := reachable.tracks
  obtain ⟨size, present⟩ := tracks.present_of_mem held
  have sound := tracks.valid.sound
  cases shown.symm.trans (tracks.shows.blocks_eq sound)
  constructor
  · intro trails
    exact tracks.resizeEach_of_outermost nonzero present (Shape.outermost_of_trails sound trails)
  · intro compact
    exact tracks.resizeEach_of_compacted nonzero present
      (Shape.compacted_of_compact sound compact)

/-- The first of two payloads moves behind the second one and stays there, and the second one stays
where it is. The resize to 900 bytes fails. -/
theorem moves_at_most_once_of_replay : ∃ client,
    replay (.ofLimit 512) ⟨128, 8, 16, 2⟩ [.allocate 1, .allocate 40] = some client ∧
      (∃ replies last, resizeEach [60, 4, 900, 100] ⟨32⟩ client = .ok (replies, last) ∧
        ∀ answer, .ok answer ∈ replies → answer = some ⟨32⟩) ∧
      ∃ replies last, resizeEach [9, 4, 900, 100] ⟨16⟩ client = .ok (replies, last) ∧
        ∃ other stays moved,
          trail ⟨16⟩ replies = List.replicate stays ⟨16⟩ ++ List.replicate moved other := by
  have played : (replay (.ofLimit 512) ⟨128, 8, 16, 2⟩ [.allocate 1, .allocate 40]).any
      (fun client => ⟨16⟩ ∈ client.handles ∧ ⟨32⟩ ∈ client.handles ∧
        client.heap.blocks = .ok [⟨⟨16⟩, 16, true, false⟩, ⟨⟨32⟩, 48, true, false⟩,
          ⟨⟨80⟩, 64, false, false⟩]) = true := by
    decide +kernel
  obtain ⟨client, replayed, checked⟩ := (Option.any_eq_true _ _).1 played
  obtain ⟨first, second, shown⟩ := of_decide_eq_true checked
  have reachable := reachable_of_replay replayed
  have trails : Trails ⟨32⟩ [⟨⟨16⟩, 16, true, false⟩, ⟨⟨32⟩, 48, true, false⟩,
      ⟨⟨80⟩, 64, false, false⟩] :=
    ⟨[_], _, [_], rfl, rfl, allFree_cons.2 ⟨rfl, nofun⟩⟩
  have compact : Compact [⟨⟨16⟩, 16, true, false⟩, ⟨⟨32⟩, 48, true, false⟩,
      ⟨⟨80⟩, 64, false, false⟩] :=
    ⟨[_, _], [_], rfl, by simp, allFree_cons.2 ⟨rfl, nofun⟩⟩
  exact ⟨client, replayed, (moves_at_most_once reachable second shown (by decide)).1 trails,
    (moves_at_most_once reachable first shown (by decide)).2 compact⟩

end TaggedHeap.Client
