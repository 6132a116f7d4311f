import TaggedHeap.Proofs.Client.Invariant
import TaggedHeap.Proofs.Client.Replay
import TaggedHeap.Proofs.Heap.Survey

/-!
Contract: what decides where blocks are placed.

The contents of payloads do not. A run can be stripped of its writes: any client whose heap has the
same shape gets the same answers to the requests that are left, and its heap ends in the same shape.
Two runs that ask for the same things therefore get the same answers and lead to heaps that look
alike, whatever was written on the way and whatever lies in front of the heaps.
-/

namespace TaggedHeap

/-- Whether a request asks the heap for something, as all but writes do. -/
def Request.asks (request : Request) : Bool :=
  request.overwritten.isNone

/-- The heaps reach equally far, and their blocks and lists are the same. -/
structure Heap.Alike (left right : Heap) : Prop where
  size : left.region.size = right.region.size
  blocks : ∃ found, left.blocks = .ok found ∧ right.blocks = .ok found
  members : ∀ cls, ∃ found, left.members cls = .ok found ∧ right.members cls = .ok found

namespace Heap

variable {left middle right : Heap} {shape : Shape}

theorem Alike.trans (first : left.Alike middle) (second : middle.Alike right) :
    left.Alike right where
  size := first.size.trans second.size
  blocks := by
    obtain ⟨found, leftFound, middleFound⟩ := first.blocks
    obtain ⟨others, middleOthers, rightOthers⟩ := second.blocks
    cases middleFound.symm.trans middleOthers
    exact ⟨found, leftFound, rightOthers⟩
  members cls := by
    obtain ⟨found, leftFound, middleFound⟩ := first.members cls
    obtain ⟨others, middleOthers, rightOthers⟩ := second.members cls
    cases middleFound.symm.trans middleOthers
    exact ⟨found, leftFound, rightOthers⟩

theorem Shows.alike (shows : left.Shows shape) (alsoShows : right.Shows shape)
    (sound : shape.Sound) : left.Alike right where
  size := shows.lays.size.trans alsoShows.lays.size.symm
  blocks := ⟨shape.blocks, shows.blocks_eq sound, alsoShows.blocks_eq sound⟩
  members cls := ⟨_, shows.members_eq sound cls, alsoShows.members_eq sound cls⟩

end Heap

namespace Shape

variable {left right : Region} {policy : Policy} {shape later : Shape} {request : Request}
  {reply : Reply} {events : List Event}

/-- Construction depends on the size and the limit of the region only. -/
theorem Founds.of_region (founds : Founds left policy later events)
    (size : left.size = right.size) (limit : left.limit = right.limit) :
    Founds right policy later events := by
  obtain ⟨sane, room, grows⟩ := founds
  have same : founded left policy = founded right policy := by
    rw [founded, founded, size, limit]
  rw [size, limit] at room
  rw [same] at grows
  exact .intro sane room grows

theorem Steps.later_of_write (steps : shape.Steps request reply later events)
    (writes : ¬request.asks = true) : later = shape := by
  cases steps with
  | write => rfl
  | allocate | releaseNothing | release | resizeNothing | resizeAway | resize | reject =>
      exact absurd rfl writes

end Shape

namespace Client

/-- The replies to the requests that ask for something. -/
def answers (requests : List Request) (replies : List Reply) : List Reply :=
  ((requests.zip replies).filter fun entry => entry.1.asks).map Prod.snd

variable {client other first last : Client} {shape : Shape} {request : Request} {reply : Reply}
  {requests : List Request} {replies : List Reply}

theorem answers_cons_of_asks (asks : request.asks = true) :
    answers (request :: requests) (reply :: replies) = reply :: answers requests replies := by
  simp [answers, asks]

theorem answers_cons_of_write (writes : ¬request.asks = true) :
    answers (request :: requests) (reply :: replies) = answers requests replies := by
  simp [answers, writes]

/-- Clients that track the same shape hold the same handles. -/
theorem Tracks.permits_of_tracks (tracks : client.Tracks shape) (otherTracks : other.Tracks shape)
    (permitted : client.Permits request) : other.Permits request := by
  intro handle named
  obtain ⟨size, present⟩ := tracks.present_of_mem (permitted handle named)
  exact otherTracks.mem_of_present present

theorem Runs.deterministic {otherReplies : List Reply} {otherLast : Client}
    (runs : Runs first requests replies last)
    (otherRuns : Runs first requests otherReplies otherLast) :
    replies = otherReplies ∧ last = otherLast := by
  induction runs generalizing otherReplies otherLast with
  | nil =>
      cases otherRuns
      exact ⟨rfl, rfl⟩
  | cons permitted performed rest inductionHypothesis =>
      cases otherRuns with
      | cons otherPermitted otherPerformed otherRest =>
          cases performed.symm.trans otherPerformed
          obtain ⟨sameReplies, sameLast⟩ := inductionHypothesis otherRest
          exact ⟨congrArg _ sameReplies, sameLast⟩

/-- A client that starts from the same shape gets the same answers without the writes, and ends in
the same shape. -/
theorem Runs.without_writes (runs : Runs first requests replies last) (tracks : first.Tracks shape)
    (otherTracks : other.Tracks shape) :
    ∃ otherLast later, Runs other (requests.filter Request.asks) (answers requests replies)
      otherLast ∧ last.Tracks later ∧ otherLast.Tracks later := by
  induction runs generalizing shape other with
  | nil => exact ⟨other, shape, .nil other, tracks, otherTracks⟩
  | @cons first second last request reply requests replies permitted performed rest
      inductionHypothesis =>
      obtain ⟨middle, events, steps, secondTracks, -⟩ := tracks.step permitted performed
      by_cases asks : request.asks = true
      · obtain ⟨otherSecond, otherPerformed, otherSecondTracks, -⟩ :=
          otherTracks.perform_of_steps steps
        obtain ⟨otherLast, later, otherRest, ends⟩ :=
          inductionHypothesis secondTracks otherSecondTracks
        have otherPermitted := tracks.permits_of_tracks otherTracks permitted
        rw [List.filter_cons_of_pos asks, answers_cons_of_asks asks]
        exact ⟨otherLast, later, .cons otherPermitted otherPerformed otherRest, ends⟩
      · obtain rfl := steps.later_of_write asks
        rw [List.filter_cons_of_neg asks, answers_cons_of_write asks]
        exact inductionHypothesis secondTracks otherTracks

section TwoRuns

variable {left right : Region} {policy : Policy} {leftFirst leftLast rightFirst rightLast : Client}
  {leftRequests rightRequests : List Request} {leftReplies rightReplies : List Reply}

/-- Two heaps are built by one policy at the same place of regions with the same limit, and their
clients ask for the same things. Then they get the same answers, and the heaps look alike in the end
and, since a part of a run is a run, after every request on the way. The clients may write what they
like and when they like, and the regions may hold any bytes. -/
theorem alike_of_asking_alike (size : left.size = right.size) (limit : left.limit = right.limit)
    (leftOpens : Opens left policy leftFirst) (rightOpens : Opens right policy rightFirst)
    (leftRuns : Runs leftFirst leftRequests leftReplies leftLast)
    (rightRuns : Runs rightFirst rightRequests rightReplies rightLast)
    (asked : leftRequests.filter Request.asks = rightRequests.filter Request.asks) :
    answers leftRequests leftReplies = answers rightRequests rightReplies ∧
      leftLast.heap.Alike rightLast.heap := by
  obtain ⟨shape, events, founds, leftTracks⟩ := leftOpens.founds
  have rightTracks := rightOpens.tracks_of_founds (founds.of_region size limit)
  obtain ⟨silent, later, silentRuns, leftEnds, silentEnds⟩ :=
    leftRuns.without_writes leftTracks leftTracks
  obtain ⟨otherSilent, otherLater, otherSilentRuns, rightEnds, otherSilentEnds⟩ :=
    rightRuns.without_writes rightTracks leftTracks
  rw [asked] at silentRuns
  obtain ⟨answered, rfl⟩ := silentRuns.deterministic otherSilentRuns
  refine ⟨answered, ?_⟩
  exact (leftEnds.shows.alike silentEnds.shows leftEnds.valid.sound).trans
    (otherSilentEnds.shows.alike rightEnds.shows rightEnds.valid.sound)

/-- A payload that is written before it is released, and one that is written after that, behind
bytes that differ. -/
theorem alike_of_replays : ∃ leftFirst leftLast rightFirst rightLast leftReplies rightReplies,
    Opens ((Region.ofLimit 512).enlarge 16 rfl (by decide)) ⟨16, 8, 16, 2⟩ leftFirst ∧
      Opens (((Region.ofLimit 512).enlarge 16 rfl (by decide)).setByte 9 5) ⟨16, 8, 16, 2⟩
        rightFirst ∧
      Runs leftFirst [.allocate 1, .allocate 2, .write ⟨32⟩ 0 ⟨#[0, 0, 0, 0, 48]⟩,
        .release (some ⟨32⟩), .resize (some ⟨48⟩) 3] leftReplies leftLast ∧
      Runs rightFirst [.allocate 1, .allocate 2, .release (some ⟨32⟩), .resize (some ⟨48⟩) 3,
        .write ⟨48⟩ 1 ⟨#[7]⟩] rightReplies rightLast ∧
      answers [.allocate 1, .allocate 2, .write ⟨32⟩ 0 ⟨#[0, 0, 0, 0, 48]⟩,
          .release (some ⟨32⟩), .resize (some ⟨48⟩) 3] leftReplies =
        answers [.allocate 1, .allocate 2, .release (some ⟨32⟩), .resize (some ⟨48⟩) 3,
          .write ⟨48⟩ 1 ⟨#[7]⟩] rightReplies ∧
      leftLast.heap.Alike rightLast.heap := by
  have leftPlayed : (replay ((Region.ofLimit 512).enlarge 16 rfl (by decide)) ⟨16, 8, 16, 2⟩
      [.allocate 1, .allocate 2, .write ⟨32⟩ 0 ⟨#[0, 0, 0, 0, 48]⟩, .release (some ⟨32⟩),
        .resize (some ⟨48⟩) 3]).isSome = true := by
    decide +kernel
  have rightPlayed : (replay (((Region.ofLimit 512).enlarge 16 rfl (by decide)).setByte 9 5)
      ⟨16, 8, 16, 2⟩ [.allocate 1, .allocate 2, .release (some ⟨32⟩), .resize (some ⟨48⟩) 3,
        .write ⟨48⟩ 1 ⟨#[7]⟩]).isSome = true := by
    decide +kernel
  obtain ⟨leftLast, leftReplayed⟩ := Option.isSome_iff_exists.1 leftPlayed
  obtain ⟨rightLast, rightReplayed⟩ := Option.isSome_iff_exists.1 rightPlayed
  obtain ⟨leftFirst, leftReplies, leftOpens, leftRuns⟩ := exists_runs_of_replay leftReplayed
  obtain ⟨rightFirst, rightReplies, rightOpens, rightRuns⟩ := exists_runs_of_replay rightReplayed
  have alike := alike_of_asking_alike (Region.size_setByte ..).symm (Region.limit_setByte ..).symm
    leftOpens rightOpens leftRuns rightRuns rfl
  exact ⟨leftFirst, leftLast, rightFirst, rightLast, leftReplies, rightReplies, leftOpens,
    rightOpens, leftRuns, rightRuns, alike⟩

end TwoRuns

end Client

end TaggedHeap
