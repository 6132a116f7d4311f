import TaggedHeap.Proofs.Client.BestFit
import TaggedHeap.Proofs.Heap.Enlarge

/-!
Contract: what a resize comes to that has to enlarge a payload.

The block grows where it is if the free blocks behind it suffice, or if they reach the end of the
heap and it can grow. Otherwise the payload moves to the block that an allocation of that size would
take. Whatever the path, little room left means that the block behind the result is reserved.
-/

namespace TaggedHeap.Client

variable {client opened next : Client} {shape later : Shape} {region : Region} {policy : Policy}
  {requests : List Request} {replies : List Reply} {reply : Reply} {request needed : Nat}
  {handle : Handle} {events : List Event} {filedLater : Handle × Nat → Handle × Nat → Prop}

/-- A release dissolves the block of its handle, as a resize does that moves the payload. -/
theorem dissolves_of_reachable (reachable : Reachable client) (held : handle ∈ client.handles) :
    ∃ blocks epilogue info next freed, client.heap.Displays blocks epilogue ∧ info ∈ blocks ∧
      info.handle = handle ∧ client.perform (.release (some handle)) = .ok (.ok none, next) ∧
      info.Dissolves (blocks ++ [epilogue]) freed ∧ next.heap.Reads freed := by
  obtain ⟨shape, tracks⟩ := reachable.tracks
  have permitted : client.Permits (.release (some handle)) := permits_of_mem rfl held
  obtain ⟨reply, next, later, events, steps, performed, nextTracks, -⟩ := tracks.perform permitted
  have displays := tracks.shows.displays tracks.valid.sound
  have reads := nextTracks.shows.reads nextTracks.valid.sound
  cases steps with
  | @release info later events member allocated releases =>
      exact ⟨shape.blocks, shape.epilogue, info, next, later.closed, displays, member, rfl,
        performed, releases.dissolves tracks.valid.sound, reads⟩

theorem Tracks.widens (tracks : client.Tracks shape) (nextTracks : next.Tracks later)
    (steps : shape.Steps (.resize (some handle) request) reply later events)
    (something : 1 ≤ request) (least : IsLeast (blockSizes request) needed)
    (sane : client.heap.policy.defect? = none) (ordered : shape.lists.OrderedBy filedLater) :
    ∃ site : Site, site.block.handle = handle ∧ shape.closed = site.closed ∧
      (site.block.size < needed → needed + client.heap.policy.resizeSlack ≤ maxBlock →
        client.heap.Widens shape.blocks shape.epilogue filedLater
            (needed + client.heap.policy.resizeSlack) site reply next.heap ∧
          ∀ answer, reply = .ok (some answer) → next.heap.KeepsBehind answer
            (needed + client.heap.policy.resizeSlack) client.heap.policy.reserveMargin) := by
  obtain ⟨grained, wide, -⟩ := least.1
  have valid := tracks.valid
  have shows := tracks.shows
  have even := tracks.growthUnit_mod sane
  have tuned := tracks.tuned
  rw [shows.policy]
  cases steps with
  | resizeAway => omega
  | @resize info result bytes later events _ member allocated resizes =>
      cases resizes with
      | stays judged fits enough =>
          obtain ⟨rfl, -⟩ := eq_of_blockSizeFor least judged
          obtain ⟨site, rfl, closed⟩ := Shape.exists_site member allocated
          exact ⟨site, rfl, closed, fun short => absurd enough (Nat.not_le.2 short)⟩
      | @enlarged _ _ middle events judged fits short enlarges =>
          obtain ⟨rfl, -⟩ := eq_of_blockSizeFor least judged
          obtain ⟨site, rfl, closed, widens⟩ := enlarges.widens shows valid (by omega) even
            (by omega) member allocated ordered nextTracks.shows
          refine ⟨site, rfl, closed, fun _ _ => ⟨widens, fun answer isAnswer => ?_⟩⟩
          cases isAnswer
          have present := (enlarges.exchanges valid (by omega) (by omega) member
            allocated).mem_later List.mem_cons_self
          have kept := Shape.keepsBehind_of_shows
            (enlarges.valid_later valid (by omega) (by omega) allocated) present nextTracks.shows
          rwa [enlarges.same_setting.policy] at kept
  | @reject info bytes failure events _ member allocated rejects =>
      cases rejects with
      | excessive judged =>
          obtain ⟨-, excess⟩ := excess_of_blockSizeFor least judged
          obtain ⟨site, rfl, closed⟩ := Shape.exists_site member allocated
          exact ⟨site, rfl, closed, fun _ fits => absurd fits (by omega)⟩
      | padded judged exceeds =>
          obtain ⟨rfl, -⟩ := eq_of_blockSizeFor least judged
          obtain ⟨site, rfl, closed⟩ := Shape.exists_site member allocated
          exact ⟨site, rfl, closed, fun _ fits => absurd fits (by omega)⟩
      | withheld judged fits short withholds =>
          obtain ⟨rfl, -⟩ := eq_of_blockSizeFor least judged
          obtain ⟨site, rfl, closed, widens⟩ := withholds.widens shows valid (by omega) even
            (by omega) nextTracks.shows
          exact ⟨site, rfl, closed, fun _ _ => ⟨widens, nofun⟩⟩

/-- In every state that a client of a new heap can come to, a resize that has to enlarge its block
does so by the room that the block has where it is. If that is enough, the block takes all of it. If
it is not and ends with the heap, the heap grows by what is missing or by the unit of its policy,
whichever is more, and then the block takes all of it; the payload never moves then. Otherwise it
moves to the block that an allocation of that size would take, and its old block is freed. Growth
fails as it does for an allocation, and leaves everything where it was. If it succeeds on whichever
path, the block behind the result is reserved wherever little is left beyond the target. -/
theorem enlarges_by_room (opens : Opens region policy opened)
    (runs : Runs opened requests replies client) (held : handle ∈ client.handles)
    (something : 1 ≤ request) (least : IsLeast (blockSizes request) needed) :
    ∃ blocks epilogue, ∃ site : Site, client.heap.Displays blocks epilogue ∧
      blocks ++ [epilogue] = site.closed ∧ site.block.handle = handle ∧
      (site.block.size < needed → needed + client.heap.policy.resizeSlack ≤ maxBlock →
        ∃ reply next, client.perform (.resize (some handle) request) = .ok (reply, next) ∧
          client.heap.Widens blocks epilogue
            (fun newer older => FiledLater newer older opened requests client)
            (needed + client.heap.policy.resizeSlack) site reply next.heap ∧
          ∀ answer, reply = .ok (some answer) → next.heap.KeepsBehind answer
            (needed + client.heap.policy.resizeSlack) client.heap.policy.reserveMargin) := by
  obtain ⟨shape, tracks, ordered⟩ := opens.filed_later runs
  have permitted : client.Permits (.resize (some handle) request) := permits_of_mem rfl held
  obtain ⟨reply, next, later, events, steps, performed, nextTracks, -⟩ := tracks.perform permitted
  obtain ⟨site, named, closed, widens⟩ :=
    tracks.widens nextTracks steps something least (runs.policy_sane opens) ordered
  refine ⟨shape.blocks, shape.epilogue, site, tracks.shows.displays tracks.valid.sound, closed,
    named, fun short fits => ?_⟩
  exact ⟨reply, next, performed, widens short fits⟩

/-- A payload with another directly behind it moves. -/
theorem enlarges_by_room_of_replay : ∃ client opened blocks epilogue, ∃ site : Site, ∃ next,
    replay (.ofLimit 512) ⟨16, 8, 16, 2⟩ [.allocate 1, .allocate 2] = some client ∧
      client.heap.Displays blocks epilogue ∧ blocks ++ [epilogue] = site.closed ∧
      site.block.handle = ⟨16⟩ ∧
      client.perform (.resize (some ⟨16⟩) 9) = .ok (.ok (some ⟨48⟩), next) ∧
      client.heap.Widens blocks epilogue
        (fun newer older => FiledLater newer older opened [.allocate 1, .allocate 2] client)
        40 site (.ok (some ⟨48⟩)) next.heap ∧
      next.heap.KeepsBehind ⟨48⟩ 40 32 := by
  have played : (replay (.ofLimit 512) ⟨16, 8, 16, 2⟩ [.allocate 1, .allocate 2]).any
      (fun client => ⟨16⟩ ∈ client.handles ∧ client.heap.policy = ⟨16, 8, 16, 2⟩ ∧
        client.heap.region.size = 48 ∧ client.heap.blocks = .ok
          [⟨⟨16⟩, 16, true, false⟩, ⟨⟨32⟩, 16, true, false⟩] ∧
        (client.perform (.resize (some ⟨16⟩) 9)).map Prod.fst = .ok (.ok (some ⟨48⟩))) = true := by
    decide +kernel
  obtain ⟨client, replayed, checked⟩ := (Option.any_eq_true _ _).1 played
  obtain ⟨held, policyIs, stop, shown, answered⟩ := of_decide_eq_true checked
  obtain ⟨opened, replies, opens, runs⟩ := exists_runs_of_replay replayed
  have least : IsLeast (blockSizes 9) 24 :=
    ⟨⟨rfl, by decide, by decide⟩, fun size ⟨grained, wide, holds⟩ => by omega⟩
  obtain ⟨blocks, epilogue, site, displays, closed, named, enlarges⟩ :=
    enlarges_by_room opens runs held (by decide) least
  cases displays.blocks.symm.trans shown
  have member : site.block ∈ [⟨⟨16⟩, 16, true, false⟩, ⟨⟨32⟩, 16, true, false⟩] ++ [epilogue] := by
    rw [closed, Site.closed]
    simp
  have short : site.block.size < 24 := by
    simp only [List.cons_append, List.nil_append, List.mem_cons, List.not_mem_nil, or_false]
      at member
    rcases member with isFirst | isSecond | isEpilogue
    · rw [isFirst]
      decide
    · rw [isSecond]
      decide
    · rw [isEpilogue, displays.place, stop] at named
      cases named
  rw [policyIs] at enlarges
  obtain ⟨reply, next, performed, widens, keeps⟩ := enlarges short (by decide)
  rw [performed] at answered
  cases answered
  exact ⟨client, opened, _, epilogue, site, next, replayed, displays, closed, named, performed,
    widens, keeps _ rfl⟩

end TaggedHeap.Client
