import TaggedHeap.Proofs.Client.Fitting

/-!
Contract: what a resize that was granted leaves for those that follow it.

The same resize again finds all as it would leave it. If the first one had to enlarge the block, the
slack of the policy is there to spare, so that a payload that grows on by no more than that stays
where it is.
-/

namespace TaggedHeap

/-- Every byte of the region is the same, and so are its end and its limit and all of the heap but
its journal. The regions may differ in how they keep their bytes. -/
structure Heap.Coincides (before after : Heap) : Prop where
  bytes : ∀ index, after.region.byte index = before.region.byte index
  size : after.region.size = before.region.size
  limit : after.region.limit = before.region.limit
  heads : after.heads = before.heads
  policy : after.policy = before.policy
  prologue : after.prologue = before.prologue

namespace Shape

variable {shape middle later : Shape} {info result : BlockInfo} {request needed target : Nat}
  {events : List Event} {heap : Heap}

/-- How a resize ends: the block behind the result is reserved, if that has little room beyond its
target. A result that was enlarged holds the target, any other one at least what was asked for. -/
structure Concludes (shape : Shape) (info : BlockInfo) (request : Nat) (result : BlockInfo)
    (later : Shape) (needed : Nat) (middle : Shape) : Prop where
  judged : blockSizeFor request = .ok needed
  fits : needed + shape.policy.resizeSlack ≤ maxBlock
  valid : middle.Valid
  policy : middle.policy = shape.policy
  present : (result.handle, result.size) ∈ middle.extents
  reserves : later = middle.reservedBehind result (needed + shape.policy.resizeSlack)
  enough : needed ≤ result.size
  spare : result.handle ≠ info.handle ∨ info.size < result.size →
    needed + shape.policy.resizeSlack ≤ result.size

theorem Resizes.concludes (resizes : shape.Resizes info request result later events)
    (valid : shape.Valid) (tuned : shape.policy.resizeSlack % 8 = 0) (member : info ∈ shape.blocks)
    (allocated : info.allocated = true) :
    ∃ needed middle, shape.Concludes info request result later needed middle := by
  cases resizes with
  | @stays needed judged fits enough =>
      refine ⟨needed, shape, judged, fits, valid, rfl, present_of_allocated member allocated, rfl,
        enough, ?_⟩
      rintro (moved | longer)
      · exact absurd rfl moved
      · exact absurd longer (Nat.lt_irrefl _)
  | @enlarged needed _ middle _ judged fits short enlarges =>
      obtain ⟨wide, grained, -⟩ := blockSizeFor_ok judged
      obtain ⟨covers, -⟩ := enlarges.result_facts valid (by omega) (by omega) member allocated
      exact ⟨needed, middle, judged, fits,
        enlarges.valid_later valid (by omega) (by omega) allocated, enlarges.same_setting.policy,
        (enlarges.exchanges valid (by omega) (by omega) member allocated).mem_later
          List.mem_cons_self, rfl, by omega, fun _ => covers⟩

theorem Concludes.present_later
    (concludes : shape.Concludes info request result later needed middle) :
    (result.handle, result.size) ∈ later.extents := by
  rw [concludes.reserves, extents_reservedBehind]
  exact concludes.present

/-- A block with the slack to spare holds every request that exceeds the first one by no more. -/
theorem Concludes.covers (concludes : shape.Concludes info request result later needed middle)
    (tuned : shape.policy.resizeSlack % 8 = 0) {bytes size : Nat}
    (upTo : bytes ≤ request + shape.policy.resizeSlack) (least : IsLeast (blockSizes bytes) size) :
    size ≤ needed + shape.policy.resizeSlack := by
  obtain ⟨wide, grained, holds, -⟩ := blockSizeFor_ok concludes.judged
  exact least.2 ⟨by omega, by omega, by omega⟩

/-- Reserving the block behind the result again changes no byte. -/
theorem byte_reservedBehind_again (sound : shape.Sound)
    (present : (result.handle, result.size) ∈ shape.extents)
    (shows : heap.Shows (shape.reservedBehind result target)) (index : Nat) :
    (heap.region.reservedBehind result.handle result.size target
      shape.policy.reserveMargin).byte index = heap.region.byte index := by
  rw [Region.reservedBehind]
  split
  · rename_i little
    obtain ⟨kept, member, -, sameHandle, sameSize⟩ := mem_extents.1 present
    obtain ⟨front, back, split⟩ := List.append_of_mem member
    have cut : shape.blocks = (front ++ [kept]) ++ back := by simp [split]
    have tiles := sound.layout.tiles
    rw [split] at tiles
    obtain ⟨inFront, sized, -⟩ := tiles.middle
    rw [Shape.reservedBehind, if_pos little, ← sameSize,
      show result.offset = kept.offset from congrArg Handle.offset sameHandle.symm] at shows
    rw [← sameSize, ← sameHandle]
    exact Region.byte_mark_of_reserved
      (reserved_of_shows_marked sound cut (Tiles.of_middle inFront sized rfl) shows) index
  · rfl

end Shape

namespace Client

variable {client next : Client} {shape later middle : Shape} {info result : BlockInfo}
  {handle given : Handle} {request bytes needed size : Nat}

theorem Tracks.perform_fitting (tracks : client.Tracks shape)
    (present : (given, size) ∈ shape.extents) (something : 1 ≤ bytes)
    (judged : blockSizeFor bytes = .ok needed)
    (encodable : needed + client.heap.policy.resizeSlack ≤ maxBlock) (enough : needed ≤ size) :
    ∃ last, client.perform (.resize (some given) bytes) = .ok (.ok (some given), last) ∧
      Heap.Unchanged { client.heap with
        region := client.heap.region.reservedBehind given size
          (needed + client.heap.policy.resizeSlack) client.heap.policy.reserveMargin }
        last.heap := by
  obtain ⟨kept, member, -, rfl, rfl⟩ := Shape.mem_extents.1 present
  have ran : (Request.resize (some kept.handle) bytes).act.run client.heap = _ :=
    Shape.run_resize_of_fitting tracks.valid.sound member tracks.shows (by omega) judged encodable
      enough
  exact ⟨_, perform_granted ran, rfl, rfl, rfl, rfl⟩

section Following

variable (nextTracks : next.Tracks later)
  (concludes : shape.Concludes info request result later needed middle)
  (policy : next.heap.policy = shape.policy)

include nextTracks concludes policy

theorem Tracks.coincides_again (something : 1 ≤ request) :
    ∃ again, next.perform (.resize (some result.handle) request) =
      .ok (.ok (some result.handle), again) ∧ next.heap.Coincides again.heap := by
  have fits := concludes.fits
  have shows := nextTracks.shows
  rw [concludes.reserves] at shows
  have same := Shape.byte_reservedBehind_again concludes.valid.sound concludes.present shows
  rw [← policy] at fits
  rw [concludes.policy, ← policy] at same
  obtain ⟨again, performed, unchanged⟩ := nextTracks.perform_fitting concludes.present_later
    something concludes.judged fits concludes.enough
  refine ⟨again, performed, ?_, ?_, ?_, unchanged.heads, unchanged.policy, unchanged.prologue⟩
  all_goals rw [unchanged.region]
  · exact same
  · unfold Region.reservedBehind
    split
    · exact Region.size_mark ..
    · rfl
  · unfold Region.reservedBehind
    split
    · exact Region.limit_mark ..
    · rfl

theorem Tracks.stays_within_slack (tuned : shape.policy.resizeSlack % 8 = 0)
    (spare : needed + shape.policy.resizeSlack ≤ result.size) (something : 1 ≤ bytes)
    (upTo : bytes ≤ request + shape.policy.resizeSlack) (least : IsLeast (blockSizes bytes) size)
    (encodable : size + shape.policy.resizeSlack ≤ maxBlock) :
    ∃ last, next.perform (.resize (some result.handle) bytes) =
        .ok (.ok (some result.handle), last) ∧
      Heap.Unchanged { next.heap with
        region := next.heap.region.reservedBehind result.handle result.size
          (size + shape.policy.resizeSlack) shape.policy.reserveMargin } last.heap := by
  have covers := concludes.covers tuned upTo least
  have judged := blockSizeFor_of_least least (by omega)
  rw [← policy] at encodable ⊢
  exact nextTracks.perform_fitting concludes.present_later something judged encodable
    (Nat.le_trans covers spare)

end Following

/-- In every reachable state, a resize that was granted and is asked for again directly afterwards
is granted again and changes nothing. If the first one had to enlarge the block, where it was or by
moving, then a resize to up to the slack of the policy more bytes than that stays where it is as
well, and nothing changes but the mark behind the block, if that is set. -/
theorem resize_settles (reachable : Reachable client) (held : handle ∈ client.handles)
    (performed : client.perform (.resize (some handle) request) = .ok (.ok (some given), next)) :
    (∃ again, next.perform (.resize (some given) request) = .ok (.ok (some given), again) ∧
      next.heap.Coincides again.heap) ∧
    ∃ length nextLength, Heap.usable handle client.heap.region = .ok length ∧
      Heap.usable given next.heap.region = .ok nextLength ∧
      (given ≠ handle ∨ length < nextLength → ∀ bytes needed, 1 ≤ bytes →
        bytes ≤ request + client.heap.policy.resizeSlack → IsLeast (blockSizes bytes) needed →
        needed + client.heap.policy.resizeSlack ≤ maxBlock →
        ∃ last, next.perform (.resize (some given) bytes) = .ok (.ok (some given), last) ∧
          Heap.Unchanged { next.heap with
            region := next.heap.region.reservedBehind given (nextLength + 8)
              (needed + client.heap.policy.resizeSlack) client.heap.policy.reserveMargin }
            last.heap) := by
  obtain ⟨shape, tracks⟩ := reachable.tracks
  obtain ⟨later, events, steps, nextTracks, -⟩ := tracks.step (permits_of_mem rfl held) performed
  cases steps with
  | @resize info result _ _ _ something member allocated resizes =>
      have sound := tracks.valid.sound
      obtain ⟨needed, middle, concludes⟩ :=
        resizes.concludes tracks.valid tracks.tuned member allocated
      have policy : next.heap.policy = shape.policy :=
        nextTracks.shows.policy.trans resizes.same_setting.policy
      obtain ⟨kept, keptMember, -, -, keptSize⟩ := Shape.mem_extents.1 concludes.present_later
      have wide := sound.wide member
      have nextWide := nextTracks.valid.sound.wide keptMember
      refine ⟨nextTracks.coincides_again concludes policy (by omega), info.size - 8,
        result.size - 8, ?_, ?_, fun enlarged bytes size nonzero upTo least encodable => ?_⟩
      · exact Shape.sees_usable sound (Shape.present_of_allocated member allocated) client.heap
          tracks.shows
      · exact Shape.sees_usable nextTracks.valid.sound concludes.present_later next.heap
          nextTracks.shows
      · have spare := concludes.spare (enlarged.imp_right fun longer => by omega)
        rw [tracks.shows.policy] at upTo encodable ⊢
        rw [show result.size - 8 + 8 = result.size by omega]
        exact nextTracks.stays_within_slack concludes policy tracks.tuned spare nonzero upTo least
          encodable

/-- A payload of one byte moves to have 9, in a block of 40 bytes. That is just enough for 25. -/
theorem resize_settles_of_replay : ∃ client next again last,
    replay (.ofLimit 512) ⟨16, 8, 16, 2⟩ [.allocate 1, .allocate 2] = some client ∧
      client.perform (.resize (some ⟨16⟩) 9) = .ok (.ok (some ⟨48⟩), next) ∧
      next.perform (.resize (some ⟨48⟩) 9) = .ok (.ok (some ⟨48⟩), again) ∧
      next.heap.Coincides again.heap ∧
      next.perform (.resize (some ⟨48⟩) 25) = .ok (.ok (some ⟨48⟩), last) ∧
      Heap.Unchanged { next.heap with region := next.heap.region.reservedBehind ⟨48⟩ 40 56 32 }
        last.heap := by
  have played : (replay (.ofLimit 512) ⟨16, 8, 16, 2⟩ [.allocate 1, .allocate 2]).any
      (fun client => ⟨16⟩ ∈ client.handles ∧ client.heap.policy = ⟨16, 8, 16, 2⟩ ∧
        (client.perform (.resize (some ⟨16⟩) 9)).map Prod.fst = .ok (.ok (some ⟨48⟩)) ∧
        (client.perform (.resize (some ⟨16⟩) 9)).bind
          (fun outcome => Heap.usable ⟨48⟩ outcome.2.heap.region) = .ok 32) = true := by
    decide +kernel
  obtain ⟨client, replayed, checked⟩ := (Option.any_eq_true _ _).1 played
  obtain ⟨held, policyIs, answered, usable⟩ := of_decide_eq_true checked
  obtain ⟨next, performed⟩ := exists_performed answered
  rw [performed] at usable
  have least : IsLeast (blockSizes 25) 40 :=
    ⟨⟨rfl, by decide, by decide⟩, fun size ⟨grained, wide, holds⟩ => by omega⟩
  obtain ⟨⟨again, repeated, coincides⟩, length, nextLength, -, nextUsable, spares⟩ :=
    resize_settles (reachable_of_replay replayed) held performed
  cases nextUsable.symm.trans usable
  rw [policyIs] at spares
  obtain ⟨last, grown, unchanged⟩ :=
    spares (.inl (by decide)) 25 40 (by decide) (by decide) least (by decide)
  exact ⟨client, next, again, last, replayed, performed, repeated, coincides, grown, unchanged⟩

end Client

end TaggedHeap
