import TaggedHeap.Proofs.Client.Marks

/-!
Contract: how long a reservation lasts.

A reserved block is reserved for the allocated block in front of it. It stays reserved, and as it
is while it is free, until that block is released, moves or grows, or until the reserved block
itself grows where it is. Conversely nothing is reserved anew but what lies directly behind the
answer to a resize.
-/

namespace TaggedHeap

/-- How a request ends the reservation of `held` for the block `before` in front of it. `later`
are the blocks afterwards. -/
inductive Request.Ends (before held : BlockInfo) (later : List BlockInfo) :
    Request → Reply → Prop where
  | released : Ends before held later (.release (some before.handle)) (.ok none)
  | resizedAway : Ends before held later (.resize (some before.handle) 0) (.ok none)
  | moved {bytes : Nat} {answer : Handle} (elsewhere : answer ≠ before.handle) :
      Ends before held later (.resize (some before.handle) bytes) (.ok (some answer))
  | grown {bytes : Nat} {after : BlockInfo} (member : after ∈ later)
      (same : after.handle = before.handle) (larger : before.size < after.size) :
      Ends before held later (.resize (some before.handle) bytes) (.ok (some before.handle))
  | outgrown {bytes : Nat} {after : BlockInfo} (member : after ∈ later)
      (same : after.handle = held.handle) (larger : held.size < after.size) :
      Ends before held later (.resize (some held.handle) bytes) (.ok (some held.handle))

namespace Shape

variable {shape later : Shape} {request : Request} {reply : Reply} {closing : Bool}
  {bytes place : Nat} {held before : BlockInfo} {events : List Event}

theorem Allocates.mem_later_of_reserved (allocates : shape.Allocates bytes reply later events)
    (valid : shape.Valid) (anchored : shape.Anchored) (member : held ∈ shape.blocks)
    (reserved : held.reserved = true) : held ∈ later.blocks := by
  cases allocates with
  | served something judged serves =>
      exact serves.mem_later_of_reserved valid anchored member reserved
  | nothing | excessive | lacking => exact member

namespace Steps

variable (steps : shape.Steps request reply later events) (valid : shape.Valid)
  (tuned : shape.policy.resizeSlack % 8 = 0)

include steps valid tuned

/-- A step keeps a reservation unless it ends it. -/
theorem stays_or_ends (anchored : shape.Anchored) (member : held ∈ shape.blocks)
    (reserved : held.reserved = true) (beforeMember : before ∈ shape.blocks)
    (ends : before.offset + before.size = held.offset) :
    held.StaysIn later.blocks ∨ request.Ends before held later.blocks reply := by
  have isBefore : ∀ info ∈ shape.blocks, held.offset = info.offset + info.size → info = before :=
    fun info infoMember infoEnds =>
      valid.sound.layout.tiles.eq_of_end infoMember beforeMember (infoEnds.symm.trans ends.symm)
  cases steps with
  | allocate allocates | resizeNothing allocates =>
      exact .inl (BlockInfo.staysIn_of_mem
        (allocates.mem_later_of_reserved valid anchored member reserved) reserved)
  | @release info later events infoMember allocated releases =>
      by_cases behind : held.offset = info.offset + info.size
      · obtain rfl := isBefore info infoMember behind
        exact .inr .released
      · exact .inl (releases.stays valid.sound anchored allocated member reserved behind)
  | @resizeAway info later events infoMember allocated releases =>
      by_cases behind : held.offset = info.offset + info.size
      · obtain rfl := isBefore info infoMember behind
        exact .inr .resizedAway
      · exact .inl (releases.stays valid.sound anchored allocated member reserved behind)
  | @resize info result bytes later events something infoMember allocated resizes =>
      have exchanges := resizes.exchanges valid tuned infoMember allocated
      obtain ⟨after, afterMember, -, afterHandle, afterSize⟩ :=
        mem_extents.1 (exchanges.mem_later List.mem_cons_self)
      rcases resizes.stays_or_enlarges valid tuned anchored infoMember allocated member reserved
        with stays | ⟨larger, behind | ⟨sameHandle, rfl⟩⟩
      · exact .inl stays
      · obtain rfl := isBefore info infoMember behind
        by_cases inPlace : result.handle = info.handle
        · rw [inPlace] at afterHandle ⊢
          exact .inr (.grown afterMember afterHandle (afterSize ▸ larger))
        · exact .inr (.moved inPlace)
      · rw [sameHandle] at afterHandle ⊢
        exact .inr (.outgrown afterMember afterHandle (afterSize ▸ larger))
  | releaseNothing | reject | write => exact .inl (BlockInfo.staysIn_of_mem member reserved)

/-- A step sets no mark but the one behind the answer to a resize. -/
theorem marked_of_later (marked : later.Marked closing place) : shape.Marked closing place ∨
    ∃ handle bytes answer size, request = .resize (some handle) bytes ∧
      reply = .ok (some answer) ∧ (answer, size) ∈ later.extents ∧
      answer.offset + size = place := by
  cases steps with
  | allocate allocates | resizeNothing allocates => exact .inl (allocates.marked_of_later marked)
  | release member allocated releases | resizeAway member allocated releases =>
      exact .inl (releases.marked_of_later valid.sound marked)
  | resize something member allocated resizes =>
      refine (resizes.marked_of_later valid tuned marked).imp_right fun behind => ?_
      have exchanges := resizes.exchanges valid tuned member allocated
      exact ⟨_, _, _, _, rfl, rfl, exchanges.mem_later List.mem_cons_self, behind.symm⟩
  | releaseNothing | reject | write => exact .inl marked

end Steps

end Shape

/-- The request was a resize, and the last of these blocks is its answer. -/
def Request.ResizesInto (request : Request) (reply : Reply) (blocks : List BlockInfo) : Prop :=
  ∃ handle bytes earlier answer, request = .resize (some handle) bytes ∧
    blocks = earlier ++ [answer] ∧ reply = .ok (some answer.handle)

/-- What a request does to reservations, in terms of the blocks and the epilogue before it and
after it. -/
structure Request.Reserves (request : Request) (reply : Reply) (blocks : List BlockInfo)
    (epilogue : BlockInfo) (later : List BlockInfo) (laterEpilogue : BlockInfo) : Prop where
  /-- A reserved block has an allocated one in front of it, for which it stays reserved unless the
  request ends that. -/
  kept : ∀ front held back, blocks = front ++ held :: back → held.reserved = true →
    ∃ earlier before, front = earlier ++ [before] ∧ before.allocated = true ∧
      (held.StaysIn later ∨ request.Ends before held later reply)
  /-- A block that is reserved was a reserved block before, or lies directly behind the answer. -/
  set : ∀ front info back, later = front ++ info :: back → info.reserved = true →
    (∃ old ∈ blocks, old.reserved = true ∧ old.handle = info.handle) ∨
      request.ResizesInto reply front
  /-- The same of the epilogue, which growth replaces by an unreserved one. -/
  setEpilogue : laterEpilogue.reserved = true →
    laterEpilogue = epilogue ∨ request.ResizesInto reply later

namespace Shape.Steps

variable {shape later : Shape} {request : Request} {reply : Reply} {events : List Event}
  {closing : Bool} {info : BlockInfo} {front back : List BlockInfo}
  (steps : shape.Steps request reply later events) (valid : shape.Valid)
  (tuned : shape.policy.resizeSlack % 8 = 0) (anchored : shape.Anchored)

include steps valid tuned anchored

/-- A mark that was not there before has the answer to a resize directly in front of it. -/
theorem marked_or_resizesInto (split : later.closed = front ++ info :: back)
    (reserved : info.reserved = true) (marked : later.Marked closing info.offset) :
    shape.Marked closing info.offset ∨ request.ResizesInto reply front := by
  refine (steps.marked_of_later valid tuned marked).imp_right ?_
  rintro ⟨handle, bytes, answer, size, asked, rfl, present, behind⟩
  have laterSound := (steps.valid_later valid tuned).sound
  obtain ⟨earlier, before, cut, beforeMember, -, ends⟩ :=
    (steps.anchored_later valid tuned anchored).exists_before laterSound split reserved
  obtain ⟨result, resultMember, -, rfl, rfl⟩ := mem_extents.1 present
  obtain rfl := laterSound.layout.tiles.eq_of_end beforeMember resultMember
    (ends.trans behind.symm)
  exact ⟨handle, bytes, earlier, before, asked, cut, rfl⟩

theorem reserves :
    request.Reserves reply shape.blocks shape.epilogue later.blocks later.epilogue where
  kept := by
    intro front held back split reserved
    have closed : shape.closed = front ++ held :: (back ++ [shape.epilogue]) := by
      simp [Layout.closed, split]
    obtain ⟨earlier, before, cut, beforeMember, allocated, ends⟩ :=
      anchored.exists_before valid.sound closed reserved
    exact ⟨earlier, before, cut, allocated, steps.stays_or_ends valid tuned anchored
      (by simp [split]) reserved beforeMember ends⟩
  set := by
    intro front info back split reserved
    have closed : later.closed = front ++ info :: (back ++ [later.epilogue]) := by
      simp [Layout.closed, split]
    refine (steps.marked_or_resizesInto valid tuned anchored closed reserved
      (.block (by simp [split]) reserved)).imp_left fun marked => ?_
    obtain ⟨old, member, wasReserved, same⟩ := marked.exists_block
    exact ⟨old, member, wasReserved, congrArg Handle.mk same⟩
  setEpilogue := by
    intro reserved
    refine (steps.marked_or_resizesInto valid tuned anchored rfl reserved
      (.epilogue reserved)).imp_left fun marked => ?_
    obtain ⟨stop, wasReserved⟩ := marked.at_stop
    have stop : later.stop = shape.stop := stop
    have reserved : later.stopReserved = true := reserved
    rw [Layout.epilogue, Layout.epilogue, stop, reserved, wasReserved]

end Shape.Steps

namespace Client

variable {client : Client} {shape : Shape} {request : Request}

/-- Growing the region takes no reserved block, on its own as little as within a request. -/
theorem Tracks.extend (tracks : client.Tracks shape) (anchored : shape.Anchored) (bytes : Nat) :
    ∃ reply after blocks, (Heap.extend bytes).run.run client.heap = .ok reply after ∧
      after.blocks = .ok blocks ∧
        ∀ held ∈ shape.blocks, held.reserved = true → held ∈ blocks := by
  have valid := tracks.valid
  rcases shape.grows_or_refuses bytes with
    ⟨start, later, events, grows⟩ | ⟨failure, events, refuses⟩
  · obtain ⟨after, ran, leads⟩ := grows.grants valid.sound valid.complete client.heap tracks.shows
    exact ⟨_, after, later.blocks, ran, leads.shows.blocks_eq (grows.valid valid).sound,
      fun held member => grows.mem_later_of_reserved anchored valid.sound member⟩
  · have same := tracks.shows.blocks_eq valid.sound
    exact ⟨_, _, shape.blocks, refuses.denies client.heap tracks.shows, same,
      fun held member _ => member⟩

/-- Whatever is requested next in a reachable state, a reserved block stays reserved and a free one
stays as it is, unless the request ends the reservation, and the request reserves nothing but what
lies behind the answer to a resize. -/
theorem reservations_of_reachable (reachable : Reachable client)
    (permitted : client.Permits request) :
    ∃ reply next blocks epilogue later laterEpilogue,
      client.perform request = .ok (reply, next) ∧ client.heap.Displays blocks epilogue ∧
        next.heap.Displays later laterEpilogue ∧
        request.Reserves reply blocks epilogue later laterEpilogue ∧
        ∀ bytes, ∃ verdict after extended,
          (Heap.extend bytes).run.run client.heap = .ok verdict after ∧
            after.blocks = .ok extended ∧
            ∀ held ∈ blocks, held.reserved = true → held ∈ extended := by
  obtain ⟨shape, tracks, anchored⟩ :=
    reachable.maintains Shape.Steps.anchored_later Shape.Founds.anchored
  obtain ⟨reply, next, later, events, steps, performed, nextTracks, -⟩ := tracks.perform permitted
  exact ⟨reply, next, shape.blocks, shape.epilogue, later.blocks, later.epilogue, performed,
    tracks.shows.displays tracks.valid.sound, nextTracks.shows.displays nextTracks.valid.sound,
    steps.reserves tracks.valid tracks.tuned anchored, tracks.extend anchored⟩

/-- A free block that is kept for the payload in front of it does not take in the one behind it. -/
theorem reservations_of_replay : ∃ client reply next later laterEpilogue,
    replay (.ofLimit 512) ⟨16, 8, 16, 2⟩ [.allocate 1, .allocate 1, .resize (some ⟨16⟩) 1,
        .allocate 1, .release (some ⟨32⟩)] = some client ∧
      client.perform (.release (some ⟨48⟩)) = .ok (reply, next) ∧
      next.heap.Displays later laterEpilogue ∧ ⟨⟨32⟩, 16, false, true⟩ ∈ later := by
  have played : (replay (.ofLimit 512) ⟨16, 8, 16, 2⟩ [.allocate 1, .allocate 1,
      .resize (some ⟨16⟩) 1, .allocate 1, .release (some ⟨32⟩)]).any (fun client =>
        ⟨48⟩ ∈ client.handles ∧ client.heap.blocks = .ok
          [⟨⟨16⟩, 16, true, false⟩, ⟨⟨32⟩, 16, false, true⟩, ⟨⟨48⟩, 16, true, false⟩]) = true := by
    decide +kernel
  obtain ⟨client, replayed, checked⟩ := (Option.any_eq_true _ _).1 played
  obtain ⟨held, shown⟩ := of_decide_eq_true checked
  obtain ⟨reply, next, blocks, epilogue, later, laterEpilogue, performed, displays, laterDisplays,
      reserves, -⟩ :=
    reservations_of_reachable (reachable_of_replay replayed)
      (show client.Permits (.release (some ⟨48⟩)) from permits_of_mem rfl held)
  cases displays.blocks.symm.trans shown
  obtain ⟨earlier, before, cut, -, stays | ends⟩ :=
    reserves.kept [⟨⟨16⟩, 16, true, false⟩] ⟨⟨32⟩, 16, false, true⟩ [_] rfl rfl
  · obtain ⟨after, member, -, -, unchanged⟩ := stays
    obtain rfl := unchanged rfl
    exact ⟨client, reply, next, later, laterEpilogue, replayed, performed, laterDisplays, member⟩
  · obtain ⟨-, isBefore⟩ := List.append_inj' (show [] ++ [_] = earlier ++ [before] from cut) rfl
    cases isBefore
    cases ends

end Client

end TaggedHeap
