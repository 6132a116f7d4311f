import TaggedHeap.Proofs.Client.Recency
import TaggedHeap.Proofs.Client.Replay
import TaggedHeap.Proofs.Heap.Choice

/-!
Contract: an allocation takes the block that fits best, and lets the heap grow only if none fits.

What an allocation comes to is told by the blocks that the heap shows and by the run that has led to
it, which says when each of them was filed.
-/

namespace TaggedHeap.Client

variable {client opened next : Client} {shape later : Shape} {region : Region} {policy : Policy}
  {requests : List Request} {replies : List Reply} {reply : Reply} {request size : Nat}
  {events : List Event} {filedLater : Handle × Nat → Handle × Nat → Prop}

/-- What an allocation of `request` bytes comes to, which takes a block of `size` bytes, on a heap
that shows `blocks`. -/
inductive Allots (client : Client) (blocks : List BlockInfo)
    (filedLater : Handle × Nat → Handle × Nat → Prop) (request size : Nat) :
    Reply → Client → Prop where
  | excessive {next : Client} (excess : maxBlock < size)
      (shown : next.heap.blocks = .ok blocks)
      (stop : next.heap.region.size = client.heap.region.size) :
      Allots client blocks filedLater request size (.error (.tooLarge request)) next
  | served {front back : List BlockInfo} {chosen : BlockInfo} {next : Client}
      (encodable : size ≤ maxBlock)
      (chooses : client.heap.Chooses blocks filedLater size front chosen back
        next.heap.region.size)
      (shown : next.heap.blocks =
        .ok (front ++ chosen.taken size :: (chosen.remainder size ++ back))) :
      Allots client blocks filedLater request size (.ok (some chosen.handle)) next
  | lacking {failure : Failure} {next : Client} (encodable : size ≤ maxBlock)
      (missing : ∀ info ∈ blocks, ¬info.Offers size)
      (refuses : client.heap.RefusesGrowth (max size client.heap.policy.growthUnit)
        (max size client.heap.policy.growthUnit) failure)
      (shown : next.heap.blocks = .ok blocks)
      (stop : next.heap.region.size = client.heap.region.size) :
      Allots client blocks filedLater request size (.error failure) next

/-- The policy of a heap that was built is not defective, and stays so. -/
theorem Runs.policy_sane (runs : Runs opened requests replies client)
    (opens : Opens region policy opened) : client.heap.policy.defect? = none := by
  obtain ⟨shape, events, founds, tracks⟩ := opens.founds
  obtain ⟨later, laterTracks, setting⟩ := runs.tracks tracks
  obtain ⟨-, policyIs, -, -, sane⟩ := founds.later_facts
  rwa [laterTracks.shows.policy, setting.policy, policyIs]

theorem Tracks.growthUnit_mod (tracks : client.Tracks shape)
    (sane : client.heap.policy.defect? = none) : shape.policy.growthUnit % 8 = 0 := by
  rw [← tracks.shows.policy]
  exact ((Policy.defect?_eq_none_iff _).1 sane).2.1.2

theorem Tracks.allots (tracks : client.Tracks shape) (nextTracks : next.Tracks later)
    (steps : shape.Steps (.allocate request) reply later events) (something : 1 ≤ request)
    (least : IsLeast (blockSizes request) size) (sane : client.heap.policy.defect? = none)
    (ordered : shape.lists.OrderedBy filedLater) :
    client.Allots shape.blocks filedLater request size reply next := by
  obtain ⟨grained, wide, -⟩ := least.1
  have shows := tracks.shows
  have stop : client.heap.region.size = shape.stop := shows.lays.size
  have nextStop : next.heap.region.size = later.stop := nextTracks.shows.lays.size
  have nextBlocks := nextTracks.shows.blocks_eq nextTracks.valid.sound
  have even := tracks.growthUnit_mod sane
  obtain @⟨_, _, _, _, allocates⟩ := steps
  cases allocates with
  | nothing nothing => omega
  | served _ judged serves =>
      obtain ⟨rfl, encodable⟩ := eq_of_blockSizeFor least judged
      obtain ⟨front, chosen, back, chooses, blocks, rfl⟩ :=
        serves.chooses shows tracks.valid wide grained even ordered
      rw [← nextStop] at chooses
      change client.Allots _ _ _ _ (.ok (some chosen.handle)) _
      exact .served encodable chooses (nextBlocks.trans (congrArg _ blocks))
  | excessive _ judged =>
      obtain ⟨rfl, excess⟩ := excess_of_blockSizeFor least judged
      exact .excessive excess nextBlocks (nextStop.trans stop.symm)
  | lacking _ judged lacks =>
      obtain ⟨rfl, encodable⟩ := eq_of_blockSizeFor least judged
      obtain ⟨missing, refuses⟩ := lacks.refusesGrowth shows tracks.valid wide grained even
      exact .lacking encodable missing refuses nextBlocks (nextStop.trans stop.symm)

/-- In every state that a client of a new heap can come to, an allocation takes the block that fits
best: the smallest that is large enough and free and not reserved, and of several the one that was
filed last. If there is none, the heap grows by as much as is needed or by the unit of its policy,
whichever is more, and takes the block at its end. It fails if the size that is needed is larger
than any block can be, or if the heap is to grow and cannot. -/
theorem allocates_best_fit (opens : Opens region policy opened)
    (runs : Runs opened requests replies client) (something : 1 ≤ request)
    (least : IsLeast (blockSizes request) size) :
    ∃ blocks reply next, client.heap.blocks = .ok blocks ∧
      client.perform (.allocate request) = .ok (reply, next) ∧
      client.Allots blocks (fun newer older => FiledLater newer older opened requests client)
        request size reply next := by
  obtain ⟨shape, tracks, ordered⟩ := opens.filed_later runs
  obtain ⟨reply, next, later, events, steps, performed, nextTracks, -⟩ :=
    tracks.perform (permits_allocate client request)
  refine ⟨shape.blocks, reply, next, tracks.shows.blocks_eq tracks.valid.sound, performed, ?_⟩
  exact tracks.allots nextTracks steps something least (runs.policy_sane opens) ordered

/-- Two free blocks of one size: the one that was released last serves. -/
theorem allocates_best_fit_of_replay : ∃ client opened blocks reply next,
    replay (.ofLimit 512) ⟨16, 8, 16, 2⟩ [.allocate 1, .allocate 2, .allocate 3, .allocate 4,
      .release (some ⟨48⟩), .release (some ⟨16⟩)] = some client ∧
      client.heap.blocks = .ok blocks ∧
      client.perform (.allocate 5) = .ok (reply, next) ∧ reply = .ok (some ⟨16⟩) ∧
      client.Allots blocks (fun newer older => FiledLater newer older opened [.allocate 1,
        .allocate 2, .allocate 3, .allocate 4, .release (some ⟨48⟩), .release (some ⟨16⟩)] client)
        5 16 reply next := by
  have played : (replay (.ofLimit 512) ⟨16, 8, 16, 2⟩ [.allocate 1, .allocate 2, .allocate 3,
      .allocate 4, .release (some ⟨48⟩), .release (some ⟨16⟩)]).any (fun client =>
        (client.perform (.allocate 5)).map Prod.fst = .ok (.ok (some ⟨16⟩))) = true := by
    decide +kernel
  obtain ⟨client, replayed, checked⟩ := (Option.any_eq_true _ _).1 played
  have answered := of_decide_eq_true checked
  obtain ⟨opened, replies, opens, runs⟩ := exists_runs_of_replay replayed
  have least : IsLeast (blockSizes 5) 16 := ⟨⟨rfl, by decide, by decide⟩, fun _ holds => holds.2.1⟩
  obtain ⟨blocks, reply, next, shown, performed, allots⟩ :=
    allocates_best_fit opens runs (by decide) least
  rw [performed] at answered
  exact ⟨client, opened, blocks, reply, next, replayed, shown, performed, Except.ok.inj answered,
    allots⟩

end TaggedHeap.Client
