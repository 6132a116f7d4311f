import TaggedHeap.Proofs.Client.Invariant
import TaggedHeap.Proofs.Client.Replay

/-!
Contract: what becomes of payloads.

A permitted request changes no payload but that of the handle it names. A resize carries the payload
of its handle along, as far as both the old payload and the request reach, and a refusal changes no
payload at all.
-/

namespace TaggedHeap

/-- Both arrays reach up to `count`, and have the same bytes up to there. -/
def Bytes.AgreeUpTo (count : Nat) (old new : ByteArray) : Prop :=
  count ≤ old.size ∧ count ≤ new.size ∧ ∀ index < count, read new index = read old index

theorem Region.extract_congr {left right : Region} {start count : Nat}
    (inside : start + count ≤ left.size) (alsoInside : start + count ≤ right.size)
    (same : ∀ index < count, right.byte (start + index) = left.byte (start + index)) :
    right.extract start count = left.extract start count := by
  have clipped : right.clip start count = left.clip start count := by
    simp only [clip, Nat.min_eq_left inside, Nat.min_eq_left alsoInside]
  rw [extract, extract, clipped]
  apply Bytes.gather_congr
  intro index below
  apply same index
  have shorter : left.clip start count ≤ count := by
    rw [clip]
    omega
  omega

namespace Heap

/-- The payload of the handle can be read from both heaps, and is the same in both. -/
def KeepsPayload (before after : Heap) (handle : Handle) : Prop :=
  ∃ bytes, payload handle before.region = .ok bytes ∧ payload handle after.region = .ok bytes

/-- The payload of `target` begins with the first `bytes` bytes that the payload of `source` had,
or with all of it if it was shorter or has stayed where it was. -/
def CarriesPayload (before after : Heap) (source target : Handle) (bytes : Nat) : Prop :=
  ∃ old new, usable source before.region = .ok old.size ∧
    payload source before.region = .ok old ∧ payload target after.region = .ok new ∧
      Bytes.AgreeUpTo (min old.size bytes) old new ∧
        (target = source → Bytes.AgreeUpTo old.size old new)

end Heap

namespace Shape

variable {shape later : Shape} {request : Request} {handle : Handle} {size laterSize : Nat}

/-- The bytes that a payload has before and after a step are spared, unless it is written. -/
theorem spared_of_present (sound : shape.Sound) (present : (handle, size) ∈ shape.extents)
    (laterPresent : (handle, laterSize) ∈ later.extents)
    (notWritten : request.overwritten ≠ some handle) {index : Nat} (inside : index + 8 < size)
    (laterInside : index + 8 < laterSize) : shape.Spared later request (handle.offset + index) := by
  refine ⟨held_of_present present inside, held_of_present laterPresent laterInside, ?_⟩
  obtain ⟨own, ownMember, -, rfl, rfl⟩ := mem_extents.1 present
  intro info member written
  rcases sound.layout.tiles.apart_of_mem ownMember member with rfl | apart
  · exact absurd written notWritten
  · apply apart.not_inside
    refine ⟨Nat.le_add_right .., ?_⟩
    change own.offset + index + 8 < own.offset + own.size
    omega

/-- A payload is as long as its block is wide, less the two tags. -/
theorem size_payload (sound : shape.Sound) (present : (handle, size) ∈ shape.extents)
    {heap : Heap} (shows : heap.Shows shape) :
    handle.offset + (size - 8) ≤ heap.region.size ∧
      (heap.region.extract handle.offset (size - 8)).size = size - 8 := by
  obtain ⟨info, member, -, rfl, rfl⟩ := mem_extents.1 present
  have upTo := sound.inside member
  have regionSize : heap.region.size = shape.stop := shows.lays.size
  have inside : info.handle.offset + (info.size - 8) ≤ heap.region.size := by
    change info.offset + (info.size - 8) ≤ heap.region.size
    omega
  refine ⟨inside, ?_⟩
  rw [Region.size_extract, Region.clip, Nat.min_eq_left inside, Nat.add_sub_cancel_left]

end Shape

namespace Client

variable {client next : Client} {shape later : Shape} {request : Request} {reply : Reply}
  {events : List Event} {handle source target : Handle} {size : Nat}

theorem run_of_perform (performed : client.perform request = .ok (reply, next)) :
    request.act.run.run client.heap = .ok reply next.heap := by
  rw [perform] at performed
  split at performed
  · rename_i answer heap ran
    cases performed
    exact ran
  · rename_i failure heap ran
    cases performed
    exact ran
  · cases performed

/-- A block that stays where it is, and is not written, keeps its payload. -/
theorem Tracks.keepsPayload (tracks : client.Tracks shape) (nextTracks : next.Tracks later)
    (leads : client.heap.Leads next.heap later events (shape.Spared later request))
    (present : (handle, size) ∈ shape.extents) (stays : (handle, size) ∈ later.extents)
    (notWritten : request.overwritten ≠ some handle) :
    client.heap.KeepsPayload next.heap handle := by
  have sound := tracks.valid.sound
  have laterSound := nextTracks.valid.sound
  have same : next.heap.region.extract handle.offset (size - 8) =
      client.heap.region.extract handle.offset (size - 8) := by
    apply Region.extract_congr
    · exact (Shape.size_payload sound present tracks.shows).1
    · exact (Shape.size_payload laterSound stays nextTracks.shows).1
    · intro index below
      exact leads.bytes _
        (Shape.spared_of_present sound present stays notWritten (by omega) (by omega))
  refine ⟨_, Shape.payload_run sound present tracks.shows, ?_⟩
  rw [← same]
  exact Shape.payload_run laterSound stays nextTracks.shows

/-- Bytes that were carried from one place to another can be read there as the payload. -/
theorem Tracks.agreeUpTo (tracks : client.Tracks shape) (nextTracks : next.Tracks later)
    {laterSize count : Nat} (present : (source, size) ∈ shape.extents)
    (laterPresent : (target, laterSize) ∈ later.extents) (inside : count ≤ size - 8)
    (laterInside : count ≤ laterSize - 8)
    (carried : ∀ index < count, next.heap.region.byte (target.offset + index) =
      client.heap.region.byte (source.offset + index)) :
    Bytes.AgreeUpTo count (client.heap.region.extract source.offset (size - 8))
      (next.heap.region.extract target.offset (laterSize - 8)) := by
  have sound := tracks.valid.sound
  have laterSound := nextTracks.valid.sound
  refine ⟨?_, ?_, ?_⟩
  · rw [(Shape.size_payload sound present tracks.shows).2]
    exact inside
  · rw [(Shape.size_payload laterSound laterPresent nextTracks.shows).2]
    exact laterInside
  · intro index below
    rw [Shape.read_payload sound present tracks.shows,
      Shape.read_payload laterSound laterPresent nextTracks.shows, if_pos (by omega),
      if_pos (by omega), carried index below]

/-- A resize that is granted carries the payload along. -/
theorem Tracks.carriesPayload (tracks : client.Tracks shape) (nextTracks : next.Tracks later)
    {info result : BlockInfo} {bytes : Nat} (something : bytes ≠ 0) (member : info ∈ shape.blocks)
    (allocated : info.allocated = true) (resizes : shape.Resizes info bytes result later events)
    (performed : client.perform (.resize (some info.handle) bytes) =
      .ok (.ok (some result.handle), next)) :
    client.heap.CarriesPayload next.heap info.handle result.handle bytes := by
  have valid := tracks.valid
  have present := Shape.present_of_allocated member allocated
  have laterPresent := (resizes.exchanges valid tracks.tuned member allocated).mem_later
    List.mem_cons_self
  obtain ⟨covers, longer⟩ := resizes.result_facts valid tracks.tuned member allocated
  obtain ⟨after, ran, leads, carried⟩ :=
    resizes.carries_resize valid tracks.tuned member allocated something client.heap tracks.shows
  have isAfter : after = next.heap := by
    have both := ran.symm.trans (run_of_perform performed)
    cases both
    rfl
  rw [isAfter] at leads carried
  have size := (Shape.size_payload valid.sound present tracks.shows).2
  refine ⟨_, _, ?_, Shape.payload_run valid.sound present tracks.shows,
    Shape.payload_run nextTracks.valid.sound laterPresent nextTracks.shows, ?_, ?_⟩
  · rw [size]
    exact Shape.sees_usable valid.sound present client.heap tracks.shows
  · rw [size]
    exact tracks.agreeUpTo nextTracks present laterPresent (by omega) (by omega) carried
  · intro same
    have enough := longer same
    rw [size]
    apply tracks.agreeUpTo nextTracks present laterPresent (Nat.le_refl _) (by omega)
    intro index below
    rw [same]
    rw [same] at laterPresent
    exact leads.bytes _ ⟨Shape.held_of_present present (by omega),
      Shape.held_of_present laterPresent (by omega)⟩

/-- A permitted request in a reachable state keeps the payload of every live handle that it does
not name. A resize of a live handle to some bytes carries the payload along, and a request that
fails keeps every payload. -/
theorem contents_of_reachable (reachable : Reachable client) (permitted : client.Permits request) :
    ∃ reply next, client.perform request = .ok (reply, next) ∧
      (∀ handle ∈ client.handles, request.named ≠ some handle →
        client.heap.KeepsPayload next.heap handle) ∧
      (∀ source bytes answer, request = .resize (some source) bytes → bytes ≠ 0 →
        reply = .ok answer → ∃ target ∈ next.handles, answer = some target ∧
          client.heap.CarriesPayload next.heap source target bytes) ∧
      ∀ failure, reply = .error failure → ∀ handle ∈ client.handles,
        client.heap.KeepsPayload next.heap handle := by
  obtain ⟨shape, tracks⟩ := reachable.tracks
  obtain ⟨reply, next, later, events, steps, performed, nextTracks, leads⟩ :=
    tracks.perform permitted
  refine ⟨reply, next, performed, ?_, ?_, ?_⟩
  · intro handle held notNamed
    obtain ⟨size, present⟩ := tracks.present_of_mem held
    have stays : (handle, size) ∈ later.extents :=
      steps.keeps tracks.valid tracks.tuned present fun surrendered =>
        notNamed (Request.named_of_surrendered surrendered)
    exact tracks.keepsPayload nextTracks leads present stays fun overwritten =>
      notNamed (Request.named_of_overwritten overwritten)
  · rintro source bytes answer rfl something rfl
    cases steps with
    | resizeAway => exact absurd rfl something
    | @resize info result _ _ _ _ member allocated resizes =>
        have exchanges := resizes.exchanges tracks.valid tracks.tuned member allocated
        refine ⟨result.handle, ?_, rfl, ?_⟩
        · exact nextTracks.mem_of_present (exchanges.mem_later List.mem_cons_self)
        · exact tracks.carriesPayload nextTracks something member allocated resizes performed
  · rintro failure rfl handle held
    obtain ⟨size, present⟩ := tracks.present_of_mem held
    have notWritten : request.overwritten ≠ some handle := by
      rw [steps.overwritten_of_failed]
      exact nofun
    obtain rfl := steps.failed
    exact tracks.keepsPayload nextTracks leads present present notWritten

/-- A payload that was written is moved by a resize, and the one behind it stays. -/
theorem contents_of_replay : ∃ client next,
    replay (.ofLimit 512) ⟨16, 8, 16, 2⟩ [.allocate 5, .write ⟨16⟩ 3 ⟨#[7, 8]⟩,
        .allocate 2] = some client ∧
      client.perform (.resize (some ⟨16⟩) 9) = .ok (.ok (some ⟨48⟩), next) ∧
      client.heap.KeepsPayload next.heap ⟨32⟩ ∧
      client.heap.CarriesPayload next.heap ⟨16⟩ ⟨48⟩ 9 := by
  have played : (replay (.ofLimit 512) ⟨16, 8, 16, 2⟩ [.allocate 5, .write ⟨16⟩ 3 ⟨#[7, 8]⟩,
      .allocate 2]).any (fun client => ⟨16⟩ ∈ client.handles ∧ ⟨32⟩ ∈ client.handles ∧
        (client.perform (.resize (some ⟨16⟩) 9)).map Prod.fst = .ok (.ok (some ⟨48⟩))) =
      true := by
    decide +kernel
  obtain ⟨client, replayed, checked⟩ := (Option.any_eq_true _ _).1 played
  obtain ⟨moving, staying, answered⟩ := of_decide_eq_true checked
  have permitted : client.Permits (.resize (some ⟨16⟩) 9) := permits_of_mem rfl moving
  obtain ⟨reply, next, performed, keeps, carries, -⟩ :=
    contents_of_reachable (reachable_of_replay replayed) permitted
  rw [performed] at answered
  cases answered
  obtain ⟨target, -, same, carried⟩ := carries _ _ _ rfl (by decide) rfl
  cases same
  exact ⟨client, next, replayed, performed, keeps _ staying (by decide), carried⟩

end Client

end TaggedHeap
