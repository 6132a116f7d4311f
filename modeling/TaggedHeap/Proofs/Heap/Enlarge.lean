import TaggedHeap.Proofs.Heap.Choice
import TaggedHeap.Proofs.Heap.Survey
import TaggedHeap.Proofs.Shape.Anchor

/-!
Contract: what a resize that has to enlarge a payload makes of the blocks of a heap.

The room that decides is that of the block and the free run directly behind it. The epilogue counts
as the last block here: it may end the run, and it can be reserved like any other. The main
statements say what the headers read afterwards, on every path of the resize.
-/

namespace TaggedHeap

/-- An allocated block among the others, the epilogue the last of them, with the free blocks
directly behind it and the allocated one that ends them. -/
structure Site where
  front : List BlockInfo
  block : BlockInfo
  run : List BlockInfo
  last : BlockInfo
  beyond : List BlockInfo
  live : block.allocated = true
  free : AllFree run
  ends : last.allocated = true

namespace Site

def closed (site : Site) : List BlockInfo :=
  site.front ++ site.block :: (site.run ++ site.last :: site.beyond)

/-- Number of bytes that the block can have where it is. -/
def room (site : Site) : Nat :=
  site.block.size + sizeSum site.run

/-- The block with another size, and without a mark. -/
def widened (site : Site) (size : Nat) : BlockInfo :=
  ⟨site.block.handle, size, true, false⟩

end Site

/-- The blocks with the one behind `result` reserved, if less than `margin` bytes are left beyond
`target`. -/
def reservedFor (result : BlockInfo) (target margin : Nat) (blocks : List BlockInfo) :
    List BlockInfo :=
  if result.size - target < margin then
    blocks.map (BlockInfo.marked (result.offset + result.size) true)
  else
    blocks

namespace BlockInfo

/-- The epilogue of a heap that ended with `epilogue` and now ends at `stop`. Growth leaves no mark
on it. -/
def carriedTo (epilogue : BlockInfo) (stop : Nat) : BlockInfo :=
  if epilogue.offset = stop then epilogue else ⟨⟨stop⟩, 0, true, false⟩

/-- What merging makes of the free block `info` between `front` and `behind`: it takes in the free
blocks behind it, and the one in front of it joins if that is free and not reserved. -/
inductive Fuses (front : List BlockInfo) (info : BlockInfo) (behind : List BlockInfo) :
    List BlockInfo → Prop where
  | onwards {run back : List BlockInfo} (cut : behind = run ++ back) (free : AllFree run)
      (ends : ∀ next ∈ back.head?, next.allocated = true)
      (closed : ∀ last ∈ front.getLast?, last.allocated = true ∨ last.reserved = true) :
      Fuses front info behind (front ++ info.fuse run :: back)
  | bothWays {earlier run back : List BlockInfo} {first : BlockInfo}
      (last : front = earlier ++ [first]) (cut : behind = run ++ back) (free : AllFree run)
      (ends : ∀ next ∈ back.head?, next.allocated = true) (firstFree : first.allocated = false)
      (unreserved : first.reserved = false) :
      Fuses front info behind (earlier ++ first.fuse (info :: run) :: back)

/-- What releasing an allocated block makes of the blocks: it becomes free, the one behind it loses
its mark, and then it merges with its free neighbours. -/
def Dissolves (info : BlockInfo) (closed later : List BlockInfo) : Prop :=
  ∃ front behind, closed = front ++ info :: behind ∧
    Fuses front info.freed (Shape.unmarked info behind) later

end BlockInfo

namespace Heap

/-- What the headers of a heap read, that of the epilogue the last. -/
def Reads (heap : Heap) (closed : List BlockInfo) : Prop :=
  ∃ blocks epilogue, heap.Displays blocks epilogue ∧ closed = blocks ++ [epilogue]

/-- What a resize comes to that has to enlarge the block of a site to `target` bytes, on a heap that
displays these blocks and this epilogue. -/
inductive Widens (heap : Heap) (blocks : List BlockInfo) (epilogue : BlockInfo)
    (filedLater : Handle × Nat → Handle × Nat → Prop) (target : Nat) (site : Site) :
    Except Failure (Option Handle) → Heap → Prop where
  /-- There is room where the block is. -/
  | within {next : Heap} (enough : target ≤ site.room)
      (reads : next.Reads (reservedFor (site.widened site.room) target heap.policy.reserveMargin
        (site.front ++ site.widened site.room :: site.last :: site.beyond)))
      (stop : next.region.size = heap.region.size) :
      Widens heap blocks epilogue filedLater target site (.ok (some site.block.handle)) next
  /-- The heap grows, and then there is room. -/
  | beyond {count : Nat} {next : Heap} (short : site.room < target) (atEnd : site.beyond = [])
      (least : count = max (max (target - site.room) heap.policy.growthUnit) 16)
      (encodable : heap.region.size + count ≤ maxBlock)
      (fits : count ≤ heap.region.limit - heap.region.size)
      (reads : next.Reads (reservedFor (site.widened (site.room + count)) target
        heap.policy.reserveMargin (site.front ++ [site.widened (site.room + count),
          ⟨⟨heap.region.size + count⟩, 0, true, false⟩])))
      (stop : next.region.size = heap.region.size + count) :
      Widens heap blocks epilogue filedLater target site (.ok (some site.block.handle)) next
  /-- The heap is to grow and cannot. -/
  | confined {count : Nat} {failure : Failure} {next : Heap} (short : site.room < target)
      (atEnd : site.beyond = [])
      (least : count = max (max (target - site.room) heap.policy.growthUnit) 16)
      (refuses : heap.RefusesGrowth (max (target - site.room) heap.policy.growthUnit) count failure)
      (reads : next.Reads site.closed) (stop : next.region.size = heap.region.size) :
      Widens heap blocks epilogue filedLater target site (.error failure) next
  /-- The payload moves to the block that serves a request of that size, and the old block is
  freed. -/
  | moved {front back freed : List BlockInfo} {chosen : BlockInfo} {next : Heap}
      (short : site.room < target) (obstacle : site.beyond ≠ [])
      (chooses : heap.Chooses blocks filedLater target front chosen back next.region.size)
      (elsewhere : chosen.handle ≠ site.block.handle)
      (dissolves : site.block.Dissolves
        (front ++ chosen.taken target :: (chosen.remainder target ++ back) ++
          [epilogue.carriedTo next.region.size]) freed)
      (reads : next.Reads
        (reservedFor (chosen.taken target) target heap.policy.reserveMargin freed)) :
      Widens heap blocks epilogue filedLater target site (.ok (some chosen.handle)) next
  /-- No block serves a request of that size. -/
  | lacking {failure : Failure} {next : Heap} (short : site.room < target)
      (obstacle : site.beyond ≠ []) (missing : ∀ info ∈ blocks, ¬info.Offers target)
      (refuses : heap.RefusesGrowth (max target heap.policy.growthUnit)
        (max target heap.policy.growthUnit) failure)
      (reads : next.Reads site.closed) (stop : next.region.size = heap.region.size) :
      Widens heap blocks epilogue filedLater target site (.error failure) next

/-- The block of a handle has another behind it, which is reserved if less than `margin` bytes are
left beyond `target`. -/
def KeepsBehind (heap : Heap) (handle : Handle) (target margin : Nat) : Prop :=
  ∃ front result next back, heap.Reads (front ++ result :: next :: back) ∧
    result.handle = handle ∧ (result.size - target < margin → next.reserved = true)

theorem Shows.reads {shape : Shape} {heap : Heap} (shows : heap.Shows shape)
    (sound : shape.Sound) : heap.Reads shape.closed :=
  ⟨shape.blocks, shape.epilogue, shows.displays sound, rfl⟩

end Heap

namespace Shape

variable {shape middle later : Shape} {info start block result fresh : BlockInfo}
  {front run back behind : List BlockInfo} {bytes size target request place : Nat}
  {events : List Event} {failure : Failure} {reserved : Bool}

theorem closed_split (split : shape.blocks = front ++ info :: back) :
    shape.closed = front ++ info :: (back ++ [shape.epilogue]) := by
  rw [Layout.closed, split, List.append_assoc]
  rfl

theorem lead_cons_tail (shape : Shape) (back : List BlockInfo) :
    back ++ [shape.epilogue] = shape.lead back :: (back ++ [shape.epilogue]).tail := by
  cases back <;> rfl

theorem allocated_head (ends : (shape.lead back).allocated = true) :
    ∀ next ∈ (back ++ [shape.epilogue]).head?, next.allocated = true := by
  rw [lead_cons_tail]
  intro next isNext
  cases isNext
  exact ends

/-! ## Marks -/

theorem epilogue_marked (shape : Shape) (place : Nat) (reserved : Bool) :
    (shape.marked place reserved).epilogue = shape.epilogue.marked place reserved := by
  change (⟨⟨shape.stop⟩, 0, true, if place = shape.stop then reserved else shape.stopReserved⟩ :
    BlockInfo) = _
  by_cases atEnd : place = shape.stop
  · subst place
    rw [if_pos rfl]
    exact (BlockInfo.marked_self shape.epilogue reserved).symm
  · rw [if_neg atEnd, BlockInfo.marked_of_ne (Ne.symm atEnd)]
    rfl

theorem closed_marked (shape : Shape) (place : Nat) (reserved : Bool) :
    (shape.marked place reserved).closed =
      shape.closed.map (BlockInfo.marked place reserved) := by
  rw [Layout.closed, epilogue_marked, Layout.closed, List.map_append]
  rfl

theorem closed_reservedBehind (shape : Shape) (result : BlockInfo) (target : Nat) :
    (shape.reservedBehind result target).closed =
      reservedFor result target shape.policy.reserveMargin shape.closed := by
  unfold reservedBehind reservedFor
  split
  · exact shape.closed_marked _ _
  · rfl

theorem exists_behind (sound : shape.Sound)
    (present : (result.handle, result.size) ∈ shape.extents) (target : Nat) :
    ∃ front kept next back,
      (shape.reservedBehind result target).closed = front ++ kept :: next :: back ∧
        kept.handle = result.handle ∧
        (kept.size - target < shape.policy.reserveMargin → next.reserved = true) := by
  obtain ⟨info, member, -, sameHandle, sameSize⟩ := mem_extents.1 present
  have sameOffset : info.offset = result.offset := congrArg Handle.offset sameHandle
  obtain ⟨front, back, split⟩ := List.append_of_mem member
  have closed : shape.closed =
      front ++ info :: shape.lead back :: (back ++ [shape.epilogue]).tail := by
    rw [← lead_cons_tail, closed_split split]
  have tiles := sound.layout.tiles
  rw [split] at tiles
  have place : (shape.lead back).offset = info.offset + info.size :=
    Layout.offset_lead tiles.middle.2.2
  rw [closed_reservedBehind, reservedFor, closed, ← sameOffset, ← sameSize]
  split
  · refine ⟨_, _, _, _, by rw [List.map_append, List.map_cons, List.map_cons], ?_, fun _ => ?_⟩
    · rw [BlockInfo.handle_marked, sameHandle]
    · rw [← place, BlockInfo.marked_self]
  · rename_i roomy
    exact ⟨_, _, _, _, rfl, sameHandle, fun little => absurd little roomy⟩

theorem keepsBehind_of_shows (valid : shape.Valid)
    (present : (result.handle, result.size) ∈ shape.extents) {heap : Heap}
    (shows : heap.Shows (shape.reservedBehind result target)) :
    heap.KeepsBehind result.handle target shape.policy.reserveMargin := by
  obtain ⟨front, kept, next, back, closed, same, reserves⟩ :=
    exists_behind valid.sound present target
  have reads := shows.reads (valid_reservedBehind valid result target).sound
  rw [closed] at reads
  exact ⟨front, kept, next, back, reads, same, reserves⟩

/-! ## Release -/

theorem Merges.fuses (merges : shape.Merges front info behind start later events)
    (split : shape.blocks = front ++ info :: behind) (free : info.allocated = false) :
    info.Fuses front (behind ++ [shape.epilogue]) later.closed := by
  cases merges with
  | alone stays ends =>
      have same : info.fuse [] = info := by
        rw [BlockInfo.fuse, ← free]
        rfl
      have whole : shape.closed = front ++ info.fuse [] :: (behind ++ [shape.epilogue]) := by
        rw [same, closed_split split]
      rw [whole]
      exact .onwards rfl (List.forall_mem_nil _) (allocated_head ends) (closed_of_stays stays)
  | @behind run back cut runFree stays joins ends =>
      subst cut
      have whole : (shape.fused front info run back).closed =
          front ++ info.fuse run :: (back ++ [shape.epilogue]) := closed_split rfl
      rw [whole]
      exact .onwards (List.append_assoc ..) runFree (allocated_head ends) (closed_of_stays stays)
  | @front earlier run back first last cut runFree firstFree joins ends =>
      subst cut
      have whole : (shape.fused earlier first (info :: run) back).closed =
          earlier ++ first.fuse (info :: run) :: (back ++ [shape.epilogue]) := closed_split rfl
      rw [whole]
      exact .bothWays last (List.append_assoc ..) runFree (allocated_head ends) firstFree joins

theorem Releases.dissolves (releases : shape.Releases info later events) (sound : shape.Sound) :
    info.Dissolves shape.closed later.closed := by
  obtain @⟨front, back, start, later, events, split, merges⟩ := releases
  have fuses := merges.fuses (blocks_freed sound split) rfl
  have epilogue : (shape.released front info back).epilogue =
      shape.epilogue.marked (info.offset + info.size) false := epilogue_marked ..
  refine ⟨front, back ++ [shape.epilogue], closed_split split, ?_⟩
  rw [unmarked, List.map_append]
  rwa [epilogue] at fuses

/-! ## Serving -/

theorem Grows.epilogue_later (grows : shape.Grows bytes start later events) :
    later.epilogue = ⟨⟨later.stop⟩, 0, true, false⟩ := by
  obtain ⟨-, -, merges⟩ := grows
  cases merges <;> rfl

theorem epilogue_carved (shape : Shape) (front : List BlockInfo) (info : BlockInfo) (size : Nat)
    (back : List BlockInfo) : (shape.carved front info size back).epilogue = shape.epilogue := by
  rw [carved_layout]
  rfl

theorem Serves.epilogue_later (serves : shape.Serves size block later events) :
    later.epilogue = shape.epilogue.carriedTo later.stop := by
  cases serves with
  | found fit split =>
      rw [epilogue_carved, stop_carved]
      exact (if_pos rfl).symm
  | @grown front back start middle events missing grows split =>
      have longer := grows.stop_later
      have positive := (growth_sized (max size shape.policy.growthUnit)).1
      have apart : shape.epilogue.offset ≠ middle.stop := by
        change shape.stop ≠ middle.stop
        omega
      rw [epilogue_carved, stop_carved, grows.epilogue_later, BlockInfo.carriedTo, if_neg apart]

/-! ## Enlarging -/

/-- The site of an allocated block. -/
def RunAt.site (runAt : shape.RunAt front info run back) : Site where
  front := front
  block := info
  run := run
  last := shape.lead back
  beyond := (back ++ [shape.epilogue]).tail
  live := runAt.allocated
  free := runAt.free
  ends := runAt.ends

theorem RunAt.closed_site (runAt : shape.RunAt front info run back) :
    shape.closed = runAt.site.closed := by
  rw [Site.closed, Layout.closed, runAt.split]
  change _ = front ++ info :: (run ++ shape.lead back :: (back ++ [shape.epilogue]).tail)
  rw [← lead_cons_tail]
  simp

theorem RunAt.beyond_site (runAt : shape.RunAt front info run back) :
    runAt.site.beyond = [] ↔ back = [] := by
  change (back ++ [shape.epilogue]).tail = [] ↔ back = []
  cases back <;> simp

theorem exists_site (member : info ∈ shape.blocks) (allocated : info.allocated = true) :
    ∃ site : Site, site.block = info ∧ shape.closed = site.closed := by
  obtain ⟨front, run, back, runAt⟩ := exists_runAt member allocated
  exact ⟨runAt.site, rfl, runAt.closed_site⟩

/-- The growth that a block needs which reaches the end of the heap. -/
theorem RunAt.growth_eq (runAt : shape.RunAt front info run back) (sound : shape.Sound)
    (grained : target % 8 = 0) (even : shape.policy.growthUnit % 8 = 0) :
    max (target - info.size - sizeSum run) shape.policy.growthUnit =
        max (target - runAt.site.room) shape.policy.growthUnit ∧
      growth (max (target - info.size - sizeSum run) shape.policy.growthUnit) =
        max (max (target - runAt.site.room) shape.policy.growthUnit) 16 := by
  have whole := (sound.tiles_part runAt.split).2.1.sizeSum_mod
  have room : runAt.site.room = info.size + sizeSum run := rfl
  rw [sizeSum_cons] at whole
  rw [Nat.sub_sub, ← room, growth, roundUp_of_mod (by omega)]
  exact ⟨rfl, rfl⟩

/-- A run at the end of the heap has become longer by as much as the heap. -/
theorem RunAt.sizeSum_later {longer : List BlockInfo} (runAt : shape.RunAt front info run [])
    (grows : shape.Grows bytes start later events) (laterRun : later.RunAt front info longer []) :
    sizeSum longer = sizeSum run + growth bytes := by
  have split : shape.blocks = front ++ info :: run := by rw [runAt.split, List.append_nil]
  obtain ⟨other, blocks, -, size⟩ := grows.run_later split runAt.allocated runAt.free
  have same := laterRun.split.symm.trans blocks
  rw [List.append_nil, List.append_cancel_left_eq, List.cons.injEq] at same
  rw [same.2, size]

section Widening

variable {heap next : Heap} {filedLater : Handle × Nat → Handle × Nat → Prop}
  (shows : heap.Shows shape) (valid : shape.Valid) (grained : target % 8 = 0)
  (even : shape.policy.growthUnit % 8 = 0)

include shows valid grained even

theorem Expands.widens (expands : shape.Expands info target result later events)
    (nextShows : next.Shows (later.reservedBehind result target)) :
    ∃ site : Site, site.block = info ∧ shape.closed = site.closed ∧
      heap.Widens shape.blocks shape.epilogue filedLater target site (.ok (some result.handle))
        next := by
  have stop : heap.region.size = shape.stop := shows.lays.size
  have nextStop : next.region.size = (later.reservedBehind result target).stop :=
    nextShows.lays.size
  have laterValid := expands.valid_later valid
  have reads := nextShows.reads (valid_reservedBehind laterValid result target).sound
  rw [stop_reservedBehind] at nextStop
  rw [closed_reservedBehind, expands.same_setting.policy, ← shows.policy] at reads
  cases expands with
  | @within front run back runAt enough =>
      refine ⟨runAt.site, rfl, runAt.closed_site, .within enough ?_ (nextStop.trans stop.symm)⟩
      have whole : (shape.joined front info run back).closed =
          front ++ info.joined run :: shape.lead back :: (back ++ [shape.epilogue]).tail := by
        rw [← lead_cons_tail]
        exact closed_split rfl
      rwa [whole] at reads
  | @beyond front run longer first middle events runAt short grows laterRun enough =>
      obtain ⟨-, count⟩ := runAt.growth_eq valid.sound grained even
      have longerStop := grows.stop_later
      have size := runAt.sizeSum_later grows laterRun
      obtain ⟨encodable, fits, -⟩ := id grows
      rw [count, ← shows.policy] at size longerStop encodable fits
      have whole : (middle.joined front info longer []).closed =
          front ++ [info.joined longer, ⟨⟨middle.stop⟩, 0, true, false⟩] := by
        rw [← grows.epilogue_later]
        exact List.append_assoc ..
      have joined : info.joined longer = runAt.site.widened (runAt.site.room +
          max (max (target - runAt.site.room) heap.policy.growthUnit) 16) := by
        rw [BlockInfo.joined, sizeSum_cons, size, ← Nat.add_assoc]
        rfl
      rw [whole, joined, longerStop, ← stop] at reads
      change next.region.size = middle.stop at nextStop
      have inside := heap.region.size_le_limit
      have limit := shows.limit
      exact ⟨runAt.site, rfl, runAt.closed_site, .beyond short (runAt.beyond_site.2 rfl) rfl
        (by omega) (by omega) reads (by omega)⟩

theorem Moves.widens (moves : shape.Moves info target fresh later events)
    (blocked : shape.Blocked info target) (wide : 16 ≤ target) (member : info ∈ shape.blocks)
    (allocated : info.allocated = true) (ordered : shape.lists.OrderedBy filedLater)
    (nextShows : next.Shows (later.reservedBehind fresh target)) :
    ∃ site : Site, site.block = info ∧ shape.closed = site.closed ∧
      heap.Widens shape.blocks shape.epilogue filedLater target site (.ok (some fresh.handle))
        next := by
  obtain ⟨-, elsewhere⟩ := moves.result_facts valid wide grained member allocated
  have laterValid := moves.valid_later valid wide grained allocated
  have reads := nextShows.reads (valid_reservedBehind laterValid fresh target).sound
  have stop : next.region.size = (later.reservedBehind fresh target).stop :=
    nextShows.lays.size
  rw [closed_reservedBehind, moves.same_setting.policy, ← shows.policy] at reads
  obtain @⟨middle, later, events, more, serves, releases⟩ := moves
  obtain @⟨earlier, run, behind, runAt, short, obstacle⟩ := blocked
  obtain ⟨front, chosen, back, chooses, blocks, rfl⟩ :=
    serves.chooses shows valid wide grained even ordered
  have dissolves := releases.dissolves (serves.valid_later valid wide grained).sound
  rw [stop_reservedBehind, releases.same_stop] at stop
  rw [Layout.closed, blocks, serves.epilogue_later, ← stop] at dissolves
  rw [← stop] at chooses
  refine ⟨runAt.site, rfl, runAt.closed_site, ?_⟩
  change heap.Widens _ _ _ _ _ (.ok (some chosen.handle)) _
  exact .moved short (mt runAt.beyond_site.1 obstacle) chooses elsewhere dissolves reads

theorem Enlarges.widens (enlarges : shape.Enlarges info target request result later events)
    (wide : 16 ≤ target) (member : info ∈ shape.blocks) (allocated : info.allocated = true)
    (ordered : shape.lists.OrderedBy filedLater)
    (nextShows : next.Shows (later.reservedBehind result target)) :
    ∃ site : Site, site.block = info ∧ shape.closed = site.closed ∧
      heap.Widens shape.blocks shape.epilogue filedLater target site (.ok (some result.handle))
        next := by
  cases enlarges with
  | inPlace expands => exact expands.widens shows valid grained even nextShows
  | moved blocked moves =>
      exact moves.widens shows valid grained even blocked wide member allocated ordered nextShows

theorem Withholds.widens (withholds : shape.Withholds info target failure events)
    (wide : 16 ≤ target) (nextShows : next.Shows shape) :
    ∃ site : Site, site.block = info ∧ shape.closed = site.closed ∧
      heap.Widens shape.blocks shape.epilogue filedLater target site (.error failure) next := by
  have stop : heap.region.size = shape.stop := shows.lays.size
  have nextStop : next.region.size = shape.stop := nextShows.lays.size
  have reads := nextShows.reads valid.sound
  cases withholds with
  | confined confined =>
      obtain ⟨runAt, short, refuses⟩ := confined
      obtain ⟨bytes, count⟩ := runAt.growth_eq valid.sound grained even
      have refused := refuses.refusesGrowth shows
      rw [count, bytes, ← shows.policy] at refused
      rw [runAt.closed_site] at reads
      exact ⟨runAt.site, rfl, runAt.closed_site, .confined short (runAt.beyond_site.2 rfl) rfl
        refused reads (nextStop.trans stop.symm)⟩
  | lacking blocked lacks =>
      obtain ⟨runAt, short, obstacle⟩ := blocked
      obtain ⟨missing, refuses⟩ := lacks.refusesGrowth shows valid wide grained even
      rw [runAt.closed_site] at reads
      exact ⟨runAt.site, rfl, runAt.closed_site, .lacking short (mt runAt.beyond_site.1 obstacle)
        missing refuses reads (nextStop.trans stop.symm)⟩

end Widening

end Shape

end TaggedHeap
