import TaggedHeap.Proofs.Shape.Mark
import TaggedHeap.Proofs.Shape.Retag

/-!
Contract: places in front of which nothing is allocated.

A place is vacant if the word in front of it does not say "allocated", whatever that word is: the
header of a free block, one of its links, or what is left of a header that a merge has buried. Only
headers and second links are written where a header may lie, and a link is a multiple of eight, so
that nothing but the header of an allocated block ends a vacancy. `Shape.Secures` carries what is
known of a region through a sequence of steps.
-/

namespace TaggedHeap

theorem Tag.allocated_ofWord {word : UInt32} :
    (ofWord word).allocated = false ↔ word.toNat % 2 = 0 := by
  simp [ofWord]

theorem Tag.even_toWord {tag : Tag} (encodable : tag.Encodable) (free : tag.allocated = false) :
    tag.toWord.toNat % 2 = 0 := by
  rwa [← allocated_ofWord, ofWord_toWord encodable]

/-- The block that a link names, if any, begins at a grain. -/
def Links.Grained (link : Option Block) : Prop :=
  ∀ block, link = some block → block.offset % 8 = 0

theorem Links.Grained.even_encode {link : Option Block} (grained : Grained link) :
    (encode link).toNat % 2 = 0 := by
  cases link with
  | none => rfl
  | some block =>
      have aligned := grained block rfl
      rw [encode, UInt32.toNat_ofNat']
      omega

namespace Region

/-- No allocated block begins at `place`, as far as the word in front of it tells. -/
structure Vacant (place : Nat) (region : Region) : Prop where
  aligned : place % 8 = 0
  above : 8 ≤ place
  inside : place ≤ region.size
  clear : (region.headerTag place).allocated = false

namespace Vacant

variable {region : Region} {place : Nat} (vacant : region.Vacant place)

include vacant

theorem congr {after : Region} (size : region.size ≤ after.size)
    (same : ∀ index, place ≤ index + 4 → index < place →
      after.byte index = region.byte index) : after.Vacant place where
  aligned := vacant.aligned
  above := vacant.above
  inside := Nat.le_trans vacant.inside size
  clear := by
    have above := vacant.above
    rw [headerTag_congr (by omega) same]
    exact vacant.clear

theorem setWord {offset : Nat} (value : UInt32) (grid : offset % 4 = 0)
    (even : offset + 4 = place → value.toNat % 2 = 0) :
    (region.setWord offset value).Vacant place := by
  have aligned := vacant.aligned
  by_cases header : offset + 4 = place
  · have inside := vacant.inside
    refine ⟨aligned, vacant.above, inside.trans (size_setWord ..).ge, ?_⟩
    rw [headerTag, show place - 4 = offset by omega, word_setWord _ _ (by omega)]
    exact Tag.allocated_ofWord.2 (even header)
  · apply vacant.congr (size_setWord ..).ge
    intro index lower upper
    exact byte_setWord_of_outside _ _ (by omega)

/-- The first link of a block lies where no header does. -/
theorem linkBack {slot : Option Block} (target : Option Block) (grained : Links.Grained slot) :
    (region.linkBack slot target).Vacant place := by
  cases slot with
  | none => exact vacant
  | some block =>
      have aligned := vacant.aligned
      have blockAligned := grained block rfl
      exact vacant.setWord _ (by omega) fun header => by omega

/-- The second link of a block may lie where a header does, but names a multiple of eight. -/
theorem linkOn {slot target : Option Block} (grained : Links.Grained slot)
    (targetGrained : Links.Grained target) : (region.linkOn slot target).Vacant place := by
  cases slot with
  | none => exact vacant
  | some block =>
      have blockAligned := grained block rfl
      exact vacant.setWord _ (by omega) fun _ => targetGrained.even_encode

theorem unlink {links : Links} (previous : Links.Grained links.previous)
    (next : Links.Grained links.next) : (region.unlink links).Vacant place :=
  (vacant.linkOn previous next).linkBack _ next

theorem linkIn {block : Block} {links : Links} (own : Links.Grained (some block))
    (previous : Links.Grained links.previous) (next : Links.Grained links.next) :
    (region.linkIn block links).Vacant place :=
  (((vacant.linkBack _ own).linkOn own next).linkBack _ next).linkOn previous own

theorem stamp {info : BlockInfo} (above : 8 ≤ info.offset) (aligned : info.offset % 8 = 0)
    (grained : info.size % 8 = 0) (encodable : info.size ≤ maxBlock)
    (elsewhere : info.allocated = true → info.offset ≠ place) :
    (region.stamp info).Vacant place := by
  have placeAligned := vacant.aligned
  have header : (region.setWord (info.offset - 4) info.tag.toWord).Vacant place := by
    apply vacant.setWord _ (by omega)
    intro atPlace
    apply Tag.even_toWord ⟨grained, encodable⟩
    apply Bool.eq_false_iff.2
    intro allocated
    exact elsewhere allocated (by omega)
  -- The footer begins at a grain, half a grain off every header.
  exact header.setWord _ (by omega) fun atPlace => by omega

theorem stamps {infos : List BlockInfo} {first last : Nat} (tiles : Tiles first infos last)
    (above : 8 ≤ first) (aligned : first % 8 = 0) (encodable : last ≤ maxBlock)
    (elsewhere : ∀ info ∈ infos, info.allocated = true → info.offset ≠ place) :
    (region.stamps infos).Vacant place := by
  induction infos generalizing region first with
  | nil => exact vacant
  | cons info rest inductionHypothesis =>
      obtain ⟨rfl, sized, behind⟩ := tiles
      have grained := sized.grained
      have upTo := behind.le
      obtain ⟨here, further⟩ := List.forall_mem_cons.1 elsewhere
      exact inductionHypothesis (vacant.stamp above aligned grained (by omega) here) behind
        (by omega) (by omega) further

theorem stampEnd {stop : Nat} (above : 8 ≤ stop) (aligned : stop % 8 = 0)
    (elsewhere : stop ≠ place) : (region.stampEnd stop).Vacant place :=
  vacant.setWord _ (by omega) fun atPlace => absurd (by omega) elsewhere

/-- A mark is another bit of the header. -/
theorem mark {other : Nat} (above : 8 ≤ other) (aligned : other % 8 = 0) (reserved : Bool) :
    (region.mark other reserved).Vacant place := by
  apply vacant.setWord _ (by omega)
  intro atPlace
  obtain rfl : other = place := by omega
  have even := Tag.allocated_ofWord.1 vacant.clear
  rw [Tag.toNat_markWord]
  omega

end Vacant

end Region

namespace Shape

variable {α β : Type} {shape middle : Shape} {info : BlockInfo} {place : Nat}

/-! ## What steps secure -/

/-- If a region of this shape is as `given`, then it is as `secured` once the step has
answered. -/
structure Secures (shape : Shape) (given : Region → Prop) (step : HeapM α)
    (secured : Region → Prop) : Prop where
  after : ∀ {before after : Heap} {value : α}, before.Shows shape → given before.region →
    step.run before = .ok value after → secured after.region

/-- What is vacant stays vacant. -/
abbrev KeepsVacant (shape : Shape) (place : Nat) (step : HeapM α) : Prop :=
  shape.Secures (Region.Vacant place) step (Region.Vacant place)

namespace Secures

variable {given between secured : Region → Prop} {value : α} {events : List Event}
  {kept : Nat → Prop}

theorem of_run {step : HeapM α} (runs : ∀ before : Heap, before.Shows shape →
    ∃ value after, step.run before = .ok value after ∧
      (given before.region → secured after.region)) : shape.Secures given step secured where
  after shows holds ran := by
    obtain ⟨_, _, ranSo, secures⟩ := runs _ shows
    cases ran.symm.trans ranSo
    exact secures holds

theorem bind {first : HeapM α} {rest : α → HeapM β}
    (secures : shape.Secures given first between)
    (does : shape.Does first value middle events kept)
    (goesOn : middle.Secures between (rest value) secured) :
    shape.Secures given (first >>= rest) secured where
  after shows holds ran := by
    obtain ⟨state, ranFirst, leads⟩ := does _ shows
    rw [HeapM.run_bind ranFirst] at ran
    exact goesOn.after leads.shows (secures.after shows holds ranFirst) ran

/-- A step that changes nothing. -/
theorem after_idle {first : HeapM α} {rest : α → HeapM β}
    (idles : ∀ heap : Heap, heap.Shows shape → first.run heap = .ok value heap)
    (goesOn : shape.Secures given (rest value) secured) :
    shape.Secures given (first >>= rest) secured where
  after shows holds ran := by
    rw [HeapM.run_bind (idles _ shows)] at ran
    exact goesOn.after shows holds ran

theorem bind_read {look : ReadM α} {rest : α → HeapM β} (sees : shape.Sees look value)
    (goesOn : shape.Secures given (rest value) secured) :
    shape.Secures given (liftM look >>= rest) secured :=
  after_idle (fun heap shows => HeapM.run_read (sees heap shows)) goesOn

theorem bind_except {answer : Except Fault α} {rest : α → HeapM β}
    (answered : answer = .ok value) (goesOn : shape.Secures given (rest value) secured) :
    shape.Secures given (liftM answer >>= rest) secured :=
  after_idle (fun _ _ => HeapM.run_except answered) goesOn

theorem bind_require {condition : Bool} {fault : Fault} {rest : Unit → HeapM β}
    (holds : condition = true) (goesOn : shape.Secures given (rest ()) secured) :
    shape.Secures given (Heap.require condition fault >>= rest) secured :=
  after_idle (fun _ _ => HeapM.run_require holds fault) goesOn

theorem bind_get {rest : Heap → HeapM β}
    (goesOn : ∀ heap : Heap, heap.Shows shape → shape.Secures given (rest heap) secured) :
    shape.Secures given (get >>= rest) secured where
  after shows holds ran := by
    rw [HeapM.run_bind HeapM.run_get] at ran
    exact (goesOn _ shows).after shows holds ran

theorem pure (shape : Shape) (value : α) (given : Region → Prop) :
    shape.Secures given (Pure.pure value) given :=
  of_run fun before _ => ⟨value, before, rfl, id⟩

theorem report (shape : Shape) (event : Event) (given : Region → Prop) :
    shape.Secures given (Heap.report event) given :=
  of_run fun _ _ => ⟨(), _, HeapM.run_report event, id⟩

theorem bind_report {event : Event} {rest : Unit → HeapM β}
    (goesOn : shape.Secures given (rest ()) secured) :
    shape.Secures given (Heap.report event >>= rest) secured :=
  (report shape event given).bind (Does.report shape event fun _ => False) goesOn

theorem strengthen {step : HeapM α} {more : Region → Prop}
    (secures : shape.Secures given step secured)
    (part : ∀ region, more region → given region) : shape.Secures more step secured where
  after shows holds ran := secures.after shows (part _ holds) ran

/-! ### Operations that may fail -/

theorem granted_bind {first : AllocM α} {rest : α → AllocM β}
    (secures : shape.Secures given first.run between)
    (grants : shape.Grants first value middle events kept)
    (goesOn : middle.Secures between (rest value).run secured) :
    shape.Secures given (first >>= rest).run secured where
  after shows holds ran := by
    obtain ⟨state, ranFirst, leads⟩ := grants _ shows
    rw [AllocM.run_bind ranFirst] at ran
    exact goesOn.after leads.shows (secures.after shows holds ranFirst) ran

theorem granted_after_idle {first : AllocM α} {rest : α → AllocM β}
    (idles : shape.Idles first value)
    (goesOn : shape.Secures given (rest value).run secured) :
    shape.Secures given (first >>= rest).run secured where
  after shows holds ran := by
    rw [AllocM.run_bind (idles _ shows)] at ran
    exact goesOn.after shows holds ran

theorem granted_bind_get {rest : Heap → AllocM β}
    (goesOn : ∀ heap : Heap, heap.Shows shape → shape.Secures given (rest heap).run secured) :
    shape.Secures given (get >>= rest).run secured where
  after shows holds ran := by
    rw [AllocM.run_bind AllocM.run_get] at ran
    exact (goesOn _ shows).after shows holds ran

theorem lift {step : HeapM α} (secures : shape.Secures given step secured)
    (does : shape.Does step value middle events kept) :
    shape.Secures given (liftM step : AllocM α).run secured := by
  apply of_run
  intro before shows
  obtain ⟨after, ran, -⟩ := does before shows
  exact ⟨_, after, AllocM.run_lift ran, fun holds => secures.after shows holds ran⟩

theorem bind_lift {first : HeapM α} {rest : α → AllocM β}
    (secures : shape.Secures given first between)
    (does : shape.Does first value middle events kept)
    (goesOn : middle.Secures between (rest value).run secured) :
    shape.Secures given (liftM first >>= rest).run secured :=
  (secures.lift does).granted_bind (Grants.lift does) goesOn

theorem granted_bind_report {event : Event} {rest : Unit → AllocM β}
    (goesOn : shape.Secures given (rest ()).run secured) :
    shape.Secures given (liftM (Heap.report event) >>= rest).run secured :=
  (report shape event given).bind_lift (Does.report shape event fun _ => False) goesOn

end Secures

/-! ## Steps that keep what is vacant -/

/-- Bytes that are kept keep the vacancies among them. -/
theorem Does.keepsVacant {step : HeapM α} {value : α} {later : Shape} {events : List Event}
    {kept : Nat → Prop} (does : shape.Does step value later events kept)
    (grows : shape.stop ≤ later.stop)
    (keeps : ∀ index, place ≤ index + 4 → index < place → kept index) :
    shape.KeepsVacant place step := by
  apply Secures.of_run
  intro before shows
  obtain ⟨after, ran, leads⟩ := does before shows
  have size : before.region.size ≤ after.region.size := by
    rw [shows.lays.size, leads.shows.lays.size]
    exact grows
  exact ⟨_, after, ran, fun vacant => vacant.congr size fun index lower upper =>
    leads.bytes index (keeps index lower upper)⟩

theorem vacant_of_free (sound : shape.Sound) {heap : Heap} (shows : heap.Shows shape)
    (member : info ∈ shape.blocks) (free : info.allocated = false) :
    heap.region.Vacant info.offset where
  aligned := sound.offset_mod member
  above := Nat.le_trans (by decide) (sound.above member)
  inside := by
    have inside := sound.inside member
    have size : heap.region.size = shape.stop := shows.lays.size
    omega
  clear := by
    rw [(shows.lays.blocks info member).header]
    exact free

section Lists

variable {front back : List BlockInfo} {cls : SizeClass} (sound : shape.Sound)
  (split : shape.lists cls = front ++ back)

include sound split

theorem Sound.grained_previous : Links.Grained (lastOr front none) := by
  intro block named
  obtain ⟨member, inFront, rfl⟩ := mem_of_lastOr named
  exact sound.offset_mod (sound.listed (show member ∈ shape.lists cls by simp [split, inFront]))

theorem Sound.grained_next : Links.Grained (firstOr back none) := by
  intro block named
  obtain ⟨member, inBack, rfl⟩ := mem_of_firstOr named
  exact sound.offset_mod (sound.listed (show member ∈ shape.lists cls by simp [split, inBack]))

end Lists

theorem keepsVacant_unfile (sound : shape.Sound) (member : info ∈ shape.lists info.cls)
    (place : Nat) : shape.KeepsVacant place (Heap.unfile info.block) := by
  obtain ⟨front, back, split⟩ := List.append_of_mem member
  have next := sound.grained_next (show shape.lists info.cls = (front ++ [info]) ++ back by
    simp [split])
  apply Secures.of_run
  intro before shows
  have ran := (Heap.unfile_spliced shows.stored sound.orderly split).1
  exact ⟨_, _, ran, fun vacant => vacant.unlink (sound.grained_previous split) next⟩

theorem Secures.bind_unfile {rest : Unit → HeapM β} {secured : Region → Prop}
    (sound : shape.Sound) (member : info ∈ shape.lists info.cls)
    (goesOn : (shape.without [info]).Secures (Region.Vacant place) (rest ()) secured) :
    shape.Secures (Region.Vacant place) (Heap.unfile info.block >>= rest) secured :=
  (keepsVacant_unfile sound member place).bind (does_unfile sound member) goesOn

theorem keepsVacant_file (sound : shape.Sound) (member : info ∈ shape.blocks)
    (unlisted : shape.Unlisted info) (place : Nat) :
    shape.KeepsVacant place (Heap.file info.block) := by
  have own : Links.Grained (some info.block) := by
    rintro block ⟨⟩
    exact sound.offset_mod member
  apply Secures.of_run
  intro before shows
  obtain ⟨front, back, split, -, ran, -⟩ := Heap.file_spliced shows.stored sound.orderly
    (shows.resident sound member) (sound.apart_listed member unlisted)
  exact ⟨_, _, ran, fun vacant =>
    vacant.linkIn own (sound.grained_previous split) (sound.grained_next split)⟩

theorem keepsVacant_setReserved (sound : shape.Sound) {front back : List BlockInfo}
    {other : Nat} (split : shape.blocks = front ++ back) (inFront : Tiles shape.start front other)
    (reserved : Bool) (place : Nat) :
    shape.KeepsVacant place (liftM (Block.setReserved ⟨other⟩ reserved)) := by
  have above := sound.layout.above
  have lower := inFront.le
  have upper := (seam_of_split sound split inFront).1
  apply Secures.of_run
  intro before shows
  have size : before.region.size = shape.stop := shows.lays.size
  have ran : Block.setReserved ⟨other⟩ reserved before.region =
      .ok () (before.region.mark other reserved) :=
    Block.setReserved_of_le reserved (show 4 ≤ other by omega)
      (show other ≤ before.region.size by omega)
  exact ⟨_, _, HeapM.run_change ran, fun vacant =>
    vacant.mark (by omega) (inFront.stop_mod sound.layout.aligned) reserved⟩

namespace Gap

variable {front old new back : List BlockInfo} {first last : Nat}
  (gap : shape.Gap front old back first last) (sound : shape.Sound)

include gap sound

/-- Only the header of an allocated block ends the vacancy of the place where the block begins. -/
theorem vacant_stamps (tiles : Tiles first new last) {region : Region}
    (vacant : region.Vacant place)
    (elsewhere : ∀ info ∈ new, info.allocated = true → info.offset ≠ place) :
    (region.stamps new).Vacant place := by
  have above := sound.layout.above
  have encodable := sound.layout.encodable
  have lower := gap.inFront.le
  have upper := gap.behind.le
  exact vacant.stamps tiles (by omega) (gap.inFront.stop_mod sound.layout.aligned) (by omega)
    elsewhere

theorem keepsVacant_writeTags (tiles : Tiles first [info] last)
    (elsewhere : info.allocated = true → info.offset ≠ place) :
    shape.KeepsVacant place
      (liftM (info.block.writeTags info.size info.allocated info.reserved)) := by
  apply Secures.of_run
  intro before shows
  exact ⟨_, _, HeapM.run_change (gap.writeTags_eq sound tiles shows), fun vacant =>
    gap.vacant_stamps sound tiles vacant (by simpa using elsewhere)⟩

theorem keepsVacant_stamp (member : info ∈ shape.blocks) {size : Nat} {allocated : Bool}
    (tiles : Tiles first [{ info with size := size, allocated := allocated }] last)
    (elsewhere : allocated = true → info.offset ≠ place) :
    shape.KeepsVacant place (liftM (info.block.stamp size allocated)) := by
  apply Secures.of_run
  intro before shows
  exact ⟨_, _, HeapM.run_change (gap.stamp_eq sound member tiles shows), fun vacant =>
    gap.vacant_stamps sound tiles vacant (by simpa using elsewhere)⟩

end Gap

end Shape

end TaggedHeap
