import TaggedHeap.Proofs.Shape.Basic

/-!
Contract: what an operation does to every heap of a shape.

`Sees`, `Does`, `Grants` and `Denies` say that the answer of a computation, and the shape that
it leaves behind, depend on nothing but the shape that it finds. None of them can hold of a
computation that faults. The rules take a sequence apart at its first step.
-/

namespace TaggedHeap.Shape

variable {α β : Type}

def Sees (shape : Shape) (look : ReadM α) (value : α) : Prop :=
  ∀ heap : Heap, heap.Shows shape → look heap.region = .ok value

/-- The step answers `value`, leads to a heap of shape `later`, reports `events` and keeps the
bytes that are `kept`. -/
def Does (shape : Shape) (step : HeapM α) (value : α) (later : Shape) (events : List Event)
    (kept : Nat → Prop) : Prop :=
  ∀ before : Heap, before.Shows shape →
    ∃ after, step.run before = .ok value after ∧ before.Leads after later events kept

def Grants (shape : Shape) (operation : AllocM α) (value : α) (later : Shape)
    (events : List Event) (kept : Nat → Prop) : Prop :=
  ∀ before : Heap, before.Shows shape →
    ∃ after, operation.run.run before = .ok (.ok value) after ∧
      before.Leads after later events kept

/-- The operation answers and changes nothing. -/
def Idles (shape : Shape) (operation : AllocM α) (value : α) : Prop :=
  ∀ heap : Heap, heap.Shows shape → operation.run.run heap = .ok (.ok value) heap

/-- The operation fails and changes nothing but the journal. -/
def Denies (shape : Shape) (operation : AllocM α) (failure : Failure) (events : List Event) :
    Prop :=
  ∀ heap : Heap, heap.Shows shape →
    operation.run.run heap =
      .ok (.error failure) { heap with journal := heap.journal ++ events.toArray }

/-- The operation is granted and carries `count` bytes from `source` to `target`. -/
def Carries (shape : Shape) (operation : AllocM α) (value : α) (later : Shape)
    (events : List Event) (kept : Nat → Prop) (source target count : Nat) : Prop :=
  ∀ before : Heap, before.Shows shape →
    ∃ after, operation.run.run before = .ok (.ok value) after ∧
      before.Leads after later events kept ∧
      ∀ index < count, after.region.byte (target + index) = before.region.byte (source + index)

variable {shape middle later : Shape} {value : α} {result : β} {events more : List Event}
  {kept fewer : Nat → Prop}

theorem leads_refl {heap : Heap} (shows : heap.Shows shape) : heap.Leads heap shape [] kept where
  shows := shows
  journal := by simp
  bytes _ _ := rfl

/-! ## What is read -/

section Reading

variable {info : BlockInfo} {front back : List BlockInfo} {stop : Nat} (sound : shape.Sound)

theorem sees_patience (shape : Shape) : shape.Sees Heap.patience (shape.stop + 1) := by
  intro heap shows
  rw [← shows.lays.size]
  rfl

include sound

theorem sees_size (member : info ∈ shape.blocks) : shape.Sees info.block.size info.size :=
  fun _ shows => Block.size_of_tag (shows.tag_of_mem sound member)

theorem sees_isAllocated (member : info ∈ shape.blocks) :
    shape.Sees info.block.isAllocated info.allocated :=
  fun _ shows => Block.isAllocated_of_tag (shows.tag_of_mem sound member)

theorem sees_next (member : info ∈ shape.blocks) :
    shape.Sees info.block.next ⟨info.offset + info.size⟩ :=
  fun _ shows => Block.next_of_tag (shows.tag_of_mem sound member)

theorem sees_isAllocated_lead (split : shape.blocks = front ++ back)
    (inFront : Tiles shape.start front stop) :
    shape.Sees (Block.isAllocated ⟨stop⟩) (shape.lead back).allocated :=
  fun _ shows => Block.isAllocated_of_tag (shows.tag_lead sound split inFront)

theorem sees_size_lead (split : shape.blocks = front ++ back)
    (inFront : Tiles shape.start front stop) :
    shape.Sees (Block.size ⟨stop⟩) (shape.lead back).size :=
  fun _ shows => Block.size_of_tag (shows.tag_lead sound split inFront)

theorem sees_previous (split : shape.blocks = front ++ info :: back) :
    shape.Sees info.block.previous (shape.trail front).block :=
  fun _ shows => shows.previous_of_split sound split

theorem sees_tag_trail (split : shape.blocks = front ++ info :: back) :
    shape.Sees (shape.trail front).block.tag (shape.trail front).tag :=
  fun _ shows => shows.tag_trail sound split

end Reading

/-! ## Steps of the heap -/

namespace Does

theorem bind {first : HeapM α} {rest : α → HeapM β}
    (does : shape.Does first value middle events kept)
    (goesOn : middle.Does (rest value) result later more kept) :
    shape.Does (first >>= rest) result later (events ++ more) kept := by
  intro before shows
  obtain ⟨between, ran, leads⟩ := does before shows
  obtain ⟨after, ranOn, leadsOn⟩ := goesOn between leads.shows
  exact ⟨after, by rw [HeapM.run_bind ran, ranOn], leads.trans leadsOn⟩

theorem pure (shape : Shape) (value : α) (kept : Nat → Prop) :
    shape.Does (Pure.pure value) value shape [] kept :=
  fun before shows => ⟨before, rfl, leads_refl shows⟩

theorem weaken {step : HeapM α} (does : shape.Does step value later events kept)
    (part : ∀ index, fewer index → kept index) : shape.Does step value later events fewer := by
  intro before shows
  obtain ⟨after, ran, leads⟩ := does before shows
  exact ⟨after, ran, leads.weaken part⟩

theorem read {look : ReadM α} (sees : shape.Sees look value) (kept : Nat → Prop) :
    shape.Does (liftM look) value shape [] kept :=
  fun before shows => ⟨before, HeapM.run_read (sees before shows), leads_refl shows⟩

theorem except {answer : Except Fault α} (answered : answer = .ok value) (kept : Nat → Prop) :
    shape.Does (liftM answer) value shape [] kept :=
  fun before shows => ⟨before, HeapM.run_except answered, leads_refl shows⟩

theorem bind_read {look : ReadM α} {rest : α → HeapM β} (sees : shape.Sees look value)
    (goesOn : shape.Does (rest value) result later events kept) :
    shape.Does (liftM look >>= rest) result later events kept :=
  (read sees kept).bind goesOn

theorem bind_except {answer : Except Fault α} {rest : α → HeapM β}
    (answered : answer = .ok value)
    (goesOn : shape.Does (rest value) result later events kept) :
    shape.Does (liftM answer >>= rest) result later events kept :=
  (except answered kept).bind goesOn

theorem bind_get {rest : Heap → HeapM β}
    (goesOn : ∀ heap : Heap, heap.Shows shape →
      shape.Does (rest heap) result later events kept) :
    shape.Does (get >>= rest) result later events kept := by
  intro before shows
  rw [HeapM.run_bind HeapM.run_get]
  exact goesOn before shows before shows

theorem require {condition : Bool} (holds : condition = true) (fault : Fault)
    (kept : Nat → Prop) : shape.Does (Heap.require condition fault) () shape [] kept :=
  fun before shows => ⟨before, HeapM.run_require holds fault, leads_refl shows⟩

theorem report (shape : Shape) (event : Event) (kept : Nat → Prop) :
    shape.Does (Heap.report event) () shape [event] kept := by
  intro before shows
  refine ⟨_, HeapM.run_report event, ⟨shows.policy, shows.limit, shows.prologue, shows.lays,
    shows.stored⟩, ?_, fun _ _ => rfl⟩
  simp

end Does

/-! ## Operations that may fail -/

namespace Idles

theorem bind {first : AllocM α} {rest : α → AllocM β} (idles : shape.Idles first value)
    (goesOn : shape.Idles (rest value) result) : shape.Idles (first >>= rest) result := by
  intro heap shows
  rw [AllocM.run_bind (idles heap shows)]
  exact goesOn heap shows

theorem pure (shape : Shape) (value : α) : shape.Idles (Pure.pure value) value :=
  fun _ _ => rfl

theorem read {look : ReadM α} (sees : shape.Sees look value) :
    shape.Idles (liftM look) value :=
  fun heap shows => AllocM.run_read (sees heap shows)

theorem except {answer : Except Fault α} (answered : answer = .ok value) :
    shape.Idles (liftM answer) value :=
  fun _ _ => AllocM.run_except answered

theorem answer {answer : Except Failure α} (answered : answer = .ok value) :
    shape.Idles (liftM answer) value := by
  intro heap _
  rw [answered]
  exact AllocM.run_answer _

theorem grants {operation : AllocM α} (idles : shape.Idles operation value)
    (kept : Nat → Prop) : shape.Grants operation value shape [] kept :=
  fun heap shows => ⟨heap, idles heap shows, leads_refl shows⟩

end Idles

namespace Grants

theorem bind {first : AllocM α} {rest : α → AllocM β}
    (grants : shape.Grants first value middle events kept)
    (goesOn : middle.Grants (rest value) result later more kept) :
    shape.Grants (first >>= rest) result later (events ++ more) kept := by
  intro before shows
  obtain ⟨between, ran, leads⟩ := grants before shows
  obtain ⟨after, ranOn, leadsOn⟩ := goesOn between leads.shows
  exact ⟨after, by rw [AllocM.run_bind ran, ranOn], leads.trans leadsOn⟩

theorem pure (shape : Shape) (value : α) (kept : Nat → Prop) :
    shape.Grants (Pure.pure value) value shape [] kept :=
  fun before shows => ⟨before, rfl, leads_refl shows⟩

theorem weaken {operation : AllocM α} (grants : shape.Grants operation value later events kept)
    (part : ∀ index, fewer index → kept index) :
    shape.Grants operation value later events fewer := by
  intro before shows
  obtain ⟨after, ran, leads⟩ := grants before shows
  exact ⟨after, ran, leads.weaken part⟩

theorem lift {step : HeapM α} (does : shape.Does step value later events kept) :
    shape.Grants (liftM step) value later events kept := by
  intro before shows
  obtain ⟨after, ran, leads⟩ := does before shows
  exact ⟨after, AllocM.run_lift ran, leads⟩

theorem bind_read {look : ReadM α} {rest : α → AllocM β} (sees : shape.Sees look value)
    (goesOn : shape.Grants (rest value) result later events kept) :
    shape.Grants (liftM look >>= rest) result later events kept :=
  ((Idles.read sees).grants kept).bind goesOn

theorem bind_except {answer : Except Fault α} {rest : α → AllocM β}
    (answered : answer = .ok value)
    (goesOn : shape.Grants (rest value) result later events kept) :
    shape.Grants (liftM answer >>= rest) result later events kept :=
  ((Idles.except answered).grants kept).bind goesOn

theorem bind_get {rest : Heap → AllocM β}
    (goesOn : ∀ heap : Heap, heap.Shows shape →
      shape.Grants (rest heap) result later events kept) :
    shape.Grants (get >>= rest) result later events kept := by
  intro before shows
  rw [AllocM.run_bind AllocM.run_get]
  exact goesOn before shows before shows

end Grants

namespace Carries

variable {source target count : Nat}

/-- What is kept is carried to its own place. -/
theorem of_grants {operation : AllocM α} (grants : shape.Grants operation value later events kept)
    (keeps : ∀ index < count, kept (source + index)) :
    shape.Carries operation value later events kept source source count := by
  intro before shows
  obtain ⟨after, ran, leads⟩ := grants before shows
  exact ⟨after, ran, leads, fun index below => leads.bytes _ (keeps index below)⟩

theorem grants {operation : AllocM α}
    (carries : shape.Carries operation value later events kept source target count) :
    shape.Grants operation value later events kept := by
  intro before shows
  obtain ⟨after, ran, leads, -⟩ := carries before shows
  exact ⟨after, ran, leads⟩

theorem bind {first : AllocM α} {rest : α → AllocM β}
    (carries : shape.Carries first value middle events kept source target count)
    (goesOn : middle.Grants (rest value) result later more fewer)
    (part : ∀ index, kept index → fewer index)
    (keeps : ∀ index < count, fewer (target + index)) :
    shape.Carries (first >>= rest) result later (events ++ more) kept source target count := by
  intro before shows
  obtain ⟨between, ran, leads, carried⟩ := carries before shows
  obtain ⟨after, ranOn, leadsOn⟩ := goesOn between leads.shows
  refine ⟨after, by rw [AllocM.run_bind ran, ranOn], leads.trans (leadsOn.weaken part), ?_⟩
  intro index below
  rw [leadsOn.bytes _ (keeps index below), carried index below]

theorem bind_after {first : AllocM α} {rest : α → AllocM β}
    (grants : shape.Grants first value middle events fewer)
    (goesOn : middle.Carries (rest value) result later more kept source target count)
    (part : ∀ index, kept index → fewer index)
    (keeps : ∀ index < count, fewer (source + index)) :
    shape.Carries (first >>= rest) result later (events ++ more) kept source target count := by
  intro before shows
  obtain ⟨between, ran, leads⟩ := grants before shows
  obtain ⟨after, ranOn, leadsOn, carried⟩ := goesOn between leads.shows
  refine ⟨after, by rw [AllocM.run_bind ran, ranOn], (leads.weaken part).trans leadsOn, ?_⟩
  intro index below
  rw [carried index below, leads.bytes _ (keeps index below)]

/-- A step that changes nothing. -/
theorem after_idle {first : AllocM α} {rest : α → AllocM β}
    (idles : shape.Idles first value)
    (goesOn : shape.Carries (rest value) result later events kept source target count) :
    shape.Carries (first >>= rest) result later events kept source target count := by
  intro before shows
  rw [AllocM.run_bind (idles before shows)]
  exact goesOn before shows

theorem bind_read {look : ReadM α} {rest : α → AllocM β} (sees : shape.Sees look value)
    (goesOn : shape.Carries (rest value) result later events kept source target count) :
    shape.Carries (liftM look >>= rest) result later events kept source target count :=
  after_idle (Idles.read sees) goesOn

theorem bind_except {answer : Except Fault α} {rest : α → AllocM β}
    (answered : answer = .ok value)
    (goesOn : shape.Carries (rest value) result later events kept source target count) :
    shape.Carries (liftM answer >>= rest) result later events kept source target count :=
  after_idle (Idles.except answered) goesOn

theorem bind_get {rest : Heap → AllocM β}
    (goesOn : ∀ heap : Heap, heap.Shows shape →
      shape.Carries (rest heap) result later events kept source target count) :
    shape.Carries (get >>= rest) result later events kept source target count := by
  intro before shows
  rw [AllocM.run_bind AllocM.run_get]
  exact goesOn before shows before shows

theorem weaken {operation : AllocM α}
    (carries : shape.Carries operation value later events kept source target count)
    (part : ∀ index, fewer index → kept index) :
    shape.Carries operation value later events fewer source target count := by
  intro before shows
  obtain ⟨after, ran, leads, carried⟩ := carries before shows
  exact ⟨after, ran, leads.weaken part, carried⟩

end Carries

namespace Denies

theorem bind {first : AllocM α} {failure : Failure} (denies : shape.Denies first failure events)
    (rest : α → AllocM β) : shape.Denies (first >>= rest) failure events :=
  fun heap shows => AllocM.run_bind_error (denies heap shows) rest

theorem throw (shape : Shape) (failure : Failure) :
    shape.Denies (throw failure : AllocM α) failure [] := by
  intro heap shows
  rw [AllocM.run_throw]
  simp

theorem answer {answer : Except Failure α} {failure : Failure}
    (answered : answer = .error failure) : shape.Denies (liftM answer) failure [] := by
  intro heap shows
  rw [answered]
  exact (AllocM.run_answer _).trans (by simp)

/-- A step that changes nothing. -/
theorem after_idle {first : AllocM α} {rest : α → AllocM β} {failure : Failure}
    (idles : shape.Idles first value)
    (goesOn : shape.Denies (rest value) failure events) :
    shape.Denies (first >>= rest) failure events := by
  intro heap shows
  rw [AllocM.run_bind (idles heap shows)]
  exact goesOn heap shows

theorem bind_read {look : ReadM α} {rest : α → AllocM β} {failure : Failure}
    (sees : shape.Sees look value) (goesOn : shape.Denies (rest value) failure events) :
    shape.Denies (liftM look >>= rest) failure events :=
  after_idle (Idles.read sees) goesOn

theorem bind_except {answer : Except Fault α} {rest : α → AllocM β} {failure : Failure}
    (answered : answer = .ok value) (goesOn : shape.Denies (rest value) failure events) :
    shape.Denies (liftM answer >>= rest) failure events :=
  after_idle (Idles.except answered) goesOn

theorem bind_get {rest : Heap → AllocM β} {failure : Failure}
    (goesOn : ∀ heap : Heap, heap.Shows shape → shape.Denies (rest heap) failure events) :
    shape.Denies (get >>= rest) failure events := by
  intro heap shows
  rw [AllocM.run_bind AllocM.run_get]
  exact goesOn heap shows heap shows

end Denies

end TaggedHeap.Shape
