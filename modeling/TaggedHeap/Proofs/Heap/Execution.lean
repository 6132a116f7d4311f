import TaggedHeap.Heap.Audit
import TaggedHeap.Heap.Growth

/-!
Contract: execution of heap computations, one step at a time.

Each statement says what a sequence comes to once the outcome of its first step is known. A
step of a lower layer, a reading or a change of the region, is first brought up to the layer
of the sequence. No statement opens an operation of the heap.
-/

namespace TaggedHeap

variable {α β : Type} {region : Region} {heap after : Heap} {value : α}

namespace ReadM

theorem run_bind {first : ReadM α} (found : first.run region = .ok value)
    (rest : α → ReadM β) : (first >>= rest).run region = (rest value).run region := by
  have foundBare : first region = .ok value := found
  simp only [ReaderT.run, bind, ReaderT.bind, Except.bind, foundBare]

end ReadM

namespace HeapM

theorem run_bind {first : HeapM α} (ran : first.run heap = .ok value after)
    (rest : α → HeapM β) : (first >>= rest).run heap = (rest value).run after := by
  have ranBare : first heap = .ok value after := ran
  simp only [EStateM.run, bind, EStateM.bind, ranBare]

theorem run_read {look : ReadM α} (found : look heap.region = .ok value) :
    (liftM look : HeapM α).run heap = .ok value heap := by
  simp only [EStateM.run, liftM, monadLift, MonadLift.monadLift, found]

theorem run_change {change : RegionM α}
    (changed : change heap.region = .ok value region) :
    (liftM change : HeapM α).run heap = .ok value { heap with region := region } := by
  simp only [EStateM.run, liftM, monadLift, MonadLift.monadLift, changed]

theorem run_except {answer : Except Fault α} (answered : answer = .ok value) :
    (liftM answer : HeapM α).run heap = .ok value heap := by
  simp only [EStateM.run, liftM, monadLift, MonadLift.monadLift, answered]

theorem run_pure : (pure value : HeapM α).run heap = .ok value heap :=
  rfl

theorem run_get : (get : HeapM Heap).run heap = .ok heap heap :=
  rfl

theorem run_setHead (cls : SizeClass) (block : Option Block) :
    (Heap.setHead cls block).run heap =
      .ok () { heap with heads := heap.heads.set cls block cls.isLt } :=
  rfl

theorem run_report (event : Event) :
    (Heap.report event).run heap = .ok () { heap with journal := heap.journal.push event } :=
  rfl

theorem run_require {condition : Bool} (holds : condition = true) (fault : Fault) :
    (Heap.require condition fault).run heap = .ok () heap := by
  rw [Heap.require, if_pos holds, run_pure]

end HeapM

namespace AllocM

theorem run_bind {first : AllocM α} (ran : first.run.run heap = .ok (.ok value) after)
    (rest : α → AllocM β) : (first >>= rest).run.run heap = (rest value).run.run after := by
  rw [ExceptT.run_bind, HeapM.run_bind ran]

theorem run_bind_error {first : AllocM α} {failure : Failure}
    (failed : first.run.run heap = .ok (.error failure) after) (rest : α → AllocM β) :
    (first >>= rest).run.run heap = .ok (.error failure) after := by
  rw [ExceptT.run_bind, HeapM.run_bind failed]
  rfl

theorem run_lift {step : HeapM α} (ran : step.run heap = .ok value after) :
    (liftM step : AllocM α).run.run heap = .ok (.ok value) after := by
  have lifted : (liftM step : AllocM α).run = (do return .ok (← step)) := rfl
  rw [lifted, HeapM.run_bind ran]
  rfl

theorem run_read {look : ReadM α} (found : look heap.region = .ok value) :
    (liftM look : AllocM α).run.run heap = .ok (.ok value) heap :=
  run_lift (HeapM.run_read found)

theorem run_change {change : RegionM α}
    (changed : change heap.region = .ok value region) :
    (liftM change : AllocM α).run.run heap = .ok (.ok value) { heap with region := region } :=
  run_lift (HeapM.run_change changed)

theorem run_except {answer : Except Fault α} (answered : answer = .ok value) :
    (liftM answer : AllocM α).run.run heap = .ok (.ok value) heap :=
  run_lift (HeapM.run_except answered)

theorem run_answer (answer : Except Failure α) :
    (liftM answer : AllocM α).run.run heap = .ok answer heap := by
  cases answer <;> rfl

theorem run_get : (get : AllocM Heap).run.run heap = .ok (.ok heap) heap :=
  rfl

theorem run_throw (failure : Failure) :
    (throw failure : AllocM α).run.run heap = .ok (.error failure) heap :=
  rfl

end AllocM

namespace AuditM

theorem run_bind {first : Heap.AuditM α} (passed : first.run.run region = .ok (.ok value))
    (rest : α → Heap.AuditM β) :
    (first >>= rest).run.run region = (rest value).run.run region := by
  rw [ExceptT.run_bind, ReadM.run_bind passed]

theorem run_read {look : ReadM α} (found : look region = .ok value) :
    (liftM look : Heap.AuditM α).run.run region = .ok (.ok value) := by
  have lifted : (liftM look : Heap.AuditM α).run = (do return .ok (← look)) := rfl
  rw [lifted, ReadM.run_bind found]
  rfl

theorem run_region : (read : Heap.AuditM Region).run.run region = .ok (.ok region) :=
  rfl

end AuditM

end TaggedHeap
