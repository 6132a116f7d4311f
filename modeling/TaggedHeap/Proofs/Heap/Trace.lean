import Mathlib.Data.Finset.Basic
import Mathlib.Data.Finset.Lattice.Lemmas
import TaggedHeap.Proofs.Heap.Creation
import TaggedHeap.Proofs.Heap.Message
import TaggedHeap.Proofs.Heap.Stop

/-!
Contract: the journal of a heap as a trace of its state.

A listener who hears the messages of a heap in order knows which offsets are taken and where
the region ends, and counts the warnings. The main statements say, for each operation, how its
events change what the listener knows.
-/

namespace TaggedHeap

/-- What a listener knows. -/
structure Trace where
  /-- The offsets that were taken and not given back. -/
  offsets : Finset Nat
  /-- Where the region ends, once it was said. -/
  high : Option Nat
  warnings : Nat

namespace Trace

def silence : Trace :=
  ⟨∅, none, 0⟩

def learn (trace : Trace) : Tiding → Trace
  | .takes offset => { trace with offsets := insert offset trace.offsets }
  | .gives offset => { trace with offsets := trace.offsets.erase offset }
  | .ends high => { trace with high := some high }
  | .nothing => trace

/-- Hears a message, which is a text of some level. -/
def hear (trace : Trace) (level : Event.Level) (message : String) : Trace :=
  let told := trace.learn (.ofMessage message)
  if level = .warn then { told with warnings := told.warnings + 1 } else told

/-- Hears messages one after the other. -/
def hearAll (trace : Trace) (events : List Event) : Trace :=
  events.foldl (fun trace event => trace.hear event.level event.message) trace

/-- What the journal of a heap tells from the beginning. -/
def ofJournal (journal : Array Event) : Trace :=
  silence.hearAll journal.toList

/-- What a listener knows after an event. -/
def follow (trace : Trace) : Event → Trace
  | .refused _ _ => { trace with warnings := trace.warnings + 1 }
  | .extended _ high => { trace with high := some high }
  | .allocated _ offset | .resized _ _ offset =>
      { trace with offsets := insert offset trace.offsets }
  | .released offset => { trace with offsets := trace.offsets.erase offset }
  | .initialised _ | .merged _ _ _ | .grewInPlace _ _ | .moved _ _ _ => trace

theorem hear_event (trace : Trace) (event : Event) :
    trace.hear event.level event.message = trace.follow event := by
  rw [hear, Tiding.ofMessage_message]
  cases event <;> rfl

theorem hearAll_nil (trace : Trace) : trace.hearAll [] = trace :=
  rfl

theorem hearAll_cons (trace : Trace) (event : Event) (events : List Event) :
    trace.hearAll (event :: events) = (trace.follow event).hearAll events := by
  rw [← hear_event]
  rfl

theorem hearAll_append (trace : Trace) (events more : List Event) :
    trace.hearAll (events ++ more) = (trace.hearAll events).hearAll more :=
  List.foldl_append

theorem hearAll_concat (trace : Trace) (events : List Event) (event : Event) :
    trace.hearAll (events ++ [event]) = (trace.hearAll events).follow event := by
  rw [hearAll_append, hearAll_cons, hearAll_nil]

theorem warnings_follow (trace : Trace) (event : Event) : (trace.follow event).warnings =
    trace.warnings + if event.level = .warn then 1 else 0 := by
  cases event <;> rfl

/-- Each message of level "warn" counts once. -/
theorem warnings_hearAll (trace : Trace) (events : List Event) :
    (trace.hearAll events).warnings =
      trace.warnings + events.countP fun event => event.level = .warn := by
  induction events generalizing trace with
  | nil => rfl
  | cons event rest inductionHypothesis =>
      rw [hearAll_cons, inductionHypothesis, warnings_follow, List.countP_cons]
      simp only [decide_eq_true_eq]
      omega

theorem warnings_ofJournal (journal : Array Event) : (ofJournal journal).warnings =
    journal.toList.countP fun event => event.level = .warn :=
  (warnings_hearAll ..).trans (Nat.zero_add _)

theorem ofJournal_append (journal : Array Event) (events : List Event) :
    ofJournal (journal ++ events.toArray) = (ofJournal journal).hearAll events := by
  rw [ofJournal, Array.toList_append, hearAll_append]
  rfl

end Trace

namespace Shape

variable {shape later : Shape} {info result start block fresh : BlockInfo}
  {front behind : List BlockInfo} {bytes size target request : Nat} {events : List Event}
  {failure : Failure} {trace : Trace}

/-! ## Work of the heap on its own space -/

theorem Merges.heard (merges : shape.Merges front info behind start later events)
    (trace : Trace) : trace.hearAll events = trace := by
  cases merges with
  | alone => exact trace.hearAll_nil
  | behind | front =>
      rw [Trace.hearAll_cons]
      exact Trace.hearAll_nil _

theorem Grows.heard (grows : shape.Grows bytes start later events) (trace : Trace) :
    trace.hearAll events = { trace with high := some later.stop } := by
  rw [grows.stop_later]
  obtain ⟨-, -, merges⟩ := grows
  rw [Trace.hearAll_cons, merges.heard]
  rfl

theorem Serves.heard (serves : shape.Serves size block later events)
    (known : trace.high = some shape.stop) :
    trace.hearAll events = { trace with high := some later.stop } := by
  cases serves with
  | found fit split =>
      rw [stop_carved, ← known]
      exact trace.hearAll_nil
  | grown missing grows split =>
      rw [stop_carved]
      exact grows.heard trace

theorem Expands.heard (expands : shape.Expands info target result later events)
    (known : trace.high = some shape.stop) :
    trace.hearAll events = { trace with high := some later.stop } := by
  cases expands with
  | within runAt enough =>
      change _ = { trace with high := some shape.stop }
      rw [← known]
      exact trace.hearAll_nil
  | beyond runAt short grows laterRun enough => exact grows.heard trace

/-! ## Blocks that change hands -/

theorem Releases.heard (releases : shape.Releases info later events) (trace : Trace) :
    trace.hearAll events = { trace with offsets := trace.offsets.erase info.offset } := by
  obtain ⟨split, merges⟩ := releases
  rw [Trace.hearAll_cons, merges.heard]
  rfl

theorem Moves.heard (moves : shape.Moves info target fresh later events)
    (known : trace.high = some shape.stop) :
    trace.hearAll events =
      ⟨trace.offsets.erase info.offset, some later.stop, trace.warnings⟩ := by
  obtain ⟨serves, releases⟩ := moves
  rw [Trace.hearAll_append, serves.heard known, releases.heard, releases.same_stop]

/-- A block that was enlarged has kept its offset, or the old one was given back. -/
theorem Enlarges.heard (enlarges : shape.Enlarges info target request result later events)
    (known : trace.high = some shape.stop) :
    result.offset = info.offset ∧ trace.hearAll events = { trace with high := some later.stop } ∨
      trace.hearAll events =
        ⟨trace.offsets.erase info.offset, some later.stop, trace.warnings⟩ := by
  cases enlarges with
  | inPlace expands =>
      have same : result.offset = info.offset := by
        cases expands <;> rfl
      refine .inl ⟨same, ?_⟩
      rw [Trace.hearAll_concat, expands.heard known]
      rfl
  | moved blocked moves =>
      refine .inr ?_
      rw [Trace.hearAll_concat, moves.heard known]
      rfl

theorem insert_erase_self {offsets : Finset Nat} (offset : Nat) :
    insert offset (offsets.erase offset) = insert offset offsets := by
  ext other
  simp only [Finset.mem_insert, Finset.mem_erase]
  tauto

theorem Resizes.heard (resizes : shape.Resizes info request result later events)
    (known : trace.high = some shape.stop) :
    trace.hearAll events = ⟨insert result.offset (trace.offsets.erase info.offset),
      some later.stop, trace.warnings⟩ := by
  cases resizes with
  | stays judged fits enough =>
      rw [stop_reservedBehind, insert_erase_self, ← known, Trace.hearAll_cons]
      exact Trace.hearAll_nil _
  | enlarged judged fits short enlarges =>
      rw [stop_reservedBehind, Trace.hearAll_concat]
      rcases enlarges.heard known with ⟨same, heard⟩ | heard
      · rw [heard, same, insert_erase_self, ← same]
        rfl
      · rw [heard]
        rfl

/-! ## Failures -/

theorem Refuses.heard (refuses : shape.Refuses bytes failure events) (trace : Trace) :
    trace.hearAll events =
      { trace with warnings := trace.warnings + if failure.isExhausted then 1 else 0 } := by
  cases refuses with
  | tooLarge excess => exact trace.hearAll_nil
  | exhausted encodable lacks =>
      rw [Trace.hearAll_cons]
      exact Trace.hearAll_nil _

theorem Lacks.heard (lacks : shape.Lacks size failure events) (trace : Trace) :
    trace.hearAll events =
      { trace with warnings := trace.warnings + if failure.isExhausted then 1 else 0 } := by
  obtain ⟨missing, refuses⟩ := lacks
  exact refuses.heard trace

theorem Withholds.heard (withholds : shape.Withholds info target failure events)
    (trace : Trace) :
    trace.hearAll events =
      { trace with warnings := trace.warnings + if failure.isExhausted then 1 else 0 } := by
  cases withholds with
  | confined confined =>
      obtain ⟨runAt, short, refuses⟩ := confined
      exact refuses.heard trace
  | lacking blocked lacks => exact lacks.heard trace

theorem not_isExhausted_of_blockSizeFor (judged : blockSizeFor request = .error failure) :
    failure.isExhausted = false := by
  unfold blockSizeFor at judged
  dsimp only at judged
  split at judged
  · cases judged
  · cases judged
    rfl

theorem Rejects.heard (rejects : shape.Rejects info request failure events) (trace : Trace) :
    trace.hearAll events =
      { trace with warnings := trace.warnings + if failure.isExhausted then 1 else 0 } := by
  cases rejects with
  | excessive judged =>
      rw [not_isExhausted_of_blockSizeFor judged]
      exact trace.hearAll_nil
  | padded judged exceeds => exact trace.hearAll_nil
  | withheld judged fits short withholds => exact withholds.heard trace

/-- Offsets of the allocated blocks. -/
def offsets (shape : Shape) : Finset Nat :=
  (shape.extents.map fun extent => extent.1.offset).toFinset

/-! ## Construction -/

variable {region : Region} {policy : Policy}

theorem Founds.heard (founds : Founds region policy later events) :
    Trace.silence.hearAll events = ⟨later.offsets, some later.stop, 0⟩ := by
  have unallocated := founds.later_facts.2.2.2.1
  obtain ⟨sane, room, grows⟩ := founds
  rw [Trace.hearAll_concat, grows.heard, offsets, unallocated]
  rfl

/-- What a construction that fails has reported. -/
theorem Fails.heard {size : Nat} (fails : Fails region policy failure size) :
    ∃ after : Heap,
      (Heap.create policy).run (Heap.blank region policy) = .ok (.error failure) after ∧
        (Trace.ofJournal after.journal).warnings = if failure.isExhausted then 1 else 0 := by
  cases fails with
  | invalid defective =>
      refine ⟨Heap.blank region policy, ?_, rfl⟩
      rw [Heap.create, defective]
      exact AllocM.run_throw _
  | cramped sane lacks =>
      have refused : Region.grow 16 region =
          .ok (.error (.exhausted 16 (region.limit - region.size))) region :=
        Region.grow_of_lt lacks
      have requested : (Heap.requestSpace 16).run.run (Heap.blank region policy) = _ :=
        Heap.requestSpace_refused refused
      rw [Heap.create, sane]
      refine ⟨_, AllocM.run_bind_error requested _, ?_⟩
      rw [Trace.ofJournal_append, Trace.hearAll_cons]
      rfl
  | refused sane room refuses =>
      obtain ⟨founded, shows, journal, -, ran⟩ := create_run sane room
      have denied := refuses.denies founded shows
      refine ⟨_, ran.trans (AllocM.run_bind_error denied _), ?_⟩
      rw [journal, Trace.ofJournal_append, refuses.heard]
      exact Nat.zero_add _

end Shape

end TaggedHeap
