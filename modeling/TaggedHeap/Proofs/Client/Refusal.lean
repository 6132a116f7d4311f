import TaggedHeap.Proofs.Client.Invariant
import TaggedHeap.Proofs.Client.Replay

/-!
Contract: requests that fail.

A request fails only at a limit, that of the words or that of the region, and every path asks for
what may be refused before it changes anything. So a failure leaves the heap as it was, its journal
apart, and the leases with it.
-/

namespace TaggedHeap

/-- What a failure of a heap that was built comes from: the largest block or the room of the
region. -/
inductive Failure.OfLimit : Failure → Prop where
  | tooLarge (requested : Nat) : OfLimit (.tooLarge requested)
  | exhausted (requested available : Nat) : OfLimit (.refused (.exhausted requested available))

/-- All of the heap but its journal is the same. -/
structure Heap.Unchanged (before after : Heap) : Prop where
  region : after.region = before.region
  heads : after.heads = before.heads
  policy : after.policy = before.policy
  prologue : after.prologue = before.prologue

theorem ofLimit_of_blockSizeFor {bytes : Nat} {failure : Failure}
    (judged : blockSizeFor bytes = .error failure) : failure.OfLimit := by
  unfold blockSizeFor at judged
  dsimp only at judged
  split at judged
  · cases judged
  · cases judged
    exact .tooLarge bytes

namespace Shape

variable {shape later : Shape} {info : BlockInfo} {request : Request} {failure : Failure}
  {bytes size target : Nat} {events : List Event}

theorem Refuses.ofLimit (refuses : shape.Refuses bytes failure events) : failure.OfLimit := by
  cases refuses with
  | tooLarge => exact .tooLarge _
  | exhausted => exact .exhausted _ _

theorem Lacks.ofLimit (lacks : shape.Lacks size failure events) : failure.OfLimit := by
  cases lacks with
  | intro missing refuses => exact refuses.ofLimit

theorem Withholds.ofLimit (withholds : shape.Withholds info target failure events) :
    failure.OfLimit := by
  cases withholds with
  | confined confined =>
      cases confined with
      | intro runAt short refuses => exact refuses.ofLimit
  | lacking blocked lacks => exact lacks.ofLimit

theorem Rejects.ofLimit (rejects : shape.Rejects info bytes failure events) :
    failure.OfLimit := by
  cases rejects with
  | excessive judged => exact ofLimit_of_blockSizeFor judged
  | padded judged exceeds => exact .tooLarge bytes
  | withheld judged fits short withholds => exact withholds.ofLimit

theorem Allocates.ofLimit (allocates : shape.Allocates bytes (.error failure) later events) :
    failure.OfLimit := by
  cases allocates with
  | excessive something judged => exact ofLimit_of_blockSizeFor judged
  | lacking something judged lacks => exact lacks.ofLimit

theorem Steps.ofLimit (steps : shape.Steps request (.error failure) later events) :
    failure.OfLimit := by
  cases steps with
  | allocate allocates | resizeNothing allocates => exact allocates.ofLimit
  | reject something member allocated rejects => exact rejects.ofLimit

end Shape

namespace Client

variable {client : Client} {request : Request}

/-- A permitted request that fails in a reachable state met a limit, and changed nothing but the
journal. -/
theorem unchanged_of_failed (reachable : Reachable client) (permitted : client.Permits request) :
    ∃ reply next, client.perform request = .ok (reply, next) ∧
      ∀ failure, reply = .error failure →
        failure.OfLimit ∧ client.heap.Unchanged next.heap ∧ next.leases = client.leases := by
  obtain ⟨shape, tracks⟩ := reachable.tracks
  obtain ⟨reply, next, later, events, steps, performed, -⟩ := tracks.perform permitted
  refine ⟨reply, next, performed, ?_⟩
  rintro failure rfl
  have denied : request.act.run client.heap = _ :=
    steps.denies tracks.valid.sound client.heap tracks.shows
  rw [perform, denied] at performed
  cases performed
  exact ⟨steps.ofLimit, ⟨rfl, rfl, rfl, rfl⟩, rfl⟩

/-- A payload that cannot grow where it is, in a region without room to move it. -/
theorem unchanged_of_refused_move : ∃ client next,
    replay (.ofLimit 64) ⟨16, 8, 16, 2⟩ [.allocate 1, .allocate 2] = some client ∧
      client.perform (.resize (some ⟨16⟩) 9) =
        .ok (.error (.refused (.exhausted 40 16)), next) ∧
      client.heap.Unchanged next.heap ∧ next.leases = client.leases := by
  have played : (replay (.ofLimit 64) ⟨16, 8, 16, 2⟩ [.allocate 1, .allocate 2]).any
      (fun client => ⟨16⟩ ∈ client.handles ∧
        (client.perform (.resize (some ⟨16⟩) 9)).map Prod.fst =
          .ok (.error (.refused (.exhausted 40 16)))) = true := by
    decide +kernel
  obtain ⟨client, replayed, checked⟩ := (Option.any_eq_true _ _).1 played
  obtain ⟨held, answered⟩ := of_decide_eq_true checked
  have permitted : client.Permits (.resize (some ⟨16⟩) 9) := permits_of_mem rfl held
  obtain ⟨reply, next, performed, unchanged⟩ :=
    unchanged_of_failed (reachable_of_replay replayed) permitted
  rw [performed] at answered
  cases answered
  obtain ⟨-, same, leases⟩ := unchanged _ rfl
  exact ⟨client, next, replayed, performed, same, leases⟩

end Client

end TaggedHeap
