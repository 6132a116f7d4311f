import TaggedHeap.Heap.Payload
import TaggedHeap.Heap.Resize

/-!
Contract: clients, who reach a heap only through handles that they hold.

A client keeps a lease for each live handle. A request is permitted if it names leased
handles only. `Client.Runs` relates a client to what it may become by permitted requests;
all that a heap promises, it promises along such runs.
-/

namespace TaggedHeap

/-- A live handle, with the number of bytes that was last granted under it. -/
structure Lease where
  handle : Handle
  bytes : Nat
deriving DecidableEq, Repr

inductive Request where
  | allocate (bytes : Nat)
  | release (handle : Option Handle)
  | resize (handle : Option Handle) (bytes : Nat)
  | write (handle : Handle) (start : Nat) (values : ByteArray)

/-- Answer to a request. A release and a write answer no handle. -/
abbrev Reply := Except Failure (Option Handle)

structure Client where
  heap : Heap
  leases : List Lease

namespace Request

/-- The handle that a granted request gives up. -/
def surrendered : Request → Option Handle
  | .allocate _ | .write _ _ _ => none
  | .release handle | .resize handle _ => handle

def named : Request → Option Handle
  | .allocate _ => none
  | .release handle | .resize handle _ => handle
  | .write handle _ _ => some handle

def bytes : Request → Nat
  | .allocate bytes | .resize _ bytes => bytes
  | .release _ | .write _ _ _ => 0

def act : Request → AllocM (Option Handle)
  | .allocate bytes => Heap.allocate bytes
  | .release handle => do
      Heap.release handle
      return none
  | .resize handle bytes => Heap.resize handle bytes
  | .write handle start values => do
      let _ ← (Heap.writePayload handle start values : HeapM Nat)
      return none

/-- The leases that are held after a request was granted. -/
def settle (request : Request) (answer : Option Handle) (leases : List Lease) : List Lease :=
  let kept := leases.filter fun lease => request.surrendered ≠ some lease.handle
  match answer with
  | none => kept
  | some handle => ⟨handle, request.bytes⟩ :: kept

end Request

namespace Client

def handles (client : Client) : List Handle :=
  client.leases.map Lease.handle

/-- Whether a request names leased handles only. -/
def Permits (client : Client) (request : Request) : Prop :=
  ∀ handle, request.named = some handle → handle ∈ client.handles

/-- Carries out a request. What fails leaves the leases as they are. -/
def perform (client : Client) (request : Request) : Except Fault (Reply × Client) :=
  match request.act.run client.heap with
  | .ok (.ok answer) heap => .ok (.ok answer, ⟨heap, request.settle answer client.leases⟩)
  | .ok (.error failure) heap => .ok (.error failure, ⟨heap, client.leases⟩)
  | .error fault _ => .error fault

/-- A client of a heap that was just built at the end of a region. -/
def Opens (region : Region) (policy : Policy) (client : Client) : Prop :=
  (Heap.create policy).run (Heap.blank region policy) = .ok (.ok ()) client.heap ∧
    client.leases = []

/-- What a client becomes by permitted requests, and the replies that it gets on the way. -/
inductive Runs : Client → List Request → List Reply → Client → Prop where
  | nil (client : Client) : Runs client [] [] client
  | cons {first second last : Client} {request : Request} {reply : Reply}
      {requests : List Request} {replies : List Reply}
      (permitted : first.Permits request)
      (performed : first.perform request = .ok (reply, second))
      (rest : Runs second requests replies last) :
      Runs first (request :: requests) (reply :: replies) last

/-- A client of a heap that only permitted requests have changed. -/
def Reachable (client : Client) : Prop :=
  ∃ region policy opened requests replies,
    Opens region policy opened ∧ Runs opened requests replies client

theorem permits_allocate (client : Client) (bytes : Nat) :
    client.Permits (.allocate bytes) := by
  intro handle named
  cases named

theorem permits_of_mem {client : Client} {request : Request} {handle : Handle}
    (named : request.named = some handle) (held : handle ∈ client.handles) :
    client.Permits request := by
  intro other otherNamed
  rw [named] at otherNamed
  cases otherNamed
  exact held

end Client

end TaggedHeap
