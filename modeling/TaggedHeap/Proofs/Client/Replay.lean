import TaggedHeap.Client

/-!
Contract: runs that are computed.

A replay opens a heap at the end of a region and performs requests for as long as each of them is
permitted. Whatever a replay comes to is reachable, so that closed statements about reachable
clients can be had by evaluation.
-/

namespace TaggedHeap.Client

variable {client last : Client} {requests : List Request}

instance (client : Client) (request : Request) : Decidable (client.Permits request) :=
  match named : request.named with
  | none => isTrue fun _ isNamed => by cases named.symm.trans isNamed
  | some handle =>
      if held : handle ∈ client.handles then
        isTrue (permits_of_mem named held)
      else
        isFalse fun permitted => held (permitted handle named)

def openAt (region : Region) (policy : Policy) : Option Client :=
  match (Heap.create policy).run (Heap.blank region policy) with
  | .ok (.ok ()) heap => some ⟨heap, []⟩
  | _ => none

def play : List Request → Client → Option Client
  | [], client => some client
  | request :: requests, client =>
      if client.Permits request then
        match client.perform request with
        | .ok (_, next) => play requests next
        | .error _ => none
      else
        none

def replay (region : Region) (policy : Policy) (requests : List Request) : Option Client :=
  (openAt region policy).bind (play requests)

theorem exists_performed {request : Request} {reply : Reply}
    (answered : (client.perform request).map Prod.fst = .ok reply) :
    ∃ next, client.perform request = .ok (reply, next) := by
  cases performed : client.perform request with
  | error fault =>
      rw [performed] at answered
      cases answered
  | ok outcome =>
      rw [performed] at answered
      cases answered
      exact ⟨outcome.2, rfl⟩

theorem exists_runs_of_play (played : play requests client = some last) :
    ∃ replies, Runs client requests replies last := by
  induction requests generalizing client with
  | nil =>
      cases played
      exact ⟨[], .nil _⟩
  | cons request requests inductionHypothesis =>
      rw [play] at played
      split at played
      · rename_i permitted
        split at played
        · rename_i reply next performed
          obtain ⟨replies, rest⟩ := inductionHypothesis played
          exact ⟨reply :: replies, .cons permitted performed rest⟩
        · cases played
      · cases played

theorem exists_performed_of_play {request : Request} (played : play [request] client = some last) :
    ∃ reply, client.Permits request ∧ client.perform request = .ok (reply, last) := by
  obtain ⟨_, runs⟩ := exists_runs_of_play played
  cases runs with
  | cons permitted performed ends =>
      cases ends
      exact ⟨_, permitted, performed⟩

theorem opens_of_openAt {region : Region} {policy : Policy}
    (opened : openAt region policy = some client) : Opens region policy client := by
  rw [openAt] at opened
  split at opened
  · rename_i heap created
    cases opened
    exact ⟨created, rfl⟩
  · cases opened

theorem exists_created_of_any {region : Region} {policy : Policy} {test : Client → Bool}
    (opened : (openAt region policy).any test = true) :
    ∃ client, (Heap.create policy).run (Heap.blank region policy) = .ok (.ok ()) client.heap ∧
      test client = true := by
  obtain ⟨client, isOpened, tested⟩ := (Option.any_eq_true _ _).1 opened
  obtain ⟨created, -⟩ := opens_of_openAt isOpened
  exact ⟨client, created, tested⟩

theorem exists_runs_of_replay {region : Region} {policy : Policy}
    (replayed : replay region policy requests = some last) :
    ∃ opened replies, Opens region policy opened ∧ Runs opened requests replies last := by
  obtain ⟨opened, isOpened, played⟩ := Option.bind_eq_some_iff.1 replayed
  obtain ⟨replies, runs⟩ := exists_runs_of_play played
  exact ⟨opened, replies, opens_of_openAt isOpened, runs⟩

theorem reachable_of_replay {region : Region} {policy : Policy}
    (replayed : replay region policy requests = some last) : Reachable last := by
  obtain ⟨opened, replies, opens, runs⟩ := exists_runs_of_replay replayed
  exact ⟨region, policy, opened, requests, replies, opens, runs⟩

end TaggedHeap.Client
