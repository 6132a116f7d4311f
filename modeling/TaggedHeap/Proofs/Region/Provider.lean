import TaggedHeap.Heap.Basic

/-!
Contract: computations that cannot tell one provider of bytes from another.

Two regions match if they agree on their size, their limit and their bytes, and the limit is one
that either provider can keep to. A reading is agnostic if it finds the same in matching regions. A
change is parallel if it answers the same from matching states and leaves matching states behind,
also where it stops at a fault. There is one rule for each construct that a computation is put
together from, so an operation is parallel once its steps are.
-/

namespace TaggedHeap

namespace Region

structure Matches (left right : Region) : Prop where
  size : left.size = right.size
  limit : left.limit = right.limit
  addressable : left.limit < addressSpace
  byte : ∀ offset, left.byte offset = right.byte offset

namespace Matches

variable {left right : Region} (same : left.Matches right)

include same

theorem word (offset : Nat) : left.word offset = right.word offset :=
  word_congr fun index _ _ => same.byte index

theorem extract (start count : Nat) : left.extract start count = right.extract start count := by
  have clip : left.clip start count = right.clip start count := by
    rw [Region.clip, Region.clip, same.size]
  rw [Region.extract, Region.extract, clip]
  exact Bytes.gather_congr (fun index _ => same.byte (start + index)) _

theorem setByte (offset : Nat) (value : UInt8) :
    (left.setByte offset value).Matches (right.setByte offset value) where
  size := by rw [size_setByte, size_setByte, same.size]
  limit := by rw [limit_setByte, limit_setByte, same.limit]
  addressable := by
    rw [limit_setByte]
    exact same.addressable
  byte := fun other => by rw [byte_setByte, byte_setByte, same.size, same.byte]

theorem setWord (offset : Nat) (value : UInt32) :
    (left.setWord offset value).Matches (right.setWord offset value) :=
  (((same.setByte _ _).setByte _ _).setByte _ _).setByte _ _

theorem store (start : Nat) (values : ByteArray) :
    (left.store start values).Matches (right.store start values) where
  size := by rw [size_store, size_store, same.size]
  limit := by rw [limit_store, limit_store, same.limit]
  addressable := by
    rw [limit_store]
    exact same.addressable
  byte := fun offset => by rw [byte_store, byte_store, same.size, same.byte]

theorem enlarge {count : Nat} (aligned : count % 8 = 0)
    (leftFits : left.size + count ≤ left.limit) (rightFits : right.size + count ≤ right.limit) :
    (left.enlarge count aligned leftFits).Matches (right.enlarge count aligned rightFits) where
  size := by rw [size_enlarge, size_enlarge, same.size]
  limit := by rw [limit_enlarge, limit_enlarge, same.limit]
  addressable := by
    rw [limit_enlarge]
    exact same.addressable
  byte := fun offset => by rw [byte_enlarge, byte_enlarge, same.byte]

theorem transfer {source target count : Nat} (sourceInside : source + count ≤ left.size)
    (targetInside : target + count ≤ left.size) :
    (left.transfer source target count).Matches (right.transfer source target count) where
  size := by rw [size_transfer, size_transfer, same.size]
  limit := by rw [limit_transfer, limit_transfer, same.limit]
  addressable := by
    rw [limit_transfer]
    exact same.addressable
  byte := fun offset => by
    rw [byte_transfer _ sourceInside targetInside,
      byte_transfer _ (same.size ▸ sourceInside) (same.size ▸ targetInside), same.byte, same.byte]

end Matches

/-- A buffer and a reservation of one limit match while they are empty. -/
theorem matches_of_reserve {limit : Nat} {reserved : Region}
    (claimed : reserve limit = .ok reserved) : (ofLimit limit).Matches reserved := by
  unfold reserve Reservation.claim at claimed
  split at claimed
  · rename_i reservation found
    split at found
    · cases found
    · split at found
      · cases found
        cases claimed
        rename_i fits
        refine ⟨rfl, rfl, fits, fun offset => ?_⟩
        have unused : (Buffer.empty limit).byte offset = 0 := Bytes.read_of_size_le (Nat.zero_le _)
        exact unused.trans (PageTable.byte_empty offset).symm
      · cases found
  · cases claimed

end Region

namespace ReadM

variable {α β : Type}

def Agnostic (look : ReadM α) : Prop :=
  ∀ left right : Region, left.Matches right → look left = look right

namespace Agnostic

theorem pure (value : α) : Agnostic (pure value) :=
  fun _ _ _ => rfl

theorem except (answer : Except Fault α) : Agnostic (liftM answer) :=
  fun _ _ _ => rfl

theorem throw (fault : Fault) : Agnostic (throw fault : ReadM α) :=
  fun _ _ _ => rfl

theorem bind {first : ReadM α} {rest : α → ReadM β} (agnostic : Agnostic first)
    (each : ∀ value, Agnostic (rest value)) : Agnostic (first >>= rest) := by
  intro left right same
  change (first left).bind (rest · left) = (first right).bind (rest · right)
  rw [agnostic left right same]
  cases first right with
  | error fault => rfl
  | ok value => exact each value left right same

/-- What is looked up of the region itself must not depend on the provider. -/
theorem region_bind {rest : Region → ReadM β}
    (uniform : ∀ left right : Region, left.Matches right → rest left = rest right)
    (each : ∀ region, Agnostic (rest region)) : Agnostic (read >>= rest) := by
  intro left right same
  change rest left left = rest right right
  rw [uniform left right same]
  exact each right left right same

theorem ite {condition : Prop} [Decidable condition] {look other : ReadM α}
    (whenTrue : Agnostic look) (whenFalse : Agnostic other) :
    Agnostic (if condition then look else other) := by
  split
  · exact whenTrue
  · exact whenFalse

/-- A reading that goes on unless it stops at a fault. -/
theorem check {condition : Prop} [Decidable condition] {fault : Fault} {rest : α → ReadM β}
    {look : ReadM β} (otherwise : Agnostic look) :
    Agnostic (if condition then MonadExcept.throw fault >>= rest else look) :=
  .ite (fun _ _ _ => rfl) otherwise

/-! The same for readings that may also stop at an answer of their own. -/

variable {ε : Type}

theorem run_bind {first : ExceptT ε ReadM α} {rest : α → ExceptT ε ReadM β}
    (agnostic : Agnostic first.run) (each : ∀ value, Agnostic (rest value).run) :
    Agnostic (first >>= rest).run := by
  rw [ExceptT.run_bind]
  refine agnostic.bind fun answer => ?_
  cases answer with
  | error stop => exact .pure _
  | ok value => exact each value

theorem run_pure (value : α) : Agnostic (Pure.pure value : ExceptT ε ReadM α).run :=
  .pure _

theorem run_throw (stop : ε) : Agnostic (MonadExcept.throw stop : ExceptT ε ReadM α).run :=
  .pure _

theorem run_lift {look : ReadM α} (agnostic : Agnostic look) :
    Agnostic (liftM look : ExceptT ε ReadM α).run :=
  agnostic.bind fun _ => .pure _

theorem run_region_bind {rest : Region → ExceptT ε ReadM β}
    (uniform : ∀ left right : Region, left.Matches right → rest left = rest right)
    (each : ∀ region, Agnostic (rest region).run) : Agnostic (read >>= rest).run := by
  intro left right same
  change (rest left).run left = (rest right).run right
  rw [uniform left right same]
  exact each right left right same

theorem run_ite {condition : Prop} [Decidable condition] {look other : ExceptT ε ReadM α}
    (whenTrue : Agnostic look.run) (whenFalse : Agnostic other.run) :
    Agnostic (if condition then look else other).run := by
  split
  · exact whenTrue
  · exact whenFalse

theorem run_check {condition : Prop} [Decidable condition] {stop : ε}
    {rest : α → ExceptT ε ReadM β} {look : ExceptT ε ReadM β} (otherwise : Agnostic look.run) :
    Agnostic (if condition then MonadExcept.throw stop >>= rest else look).run :=
  .run_ite (fun _ _ _ => rfl) otherwise

end Agnostic

end ReadM

/-! ## Changes -/

/-- Two outcomes with the same answer or the same fault, in states that are the same to a
computation. -/
inductive InStep {ε σ α : Type} (same : σ → σ → Prop) :
    EStateM.Result ε σ α → EStateM.Result ε σ α → Prop where
  | ok (value : α) {left right : σ} (matching : same left right) :
      InStep same (.ok value left) (.ok value right)
  | error (fault : ε) {left right : σ} (matching : same left right) :
      InStep same (.error fault left) (.error fault right)

def Parallel {ε σ α : Type} (same : σ → σ → Prop) (change : EStateM ε σ α) : Prop :=
  ∀ left right, same left right → InStep same (change left) (change right)

namespace Parallel

variable {ε σ α β : Type} {same : σ → σ → Prop}

theorem pure (value : α) : Parallel same (pure value : EStateM ε σ α) :=
  fun _ _ matching => .ok value matching

theorem throw (fault : ε) : Parallel same (throw fault : EStateM ε σ α) :=
  fun _ _ matching => .error fault matching

theorem bind {first : EStateM ε σ α} {rest : α → EStateM ε σ β} (parallel : Parallel same first)
    (each : ∀ value, Parallel same (rest value)) : Parallel same (first >>= rest) := by
  intro left right matching
  have steps := parallel left right matching
  simp only [Bind.bind, EStateM.bind]
  generalize first left = leftOutcome, first right = rightOutcome at steps
  cases steps with
  | ok value after => exact each value _ _ after
  | error fault after => exact .error fault after

theorem get_bind {rest : σ → EStateM ε σ β}
    (uniform : ∀ left right, same left right → rest left = rest right)
    (each : ∀ state, Parallel same (rest state)) : Parallel same (get >>= rest) := by
  intro left right matching
  change InStep same (rest left left) (rest right right)
  rw [uniform left right matching]
  exact each right left right matching

theorem modify {edit : σ → σ}
    (each : ∀ left right, same left right → same (edit left) (edit right)) :
    Parallel same (modify edit : EStateM ε σ PUnit) :=
  fun left right matching => .ok () (each left right matching)

theorem ite {condition : Prop} [Decidable condition] {change other : EStateM ε σ α}
    (whenTrue : Parallel same change) (whenFalse : Parallel same other) :
    Parallel same (if condition then change else other) := by
  split
  · exact whenTrue
  · exact whenFalse

theorem mapM {step : α → EStateM ε σ β} (each : ∀ item, Parallel same (step item))
    (items : List α) : Parallel same (items.mapM step) := by
  induction items with
  | nil => exact .pure _
  | cons item items inductionHypothesis =>
      rw [List.mapM_cons]
      exact .bind (each item) fun _ => .bind inductionHypothesis fun _ => .pure _

/-! The same for changes that may also answer with a failure. -/

variable {φ : Type}

theorem run_bind {first : ExceptT φ (EStateM ε σ) α} {rest : α → ExceptT φ (EStateM ε σ) β}
    (parallel : Parallel same first.run) (each : ∀ value, Parallel same (rest value).run) :
    Parallel same (first >>= rest).run := by
  rw [ExceptT.run_bind]
  refine parallel.bind fun answer => ?_
  cases answer with
  | error failure => exact .pure _
  | ok value => exact each value

theorem run_pure (value : α) :
    Parallel same (Pure.pure value : ExceptT φ (EStateM ε σ) α).run :=
  .pure _

theorem run_throw (failure : φ) :
    Parallel same (MonadExcept.throw failure : ExceptT φ (EStateM ε σ) α).run :=
  .pure _

theorem run_answer (answer : Except φ α) :
    Parallel same (liftM answer : ExceptT φ (EStateM ε σ) α).run := by
  cases answer with
  | error failure => exact .run_throw failure
  | ok value => exact .run_pure value

theorem run_lift {change : EStateM ε σ α} (parallel : Parallel same change) :
    Parallel same (liftM change : ExceptT φ (EStateM ε σ) α).run :=
  parallel.bind fun _ => .pure _

theorem run_get_bind {rest : σ → ExceptT φ (EStateM ε σ) β}
    (uniform : ∀ left right, same left right → rest left = rest right)
    (each : ∀ state, Parallel same (rest state).run) : Parallel same (get >>= rest).run := by
  intro left right matching
  change InStep same ((rest left).run left) ((rest right).run right)
  rw [uniform left right matching]
  exact each right left right matching

theorem run_ite {condition : Prop} [Decidable condition]
    {change other : ExceptT φ (EStateM ε σ) α} (whenTrue : Parallel same change.run)
    (whenFalse : Parallel same other.run) :
    Parallel same (if condition then change else other).run := by
  split
  · exact whenTrue
  · exact whenFalse

end Parallel

/-! ## Access to a region -/

namespace Region

variable {α : Type}

theorem look_parallel {look : ReadM α} (agnostic : ReadM.Agnostic look) :
    Parallel Matches (liftM look : RegionM α) := by
  intro left right same
  have found := agnostic left right same
  simp only [liftM, monadLift, MonadLift.monadLift, found]
  cases look right with
  | error fault => exact .error fault same
  | ok value => exact .ok value same

theorem except_parallel (answer : Except Fault α) :
    Parallel Matches (liftM answer : RegionM α) :=
  look_parallel (.except answer)

theorem readWord_agnostic (offset : Nat) : ReadM.Agnostic (readWord offset) := by
  intro left right same
  rw [readWord, readWord, same.size, same.word]

theorem writeWord_parallel (offset : Nat) (value : UInt32) :
    Parallel Matches (writeWord offset value) := by
  intro left right same
  rw [writeWord, writeWord, same.size]
  split
  · exact .ok () (same.setWord offset value)
  · exact .error Fault.outOfBounds same

theorem grow_parallel (bytes : Nat) : Parallel Matches (grow bytes) := by
  intro left right same
  unfold grow
  by_cases fits : left.size + roundUp bytes ≤ left.limit
  · have rightFits : right.size + roundUp bytes ≤ right.limit := by
      rw [← same.size, ← same.limit]
      exact fits
    rw [dif_pos fits, dif_pos rightFits, same.size]
    split
    · exact .ok _ (same.enlarge _ fits rightFits)
    · exact .error Fault.outOfMemory same
  · have rightLacks : ¬right.size + roundUp bytes ≤ right.limit := by
      rw [← same.size, ← same.limit]
      exact fits
    rw [dif_neg fits, dif_neg rightLacks, same.size, same.limit]
    exact .ok _ same

theorem copy_parallel (source target count : Nat) :
    Parallel Matches (copy source target count) := by
  intro left right same
  rw [copy, copy, ← same.size]
  split
  · rename_i inside
    exact .ok () (same.transfer inside.1 inside.2)
  · exact .error Fault.outOfBounds same

/-- What comes of growing a region. It is extended by as many zero bytes as asked for, rounded up,
if their number can be formed and the limit leaves room for them, and is left as it is otherwise. -/
inductive Growth (region : Region) (bytes : Nat) : Except Refusal Nat → Region → Prop where
  | granted {count : Nat} {later : Region} (rounded : roundUp? bytes = some count)
      (fits : count ≤ region.limit - region.size) (size : later.size = region.size + count)
      (limit : later.limit = region.limit)
      (kept : ∀ offset < region.size, later.byte offset = region.byte offset)
      (zero : ∀ offset, region.size ≤ offset → later.byte offset = 0) :
      Growth region bytes (.ok region.size) later
  | refused (lacks : ∀ count, roundUp? bytes = some count → region.limit - region.size < count) :
      Growth region bytes (.error (.exhausted bytes (region.limit - region.size))) region

theorem grow_growth {region : Region} (addressable : region.limit < addressSpace) (bytes : Nat) :
    ∃ answer later, grow bytes region = .ok answer later ∧ region.Growth bytes answer later := by
  have inside := region.size_le_limit
  rcases Nat.lt_or_ge region.limit (region.size + roundUp bytes) with lacks | fits
  · refine ⟨_, _, grow_of_lt lacks, .refused fun count rounded => ?_⟩
    unfold roundUp? at rounded
    split at rounded
    · cases rounded
      omega
    · cases rounded
  · have rounded : roundUp? bytes = some (roundUp bytes) := by
      have atLeast := le_roundUp bytes
      have spare : addressSpace + 7 ≤ maxIndex := by decide
      rw [roundUp?, if_pos (by omega)]
    refine ⟨_, _, grow_of_le fits (by omega), .granted rounded (by omega) (size_enlarge ..)
      (limit_enlarge ..) (fun _ _ => byte_enlarge ..) fun offset above => ?_⟩
    rw [byte_enlarge]
    exact region.byte_of_size_le above

end Region

end TaggedHeap
