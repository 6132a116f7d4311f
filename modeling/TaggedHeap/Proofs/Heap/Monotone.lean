import TaggedHeap.Proofs.Client.Step
import TaggedHeap.Proofs.FreeList.Recency

/-!
Contract: whatever stands in the way of a request stands in the way of every larger one.

A larger request fits no block that the smaller one does not fit, and it asks for no less growth. So
the reason for a failure persists on each path, although the larger request may meet another limit
first and fail for that.
-/

namespace TaggedHeap

theorem growth_mono {fewer bytes : Nat} (le : fewer ≤ bytes) : growth fewer ≤ growth bytes := by
  have rounded := roundUp_mono le
  simp only [growth]
  omega

theorem blockSizeFor_mono {fewer bytes size : Nat} (le : fewer ≤ bytes)
    (judged : blockSizeFor bytes = .ok size) :
    ∃ smaller ≤ size, blockSizeFor fewer = .ok smaller := by
  have rounded := roundUp_mono (Nat.add_le_add_right le 8)
  unfold blockSizeFor at judged
  dsimp only at judged
  split at judged
  · rename_i encodable
    cases judged
    refine ⟨max minBlock (roundUp (fewer + 8)), by omega, if_pos (by omega)⟩
  · cases judged

theorem FreeLists.missing_of_le {lists : FreeLists} {size larger : Nat} (orderly : lists.Orderly)
    (missing : lists.fit size = none) (le : size ≤ larger) : lists.fit larger = none := by
  cases found : lists.fit larger with
  | none => rfl
  | some info =>
      obtain ⟨cls, listed, enough, unreserved⟩ := mem_of_fit found
      have fits : info.fits size = true := by
        simp only [BlockInfo.fits, unreserved, decide_eq_true (Nat.le_trans le enough)]
        rfl
      exact absurd fits (not_fits_of_missing orderly missing listed)

namespace Shape

variable {shape later : Shape} {info : BlockInfo} {fewer bytes size target larger : Nat}
  {failure : Failure} {events : List Event}

theorem Refuses.persists (refuses : shape.Refuses fewer failure events) (le : fewer ≤ bytes) :
    ∃ failure events, shape.Refuses bytes failure events := by
  have grows := growth_mono le
  rcases Nat.lt_or_ge maxBlock (shape.stop + growth bytes) with excess | encodable
  · exact ⟨_, _, .tooLarge excess⟩
  · cases refuses with
    | tooLarge excess => omega
    | exhausted _ lacks => exact ⟨_, _, .exhausted encodable (by omega)⟩

theorem Lacks.persists (lacks : shape.Lacks size failure events) (sound : shape.Sound)
    (le : size ≤ larger) : ∃ failure events, shape.Lacks larger failure events := by
  obtain ⟨missing, refuses⟩ := lacks
  obtain ⟨failure, events, refuses⟩ := refuses.persists
    (show max size shape.policy.growthUnit ≤ max larger shape.policy.growthUnit by omega)
  exact ⟨failure, events, .intro (FreeLists.missing_of_le sound.orderly missing le) refuses⟩

theorem Allocates.persists (allocates : shape.Allocates fewer (.error failure) later events)
    (sound : shape.Sound) (le : fewer ≤ bytes) :
    ∃ failure events, shape.Allocates bytes (.error failure) shape events := by
  cases judged : blockSizeFor bytes with
  | error failure =>
      refine ⟨failure, _, .excessive ?_ judged⟩
      cases allocates with
      | excessive something | lacking something => omega
  | ok size =>
      obtain ⟨smaller, smallerLe, smallerJudged⟩ := blockSizeFor_mono le judged
      cases allocates with
      | excessive something excess =>
          rw [smallerJudged] at excess
          cases excess
      | lacking something lackingJudged lacks =>
          rw [smallerJudged] at lackingJudged
          cases lackingJudged
          obtain ⟨failure, events, lacks⟩ := lacks.persists sound smallerLe
          exact ⟨failure, events, .lacking (by omega) judged lacks⟩

/-- The run behind the block is the same for both requests, so both meet the same obstacle. -/
theorem Withholds.persists (withholds : shape.Withholds info target failure events)
    (sound : shape.Sound) (le : target ≤ larger) :
    ∃ failure events, shape.Withholds info larger failure events := by
  cases withholds with
  | confined confined =>
      obtain @⟨front, run, _, _, runAt, short, refuses⟩ := confined
      obtain ⟨failure, events, refuses⟩ := refuses.persists
        (show max (target - info.size - sizeSum run) shape.policy.growthUnit ≤
          max (larger - info.size - sizeSum run) shape.policy.growthUnit by omega)
      exact ⟨failure, events, .confined (.intro runAt (Nat.lt_of_lt_of_le short le) refuses)⟩
  | lacking blocked lacks =>
      obtain ⟨runAt, short, obstacle⟩ := blocked
      obtain ⟨failure, events, lacks⟩ := lacks.persists sound le
      exact ⟨failure, events,
        .lacking (.intro runAt (Nat.lt_of_lt_of_le short le) obstacle) lacks⟩

theorem Rejects.persists (rejects : shape.Rejects info fewer failure events)
    (sound : shape.Sound) (le : fewer ≤ bytes) :
    ∃ failure events, shape.Rejects info bytes failure events := by
  cases judged : blockSizeFor bytes with
  | error failure => exact ⟨failure, _, .excessive judged⟩
  | ok needed =>
      obtain ⟨smaller, smallerLe, smallerJudged⟩ := blockSizeFor_mono le judged
      rcases Nat.lt_or_ge maxBlock (needed + shape.policy.resizeSlack) with exceeds | fits
      · exact ⟨_, _, .padded judged exceeds⟩
      · cases rejects with
        | excessive excess =>
            rw [smallerJudged] at excess
            cases excess
        | padded paddedJudged exceeds =>
            rw [smallerJudged] at paddedJudged
            cases paddedJudged
            omega
        | withheld withheldJudged _ short withholds =>
            rw [smallerJudged] at withheldJudged
            cases withheldJudged
            obtain ⟨failure, events, withholds⟩ :=
              withholds.persists sound (Nat.add_le_add_right smallerLe _)
            exact ⟨failure, events, .withheld judged fits (by omega) withholds⟩

end Shape

end TaggedHeap
