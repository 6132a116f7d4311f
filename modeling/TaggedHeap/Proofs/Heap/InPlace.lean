import TaggedHeap.Heap.Resize
import TaggedHeap.Proofs.Heap.Growth

/-!
Contract: growth of an allocated block into the free run behind it, in terms of shapes.

The free blocks behind the block leave their lists and become part of it. If they do not suffice
and reach the end of the heap, the heap grows first, and then they do suffice.
-/

namespace TaggedHeap

/-- The block with the free run behind it, allocated and without its mark. -/
def BlockInfo.joined (info : BlockInfo) (run : List BlockInfo) : BlockInfo :=
  { info with size := sizeSum (info :: run), allocated := true, reserved := false }

namespace Shape

variable {shape : Shape} {info : BlockInfo} {front run back : List BlockInfo} {start : Nat}

/-- The shape with an allocated block joined with the free run behind it. -/
def joined (shape : Shape) (front : List BlockInfo) (info : BlockInfo)
    (run back : List BlockInfo) : Shape :=
  (shape.without run).withBlocks (front ++ info.joined run :: back)

theorem sees_freeRun (sound : shape.Sound) (split : shape.blocks = front ++ (run ++ back))
    (inFront : Tiles shape.start front start) (free : AllFree run)
    (ends : (shape.lead back).allocated = true) {patience : Nat}
    (patient : run.length < patience) {sum : Nat} (fits : sum + sizeSum run ≤ maxIndex) :
    shape.Sees (Heap.freeRun patience ⟨start⟩ sum)
      ⟨sum + sizeSum run, ⟨start + sizeSum run⟩⟩ := by
  intro heap shows
  induction run generalizing front start patience sum with
  | nil =>
      obtain ⟨patience, rfl⟩ := Nat.exists_eq_add_one_of_ne_zero (Nat.ne_zero_of_lt patient)
      have tag : (Block.tag ⟨start⟩).run heap.region = .ok (shape.lead back).tag :=
        shows.tag_lead sound split inFront
      have allocated : (shape.lead back).tag.allocated = true := ends
      rw [Heap.freeRun]
      change ReaderT.run _ heap.region = _
      rw [ReadM.run_bind tag, if_pos allocated]
      rfl
  | cons info rest inductionHypothesis =>
      obtain ⟨patience, rfl⟩ := Nat.exists_eq_add_one_of_ne_zero (Nat.ne_zero_of_lt patient)
      have member : info ∈ shape.blocks := by simp [split]
      obtain ⟨infoFree, restFree⟩ := allFree_cons.1 free
      obtain ⟨rfl, later, inFrontLater⟩ := sound.layout.tiles.advance split inFront
      have tag : info.block.tag.run heap.region = .ok info.tag := shows.tag_of_mem sound member
      have next : info.block.next.run heap.region = .ok ⟨info.offset + info.size⟩ :=
        Block.next_of_tag tag
      rw [sizeSum_cons] at fits
      have summed : (liftM (total sum info.size) : ReadM Nat).run heap.region =
          .ok (sum + info.size) := total_of_le (by omega)
      have seen := inductionHypothesis later inFrontLater restFree
        (Nat.lt_of_succ_lt_succ patient) (show sum + info.size + sizeSum rest ≤ maxIndex by omega)
      rw [sizeSum_cons, ← Nat.add_assoc, ← Nat.add_assoc, ← seen, Heap.freeRun]
      change ReaderT.run _ heap.region = _
      rw [show (⟨info.offset⟩ : Block) = info.block from rfl, ReadM.run_bind tag,
        BlockInfo.allocated_tag, infoFree, if_neg Bool.false_ne_true, ReadM.run_bind next]
      exact ReadM.run_bind summed _

theorem does_unfileUpTo (sound : shape.Sound) (split : shape.blocks = front ++ (run ++ back))
    (inFront : Tiles shape.start front start)
    (listed : ∀ info ∈ run, info ∈ shape.lists info.cls) {patience : Nat}
    (patient : run.length < patience) :
    shape.Does (Heap.unfileUpTo ⟨start + sizeSum run⟩ patience ⟨start⟩) () (shape.without run) []
      shape.Held := by
  induction run generalizing shape front start patience with
  | nil =>
      obtain ⟨patience, rfl⟩ := Nat.exists_eq_add_one_of_ne_zero (Nat.ne_zero_of_lt patient)
      rw [Heap.unfileUpTo, without_nil, sizeSum_nil, Nat.add_zero,
        if_pos rfl]
      exact Does.pure _ _ _
  | cons info rest inductionHypothesis =>
      obtain ⟨patience, rfl⟩ := Nat.exists_eq_add_one_of_ne_zero (Nat.ne_zero_of_lt patient)
      have member : info ∈ shape.blocks := by simp [split]
      have ownListed := listed info List.mem_cons_self
      have wide := sound.wide member
      obtain ⟨rfl, later, inFrontLater, stillListed⟩ := rest_of_run sound split inFront listed
      have goesOn := inductionHypothesis (sound.without [info]) later inFrontLater stillListed
        (Nat.lt_of_succ_lt_succ patient)
      have further : (⟨info.offset⟩ : Block) ≠ ⟨info.offset + (info.size + sizeSum rest)⟩ := by
        intro same
        have sameOffset := congrArg Block.offset same
        dsimp only at sameOffset
        omega
      rw [without_without, Nat.add_assoc] at goesOn
      rw [sizeSum_cons, Heap.unfileUpTo, if_neg further]
      apply Does.bind_read (sees_next sound member)
      apply (does_unfile sound ownListed).bind
      exact goesOn

section Joining

variable (sound : shape.Sound) (split : shape.blocks = front ++ (info :: run ++ back))
  (free : AllFree run)

include sound split

theorem tiles_joined : Tiles info.offset [info.joined run]
    (info.offset + sizeSum (info :: run)) := by
  have tiles := (sound.tiles_part split).2.1
  exact ⟨rfl, ⟨Nat.le_trans tiles.2.1.wide (Nat.le_add_right ..), tiles.sizeSum_mod⟩, rfl⟩

theorem gap_joined (allocated : info.allocated = true) : (shape.without run).Gap front
    (info :: run) back info.offset (info.offset + sizeSum (info :: run)) := by
  apply (sound.without run).gap split
  intro member inGap
  rcases List.mem_cons.1 inGap with rfl | inRun
  · exact (sound.without run).unlisted_of_allocated allocated
  · exact unlisted_without inRun

theorem sound_joined (allocated : info.allocated = true) :
    (shape.joined front info run back).Sound :=
  (gap_joined sound split allocated).sound_withBlocks (sound.without run)
    (tiles_joined sound split)

/-- What was held is held: the payload of the block has only become longer. -/
theorem held_joined (allocated : info.allocated = true) {index : Nat} (free : AllFree run)
    (held : shape.Held index) : (shape.joined front info run back).Held index := by
  apply (gap_joined sound split allocated).held_of_held [info.joined run] ?_ held
  intro member inGap isAllocated place lower upper
  rcases List.mem_cons.1 inGap with rfl | inRun
  · refine .inr ⟨member.joined run, List.mem_append_right _ List.mem_cons_self, rfl, lower, ?_⟩
    change place + 8 < member.offset + sizeSum (member :: run)
    rw [sizeSum_cons]
    omega
  · rw [free member inRun] at isAllocated
    exact absurd isAllocated Bool.false_ne_true

include free

theorem sees_freeRunBehind (ends : (shape.lead back).allocated = true) :
    shape.Sees (Heap.freeRunBehind info.block)
      ⟨sizeSum run, ⟨info.offset + sizeSum (info :: run)⟩⟩ := by
  have member : info ∈ shape.blocks := by simp [split]
  have later : shape.blocks = (front ++ [info]) ++ (run ++ back) := by simp [split]
  obtain ⟨inFront, inRun, -⟩ := sound.tiles_part split
  have upTo := sound.sizeSum_le split
  have widths := maxBlock_le_maxIndex
  have patient := sound.length_lt split
  rw [sizeSum_cons] at upTo
  have seen := sees_freeRun sound later (Tiles.of_middle inFront inRun.2.1 rfl) free ends
    (show run.length < shape.stop + 1 by omega) (show 0 + sizeSum run ≤ maxIndex by omega)
  rw [Nat.zero_add, Nat.add_assoc, ← sizeSum_cons] at seen
  intro heap shows
  have patienceIs : Heap.patience.run heap.region = .ok (shape.stop + 1) :=
    sees_patience shape heap shows
  have next : info.block.next.run heap.region = .ok ⟨info.offset + info.size⟩ :=
    sees_next sound member heap shows
  unfold Heap.freeRunBehind
  change ReaderT.run _ heap.region = _
  rw [ReadM.run_bind patienceIs, ReadM.run_bind next]
  exact seen heap shows

theorem does_takeRun (allocated : info.allocated = true)
    (listed : ∀ member ∈ run, member ∈ shape.lists member.cls) :
    shape.Does
      (Heap.takeRun info.block info.size ⟨sizeSum run, ⟨info.offset + sizeSum (info :: run)⟩⟩)
      () (shape.joined front info run back) [] shape.Held := by
  have member : info ∈ shape.blocks := by simp [split]
  have later : shape.blocks = (front ++ [info]) ++ (run ++ back) := by simp [split]
  obtain ⟨inFront, inRun, -⟩ := sound.tiles_part split
  have upTo := sound.sizeSum_le split
  have widths := maxBlock_le_maxIndex
  have patient := sound.length_lt split
  rw [sizeSum_cons] at upTo
  have unfiling := does_unfileUpTo sound later (Tiles.of_middle inFront inRun.2.1 rfl) listed
    (show run.length < shape.stop + 1 by omega)
  rw [Nat.add_assoc, ← sizeSum_cons] at unfiling
  have tagging := ((gap_joined sound split allocated).does_writeTags (sound.without run)
    (tiles_joined sound split)).weaken fun index => held_joined sound split allocated free
  rw [Heap.takeRun]
  apply Does.bind_read (sees_patience shape)
  apply Does.bind_read (sees_next sound member)
  apply unfiling.bind
  apply Does.bind_except (total_of_le (show info.size + sizeSum run ≤ maxIndex by omega))
  exact tagging

end Joining

theorem complete_joined (sound : shape.Sound) (complete : shape.Complete)
    (split : shape.blocks = front ++ (info :: run ++ back)) :
    (shape.joined front info run back).Complete := by
  have distinct := sound.layout.tiles.nodup
  rw [split, List.nodup_append] at distinct
  obtain ⟨-, distinctRest, frontApart⟩ := distinct
  have backApart := (List.nodup_append.1 distinctRest).2.2
  intro member inBlocks free
  rcases List.mem_append.1 inBlocks with inFront | notFront
  · refine FreeLists.mem_without.2 ⟨complete member (by simp [split, inFront]) free, ?_⟩
    intro inRun
    exact frontApart member inFront member (by simp [inRun]) rfl
  · rcases List.mem_cons.1 notFront with rfl | inBack
    · exact absurd free.symm Bool.false_ne_true
    · refine FreeLists.mem_without.2 ⟨complete member (by simp [split, inBack]) free, ?_⟩
      intro inRun
      exact backApart member (List.mem_cons_of_mem _ inRun) member inBack rfl

theorem valid_joined (valid : shape.Valid)
    (split : shape.blocks = front ++ (info :: run ++ back)) (allocated : info.allocated = true) :
    (shape.joined front info run back).Valid where
  sound := sound_joined valid.sound split allocated
  complete := complete_joined valid.sound valid.complete split
  separated := by
    have separated := valid.separated
    rw [split, List.cons_append, separated_split] at separated
    have inFront := (separated_concat.1 separated.1).1
    have behind : Separated (run ++ back) := (separated_cons.1 separated.2).2
    have inBack : Separated back := List.IsChain.right_of_append behind
    exact separated_split.2
      ⟨inFront.concat_of_allocated rfl, inBack.cons_of_allocated rfl⟩

/-- Only the extent of the joined block changes. -/
theorem exchanges_joined (split : shape.blocks = front ++ (info :: run ++ back))
    (allocated : info.allocated = true) (free : AllFree run) :
    shape.Exchanges (shape.joined front info run back) [(info.handle, info.size)]
      [(info.handle, sizeSum (info :: run))] := by
  refine ⟨(front.filter BlockInfo.allocated ++ back.filter BlockInfo.allocated).map
    fun info => (info.handle, info.size), ?_, ?_⟩
  · rw [extents, Shape.allocated, split, List.filter_append, List.cons_append,
      List.filter_cons_of_pos allocated, List.filter_append, filter_allocated_of_free free,
      List.nil_append]
    exact List.perm_middle.map _
  · have isAllocated : (info.joined run).allocated = true := rfl
    rw [extents, Shape.allocated, joined, withBlocks, List.filter_append,
      List.filter_cons_of_pos isAllocated]
    exact List.perm_middle.map _

/-- Growth lengthens the free run at the end of the heap by the size of the new block. -/
theorem Grows.run_later {bytes : Nat} {first : BlockInfo} {later : Shape} {events : List Event}
    (grows : shape.Grows bytes first later events) (split : shape.blocks = front ++ info :: run)
    (allocated : info.allocated = true) (free : AllFree run) :
    ∃ longer, later.blocks = front ++ info :: longer ∧ AllFree longer ∧
      sizeSum longer = sizeSum run + growth bytes := by
  obtain ⟨-, -, merges⟩ := grows
  have freshFree : AllFree [shape.fresh (growth bytes)] := allFree_cons.2 ⟨rfl, nofun⟩
  cases merges with
  | alone stays ends =>
      refine ⟨run ++ [shape.fresh (growth bytes)], ?_, ?_, ?_⟩
      · change shape.blocks ++ [shape.fresh (growth bytes)] = _
        rw [split, List.append_assoc]
        rfl
      · exact List.forall_mem_append.2 ⟨free, freshFree⟩
      · rw [sizeSum_append]
        rfl
  | behind cut runFree stays joins ends =>
      exact absurd (List.append_eq_nil_iff.1 cut.symm).1 joins
  | @front earlier merged back first last cut runFree firstFree joins ends =>
      obtain ⟨rfl, rfl⟩ := List.append_eq_nil_iff.1 cut.symm
      rw [split] at last
      obtain rfl | ⟨kept, joining, rfl⟩ := run.eq_nil_or_concat
      · obtain ⟨-, sameLast⟩ := List.append_inj' last rfl
        rw [← List.head_eq_of_cons_eq sameLast, allocated] at firstFree
        exact absurd firstFree.symm Bool.false_ne_true
      · rw [List.concat_eq_append] at last free ⊢
        rw [← List.cons_append, ← List.append_assoc] at last
        obtain ⟨sameEarlier, sameLast⟩ := List.append_inj' last rfl
        obtain rfl := List.head_eq_of_cons_eq sameLast
        subst earlier
        refine ⟨kept ++ [joining.fuse [shape.fresh (growth bytes)]], ?_, ?_, ?_⟩
        · change (front ++ info :: kept) ++ [joining.fuse [shape.fresh (growth bytes)]] = _
          rw [List.append_assoc, List.cons_append]
        · exact List.forall_mem_append.2 ⟨(List.forall_mem_append.1 free).1,
            allFree_cons.2 ⟨rfl, nofun⟩⟩
        · rw [sizeSum_append, sizeSum_append, Nat.add_assoc]
          rfl

/-! ## Growth in place as an operation -/

/-- An allocated block and the free run behind it. `back` is what lies behind the run. -/
structure RunAt (shape : Shape) (front : List BlockInfo) (info : BlockInfo)
    (run back : List BlockInfo) : Prop where
  split : shape.blocks = front ++ (info :: run ++ back)
  allocated : info.allocated = true
  free : AllFree run
  ends : (shape.lead back).allocated = true

theorem exists_runAt (member : info ∈ shape.blocks) (allocated : info.allocated = true) :
    ∃ front run back, shape.RunAt front info run back := by
  obtain ⟨front, behind, split⟩ := List.append_of_mem member
  obtain ⟨run, back, rfl, free, ends⟩ := shape.exists_run behind
  exact ⟨front, run, back, split, allocated, free, ends⟩

/-- How an allocated block grows in place to at least `target` bytes. -/
inductive Expands (shape : Shape) (info : BlockInfo) (target : Nat) :
    BlockInfo → Shape → List Event → Prop where
  | within {front run back : List BlockInfo} (runAt : shape.RunAt front info run back)
      (enough : target ≤ sizeSum (info :: run)) :
      Expands shape info target (info.joined run) (shape.joined front info run back) []
  | beyond {front run longer : List BlockInfo} {first : BlockInfo} {middle : Shape}
      {events : List Event} (runAt : shape.RunAt front info run [])
      (short : sizeSum (info :: run) < target)
      (grows : shape.Grows (max (target - info.size - sizeSum run) shape.policy.growthUnit) first
        middle events)
      (laterRun : middle.RunAt front info longer []) (enough : target ≤ sizeSum (info :: longer)) :
      Expands shape info target (info.joined longer) (middle.joined front info longer []) events

/-- The run behind a block is too short and ends at another block. -/
inductive Blocked (shape : Shape) (info : BlockInfo) (target : Nat) : Prop where
  | intro {front run back : List BlockInfo} (runAt : shape.RunAt front info run back)
      (short : sizeSum (info :: run) < target) (obstacle : back ≠ []) : Blocked shape info target

/-- The run behind a block is too short and ends with the heap, which does not grow. -/
inductive Confined (shape : Shape) (info : BlockInfo) (target : Nat) :
    Failure → List Event → Prop where
  | intro {front run : List BlockInfo} {failure : Failure} {events : List Event}
      (runAt : shape.RunAt front info run []) (short : sizeSum (info :: run) < target)
      (refuses : shape.Refuses (max (target - info.size - sizeSum run) shape.policy.growthUnit)
        failure events) : Confined shape info target failure events

theorem expands_or_not (member : info ∈ shape.blocks) (allocated : info.allocated = true)
    (target : Nat) :
    (∃ result later events, shape.Expands info target result later events) ∨
      shape.Blocked info target ∨ ∃ failure events, shape.Confined info target failure events := by
  obtain ⟨front, run, back, runAt⟩ := exists_runAt member allocated
  rcases Nat.lt_or_ge (sizeSum (info :: run)) target with short | enough
  · by_cases obstacle : back = []
    · subst back
      rcases shape.grows_or_refuses
          (max (target - info.size - sizeSum run) shape.policy.growthUnit) with
        ⟨first, middle, events, grows⟩ | ⟨failure, events, refuses⟩
      · have split := runAt.split
        rw [List.append_nil] at split
        obtain ⟨longer, blocks, free, size⟩ := grows.run_later split allocated runAt.free
        have laterRun : middle.RunAt front info longer [] :=
          ⟨by rw [blocks, List.append_nil], allocated, free, rfl⟩
        have covers := le_growth (max (target - info.size - sizeSum run) shape.policy.growthUnit)
        have atLeast := Nat.le_trans (Nat.le_max_left ..) covers
        refine .inl ⟨_, _, _, .beyond runAt short grows laterRun ?_⟩
        rw [sizeSum_cons] at short ⊢
        omega
      · exact .inr (.inr ⟨failure, events, .intro runAt short refuses⟩)
    · exact .inr (.inl (.intro runAt short obstacle))
  · exact .inl ⟨_, _, _, .within runAt enough⟩

namespace RunAt

variable (runAt : shape.RunAt front info run back) (sound : shape.Sound)

include runAt sound

theorem sees_run : shape.Sees (Heap.freeRunBehind info.block)
    ⟨sizeSum run, ⟨info.offset + sizeSum (info :: run)⟩⟩ :=
  sees_freeRunBehind sound runAt.split runAt.free runAt.ends

theorem sees_current : shape.Sees info.block.size info.size :=
  sees_size sound (by simp [runAt.split])

theorem total_fits : total info.size (sizeSum run) = .ok (sizeSum (info :: run)) := by
  have upTo := sound.sizeSum_le runAt.split
  have widths := maxBlock_le_maxIndex
  rw [sizeSum_cons] at upTo ⊢
  exact total_of_le (by omega)

theorem sees_end : shape.Sees (Block.size ⟨info.offset + sizeSum (info :: run)⟩)
    (shape.lead back).size := by
  obtain ⟨inFront, inRun, -⟩ := sound.tiles_part runAt.split
  have split : shape.blocks = (front ++ info :: run) ++ back := by
    rw [runAt.split, List.append_assoc]
  exact sees_size_lead sound split (tiles_append.2 ⟨info.offset, inFront, inRun⟩)

theorem does_join (complete : shape.Complete) :
    shape.Does
      (Heap.takeRun info.block info.size ⟨sizeSum run, ⟨info.offset + sizeSum (info :: run)⟩⟩)
      () (shape.joined front info run back) [] shape.Held := by
  have later : shape.blocks = (front ++ [info]) ++ (run ++ back) := by simp [runAt.split]
  exact does_takeRun sound runAt.split runAt.free runAt.allocated
    (complete.listed_part later runAt.free)

end RunAt

theorem Blocked.idles {target : Nat} (blocked : shape.Blocked info target)
    (sound : shape.Sound) : shape.Idles (Heap.growInPlace info.block target) false := by
  obtain @⟨front, run, back, runAt, short, obstacle⟩ := blocked
  have nonzero : (shape.lead back).size ≠ 0 := by
    obtain ⟨next, rest, rfl⟩ := List.exists_cons_of_ne_nil obstacle
    have wide := sound.wide (show next ∈ shape.blocks by simp [runAt.split])
    change next.size ≠ 0
    omega
  rw [Heap.growInPlace]
  apply (Idles.read (runAt.sees_current sound)).bind
  apply (Idles.read (runAt.sees_run sound)).bind
  apply (Idles.except (runAt.total_fits sound)).bind
  rw [if_neg (Nat.not_le.2 short)]
  apply (Idles.read (runAt.sees_end sound)).bind
  rw [if_pos nonzero]
  exact Idles.pure _ _

theorem Confined.denies {target : Nat} {failure : Failure} {events : List Event}
    (confined : shape.Confined info target failure events) (sound : shape.Sound) :
    shape.Denies (Heap.growInPlace info.block target) failure events := by
  obtain ⟨runAt, short, refuses⟩ := confined
  rw [Heap.growInPlace]
  apply Denies.bind_read (runAt.sees_current sound)
  apply Denies.bind_read (runAt.sees_run sound)
  apply Denies.bind_except (runAt.total_fits sound)
  rw [if_neg (Nat.not_le.2 short)]
  apply Denies.bind_read (runAt.sees_end sound)
  rw [if_neg fun nonzero => nonzero rfl]
  apply Denies.bind_get
  intro heap shows
  rw [shows.policy]
  exact refuses.denies.bind _

theorem Expands.grants {target : Nat} {result : BlockInfo} {later : Shape} {events : List Event}
    (expands : shape.Expands info target result later events) (valid : shape.Valid) :
    shape.Grants (Heap.growInPlace info.block target) true later events shape.Held := by
  have sound := valid.sound
  rw [Heap.growInPlace]
  cases expands with
  | within runAt enough =>
      apply Grants.bind_read (runAt.sees_current sound)
      apply Grants.bind_read (runAt.sees_run sound)
      apply Grants.bind_except (runAt.total_fits sound)
      rw [if_pos enough]
      apply (Grants.lift (runAt.does_join sound valid.complete)).bind
      exact Grants.pure _ _ _
  | beyond runAt short grows laterRun enough =>
      have middleValid := grows.valid valid
      have middleSound := middleValid.sound
      apply Grants.bind_read (runAt.sees_current sound)
      apply Grants.bind_read (runAt.sees_run sound)
      apply Grants.bind_except (runAt.total_fits sound)
      rw [if_neg (Nat.not_le.2 short)]
      apply Grants.bind_read (runAt.sees_end sound)
      rw [if_neg fun nonzero => nonzero rfl]
      apply Grants.bind_get
      intro heap shows
      rw [shows.policy, ← List.append_nil events]
      apply (grows.grants sound valid.complete).bind
      apply Grants.bind_read (laterRun.sees_run middleSound)
      apply Grants.bind_except (laterRun.total_fits middleSound)
      rw [if_pos enough]
      have joining := (laterRun.does_join middleSound middleValid.complete).weaken
        fun index => grows.held_later
      apply (Grants.lift joining).bind
      exact Grants.pure _ _ _

namespace Expands

variable {target : Nat} {result : BlockInfo} {later : Shape} {events : List Event}
  (expands : shape.Expands info target result later events)

include expands

theorem same_setting : shape.SameSetting later := by
  cases expands with
  | within runAt enough => exact ⟨rfl, rfl, rfl⟩
  | beyond runAt short grows laterRun enough => exact grows.same_setting.trans ⟨rfl, rfl, rfl⟩

theorem valid_later (valid : shape.Valid) : later.Valid := by
  cases expands with
  | within runAt enough => exact valid_joined valid runAt.split runAt.allocated
  | beyond runAt short grows laterRun enough =>
      exact valid_joined (grows.valid valid) laterRun.split laterRun.allocated

theorem exchanges : shape.Exchanges later [(info.handle, info.size)]
    [(result.handle, result.size)] := by
  cases expands with
  | within runAt enough => exact exchanges_joined runAt.split runAt.allocated runAt.free
  | beyond runAt short grows laterRun enough =>
      have joined := exchanges_joined laterRun.split laterRun.allocated laterRun.free
      rwa [Exchanges, extents, grows.allocated_later] at joined

theorem result_facts : result.handle = info.handle ∧ target ≤ result.size ∧
    info.size ≤ result.size ∧ result ∈ later.blocks ∧ result.allocated = true := by
  cases expands with
  | within runAt enough =>
      exact ⟨rfl, enough, Nat.le_add_right .., List.mem_append_right _ List.mem_cons_self, rfl⟩
  | beyond runAt short grows laterRun enough =>
      exact ⟨rfl, enough, Nat.le_add_right .., List.mem_append_right _ List.mem_cons_self, rfl⟩

theorem held_later (valid : shape.Valid) {index : Nat} (held : shape.Held index) :
    later.Held index := by
  cases expands with
  | within runAt enough =>
      exact held_joined valid.sound runAt.split runAt.allocated runAt.free held
  | beyond runAt short grows laterRun enough =>
      exact held_joined (grows.valid valid).sound laterRun.split laterRun.allocated laterRun.free
        (grows.held_later held)

end Expands

end Shape

end TaggedHeap
