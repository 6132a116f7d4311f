import TaggedHeap.Heap.Audit
import TaggedHeap.Heap.Payload
import TaggedHeap.Heap.Resize
import TaggedHeap.Heap.Survey
import TaggedHeap.Proofs.Region.Provider

/-!
Contract: no operation of a heap depends on the provider of its region.

Two heaps match if their regions match and they keep the same heads, policy, prologue and journal.
Every operation is parallel on matching heaps, whatever bytes they hold, and every view of them is
agnostic. The statements follow the operations from the blocks up.
-/

namespace TaggedHeap

variable {α : Type}

namespace Block

open ReadM (Agnostic)

theorem tag_agnostic (block : Block) : Agnostic block.tag :=
  .bind (.except _) fun _ => .bind (Region.readWord_agnostic _) fun _ => .pure _

theorem size_agnostic (block : Block) : Agnostic block.size :=
  .bind block.tag_agnostic fun _ => .pure _

theorem isAllocated_agnostic (block : Block) : Agnostic block.isAllocated :=
  .bind block.tag_agnostic fun _ => .pure _

theorem footerTag_agnostic (block : Block) : Agnostic block.footerTag :=
  .bind (.bind block.size_agnostic fun _ => .except _) fun _ =>
    .bind (Region.readWord_agnostic _) fun _ => .pure _

theorem next_agnostic (block : Block) : Agnostic block.next :=
  .bind block.size_agnostic fun _ => .pure _

theorem previous_agnostic (block : Block) : Agnostic block.previous :=
  .bind (.except _) fun _ => .bind (Region.readWord_agnostic _) fun _ =>
    .bind (.except _) fun _ => .pure _

theorem links_agnostic (block : Block) : Agnostic block.links := by
  unfold links
  exact .bind block.isAllocated_agnostic fun _ =>
    .check (.bind (Region.readWord_agnostic _) fun _ =>
      .bind (Region.readWord_agnostic _) fun _ => .pure _)

section Changes

variable (block : Block)

theorem writeTags_parallel (size : Nat) (allocated reserved : Bool) :
    Parallel Region.Matches (block.writeTags size allocated reserved) :=
  .bind (Region.except_parallel _) fun _ => .bind (Region.except_parallel _) fun _ =>
    .bind (Region.writeWord_parallel _ _) fun _ => .bind (Region.except_parallel _) fun _ =>
      .bind (Region.except_parallel _) fun _ => Region.writeWord_parallel _ _

theorem stamp_parallel (size : Nat) (allocated : Bool) :
    Parallel Region.Matches (block.stamp size allocated) :=
  .bind (Region.look_parallel block.tag_agnostic) fun _ => block.writeTags_parallel _ _ _

theorem stampEnd_parallel : Parallel Region.Matches block.stampEnd :=
  .bind (Region.except_parallel _) fun _ => .bind (Region.except_parallel _) fun _ =>
    Region.writeWord_parallel _ _

theorem setReserved_parallel (reserved : Bool) :
    Parallel Region.Matches (block.setReserved reserved) :=
  .bind (Region.except_parallel _) fun _ =>
    .bind (Region.look_parallel (Region.readWord_agnostic _)) fun _ =>
      Region.writeWord_parallel _ _

theorem setLinks_parallel (links : Links) : Parallel Region.Matches (block.setLinks links) :=
  .bind (Region.writeWord_parallel _ _) fun _ => Region.writeWord_parallel _ _

end Changes

end Block

namespace Heap

structure Matches (left right : Heap) : Prop where
  region : left.region.Matches right.region
  heads : left.heads = right.heads
  policy : left.policy = right.policy
  prologue : left.prologue = right.prologue
  journal : left.journal = right.journal

theorem matches_blank {left right : Region} (same : left.Matches right) (policy : Policy) :
    (blank left policy).Matches (blank right policy) :=
  ⟨same, rfl, rfl, rfl, rfl⟩

/-! ## Steps of a lower layer -/

theorem change_parallel {change : RegionM α} (parallel : Parallel Region.Matches change) :
    Parallel Matches (liftM change : HeapM α) := by
  rintro ⟨left, _, _, _, _⟩ ⟨right, _, _, _, _⟩ ⟨same, rfl, rfl, rfl, rfl⟩
  have steps := parallel left right same
  simp only [liftM, monadLift, MonadLift.monadLift]
  generalize change left = leftOutcome, change right = rightOutcome at steps
  cases steps with
  | ok value after => exact .ok value ⟨after, rfl, rfl, rfl, rfl⟩
  | error fault after => exact .error fault ⟨after, rfl, rfl, rfl, rfl⟩

theorem look_parallel {look : ReadM α} (agnostic : ReadM.Agnostic look) :
    Parallel Matches (liftM look : HeapM α) :=
  change_parallel (Region.look_parallel agnostic)

theorem except_parallel (answer : Except Fault α) : Parallel Matches (liftM answer : HeapM α) :=
  look_parallel (.except answer)

theorem setHead_parallel (cls : SizeClass) (block : Option Block) :
    Parallel Matches (setHead cls block) := by
  apply Parallel.modify
  rintro left right ⟨same, heads, policy, prologue, journal⟩
  exact ⟨same, by rw [heads], policy, prologue, journal⟩

theorem report_parallel (event : Event) : Parallel Matches (report event) := by
  apply Parallel.modify
  rintro left right ⟨same, heads, policy, prologue, journal⟩
  exact ⟨same, heads, policy, prologue, by rw [journal]⟩

theorem require_parallel (condition : Bool) (fault : Fault) :
    Parallel Matches (require condition fault) :=
  .ite (.pure ()) (.throw fault)

/-! ## Free lists -/

theorem patience_agnostic : ReadM.Agnostic patience :=
  fun _ _ same => congrArg (fun size => Except.ok (size + 1)) same.size

theorem seat_agnostic (size patience : Nat) (previous next : Option Block) :
    ReadM.Agnostic (seat size patience previous next) := by
  induction patience generalizing previous next with
  | zero => exact .throw _
  | succ patience inductionHypothesis =>
      cases next with
      | none => exact .pure _
      | some current =>
          exact .bind current.size_agnostic fun _ => .ite (.pure _)
            (.bind current.links_agnostic fun _ => inductionHypothesis _ _)

theorem setPrevious_parallel (block : Block) (previous : Option Block) :
    Parallel Matches (liftM (block.setPrevious previous) : HeapM Unit) :=
  change_parallel (Region.writeWord_parallel _ _)

theorem setNext_parallel (block : Block) (next : Option Block) :
    Parallel Matches (liftM (block.setNext next) : HeapM Unit) :=
  change_parallel (Region.writeWord_parallel _ _)

/-- What comes before a place in a list, a block or the head, is made to lead elsewhere. -/
theorem linkOn_parallel (cls : SizeClass) (previous next : Option Block) :
    Parallel Matches (match previous with
      | some previous => (liftM (previous.setNext next) : HeapM Unit)
      | none => setHead cls next) := by
  cases previous with
  | none => exact setHead_parallel _ _
  | some previous => exact setNext_parallel _ _

theorem linkBack_parallel (previous next : Option Block) :
    Parallel Matches (match next with
      | some next => (liftM (next.setPrevious previous) : HeapM Unit)
      | _ => pure ()) := by
  cases next with
  | none => exact .pure ()
  | some next => exact setPrevious_parallel _ _

theorem file_parallel (block : Block) : Parallel Matches (file block) := by
  unfold file
  refine .bind (look_parallel block.size_agnostic) fun size => .get_bind ?_ fun heap => ?_
  · intro left right same
    rw [head, head, same.heads]
  · refine .bind (look_parallel patience_agnostic) fun steps =>
      .bind (look_parallel (seat_agnostic _ _ _ _)) fun links =>
        .bind (change_parallel (block.setLinks_parallel links)) fun _ => ?_
    have linked := linkOn_parallel (SizeClass.ofSize size) links.previous (some block)
    cases links.next with
    | none => exact linked
    | some next => exact .bind (setPrevious_parallel _ _) fun _ => linked

theorem unfile_parallel (block : Block) : Parallel Matches (unfile block) := by
  unfold unfile
  refine .bind (look_parallel block.size_agnostic) fun size =>
    .bind (look_parallel block.links_agnostic) fun links => ?_
  cases links.previous with
  | none => exact .bind (setHead_parallel _ _) fun _ => linkBack_parallel none links.next
  | some previous =>
      exact .bind (setNext_parallel _ _) fun _ => linkBack_parallel (some previous) links.next

theorem firstFit_agnostic (size patience : Nat) (next : Option Block) :
    ReadM.Agnostic (firstFit size patience next) := by
  induction patience generalizing next with
  | zero => exact .throw _
  | succ patience inductionHypothesis =>
      cases next with
      | none => exact .pure _
      | some current =>
          exact .bind current.tag_agnostic fun _ => .ite (.pure _)
            (.bind current.links_agnostic fun _ => inductionHypothesis _)

theorem searchIn_agnostic (heap : Heap) (size : Nat) (classes : List SizeClass) :
    ReadM.Agnostic (heap.searchIn size classes) := by
  induction classes with
  | nil => exact .pure _
  | cons cls classes inductionHypothesis =>
      unfold searchIn
      refine .bind patience_agnostic fun _ => .bind (firstFit_agnostic _ _ _) fun found => ?_
      cases found with
      | none => exact inductionHypothesis
      | some block => exact .pure _

theorem Matches.searchIn {left right : Heap} (same : left.Matches right) (size : Nat)
    (classes : List SizeClass) : left.searchIn size classes = right.searchIn size classes := by
  induction classes with
  | nil => rfl
  | cons cls classes inductionHypothesis =>
      rw [Heap.searchIn, Heap.searchIn, inductionHypothesis, head, head, same.heads]

theorem search_parallel (size : Nat) : Parallel Matches (search size) :=
  .get_bind (fun _ _ same => congrArg liftM (same.searchIn _ _)) fun heap =>
    look_parallel (heap.searchIn_agnostic _ _)

/-! ## Merging and growth -/

theorem absorb_parallel (patience : Nat) (cursor : Block) (sum : Nat) :
    Parallel Matches (absorb patience cursor sum) := by
  induction patience generalizing cursor sum with
  | zero => exact .throw _
  | succ patience inductionHypothesis =>
      refine .bind (look_parallel cursor.isAllocated_agnostic) fun _ => .ite (.pure _) ?_
      exact .bind (unfile_parallel cursor) fun _ =>
        .bind (look_parallel cursor.size_agnostic) fun _ =>
          .bind (look_parallel cursor.next_agnostic) fun _ =>
            .bind (except_parallel _) fun _ => inductionHypothesis _ _

theorem merge_parallel (block : Block) : Parallel Matches (merge block) := by
  unfold merge
  refine .bind (look_parallel block.previous_agnostic) fun front =>
    .bind (look_parallel front.tag_agnostic) fun frontTag =>
      .bind (look_parallel block.next_agnostic) fun next =>
        .bind (look_parallel next.isAllocated_agnostic) fun ends => .ite (.pure _) ?_
  have fused (start : Block) (before own : Nat) : Parallel Matches (do
      let size ← absorb (← patience) (← block.next) (← total before own)
      start.stamp size false
      file start
      report (.merged block.offset start.offset size)
      return start : HeapM Block) :=
    .bind (look_parallel patience_agnostic) fun _ =>
      .bind (look_parallel block.next_agnostic) fun _ => .bind (except_parallel _) fun _ =>
        .bind (absorb_parallel _ _ _) fun _ =>
          .bind (change_parallel (start.stamp_parallel _ _)) fun _ =>
            .bind (file_parallel start) fun _ => .bind (report_parallel _) fun _ => .pure start
  refine .bind (unfile_parallel block) fun _ => ?_
  cases !frontTag.allocated && !frontTag.reserved with
  | true =>
      exact .bind (unfile_parallel front) fun _ =>
        .bind (look_parallel block.size_agnostic) fun _ =>
          .bind (look_parallel front.size_agnostic) fun _ => fused _ _ _
  | false =>
      exact .bind (look_parallel block.size_agnostic) fun _ => fused _ _ _

theorem requestSpace_parallel (bytes : Nat) : Parallel Matches (requestSpace bytes).run := by
  unfold requestSpace
  refine .run_bind (.run_lift (change_parallel (Region.grow_parallel bytes))) fun answer => ?_
  cases answer with
  | ok start => exact .run_pure _
  | error refusal => exact .run_bind (.run_lift (report_parallel _)) fun _ => .run_throw _

theorem extend_parallel (bytes : Nat) : Parallel Matches (extend bytes).run := by
  unfold extend
  refine .run_get_bind (fun left right same => by rw [same.region.size]) fun heap => ?_
  refine .run_ite (.run_throw _) (.run_bind (requestSpace_parallel _) fun start => ?_)
  refine .run_get_bind (fun left right same => by rw [same.region.size]) fun grown => ?_
  refine .run_bind (.run_lift (require_parallel _ _)) fun _ =>
    .run_bind (.run_lift (except_parallel _)) fun block =>
      .run_bind (.run_lift (change_parallel (block.writeTags_parallel _ _ _))) fun _ =>
        .run_bind (.run_lift (look_parallel block.next_agnostic)) fun next =>
          .run_bind (.run_lift (change_parallel next.stampEnd_parallel)) fun _ =>
            .run_bind (.run_lift (file_parallel block)) fun _ => ?_
  refine .run_get_bind (fun left right same => by rw [same.region.size]) fun filed => ?_
  exact .run_bind (.run_lift (report_parallel _)) fun _ => .run_lift (merge_parallel block)

theorem establish_parallel : Parallel Matches establish.run := by
  unfold establish
  refine .run_bind (requestSpace_parallel _) fun start =>
    .run_bind (.run_lift (change_parallel (Region.writeWord_parallel _ _))) fun _ =>
      .run_bind (.run_lift (except_parallel _)) fun prologue =>
        .run_bind (.run_lift (change_parallel (prologue.writeTags_parallel _ _ _))) fun _ =>
          .run_bind (.run_lift (look_parallel prologue.next_agnostic)) fun next =>
            .run_bind (.run_lift (change_parallel next.stampEnd_parallel)) fun _ => ?_
  refine .run_bind (.run_lift (.modify ?_)) fun _ => ?_
  · rintro left right ⟨same, heads, policy, -, journal⟩
    exact ⟨same, heads, policy, rfl, journal⟩
  refine .run_get_bind (fun left right same => by rw [same.policy]) fun founded => ?_
  refine .run_bind (extend_parallel _) fun _ => ?_
  exact .run_get_bind (fun left right same => by rw [same.region.size]) fun _ =>
    .run_lift (report_parallel _)

theorem create_parallel (policy : Policy) : Parallel Matches (create policy).run := by
  unfold create
  cases policy.defect? with
  | some defect => exact .run_throw _
  | none => exact establish_parallel

/-! ## Requests -/

theorem carve_parallel (block : Block) (size : Nat) : Parallel Matches (carve block size) := by
  unfold carve
  refine .bind (look_parallel block.size_agnostic) fun whole =>
    .bind (require_parallel _ _) fun _ => .bind (unfile_parallel block) fun _ => .ite ?_ ?_
  · exact .bind (change_parallel (block.stamp_parallel _ _)) fun _ =>
      .bind (look_parallel block.next_agnostic) fun rest =>
        .bind (change_parallel (rest.writeTags_parallel _ _ _)) fun _ => file_parallel rest
  · exact change_parallel (block.stamp_parallel _ _)

theorem allocateBlock_parallel (size : Nat) : Parallel Matches (allocateBlock size).run := by
  unfold allocateBlock
  have carved (block : Block) : Parallel Matches (do
      carve block size
      return block : AllocM Block).run :=
    .run_bind (.run_lift (carve_parallel block size)) fun _ => .run_pure block
  refine .run_bind (.run_lift (search_parallel size)) fun found => ?_
  cases found with
  | some block => exact carved block
  | none =>
      refine .run_get_bind (fun left right same => by rw [same.policy]) fun heap => ?_
      exact .run_bind (extend_parallel _) fun block => carved block

theorem allocate_parallel (request : Nat) : Parallel Matches (allocate request).run := by
  unfold allocate
  exact .run_ite (.run_pure _) (.run_bind (.run_answer _) fun size =>
    .run_bind (allocateBlock_parallel size) fun _ =>
      .run_bind (.run_lift (report_parallel _)) fun _ => .run_pure _)

theorem releaseBlock_parallel (handle : Handle) : Parallel Matches (releaseBlock handle) := by
  unfold releaseBlock
  refine .bind (except_parallel _) fun block =>
    .bind (look_parallel block.isAllocated_agnostic) fun _ => .bind (require_parallel _ _) fun _ =>
      .bind (look_parallel block.size_agnostic) fun _ =>
        .bind (change_parallel (block.stamp_parallel _ _)) fun _ => ?_
  exact .bind (look_parallel block.next_agnostic) fun next =>
    .bind (change_parallel (next.setReserved_parallel _)) fun _ =>
      .bind (file_parallel block) fun _ => .bind (report_parallel _) fun _ =>
        .bind (merge_parallel block) fun _ => .pure ()

theorem release_parallel (handle : Option Handle) : Parallel Matches (release handle) := by
  cases handle with
  | none => exact .pure ()
  | some handle => exact releaseBlock_parallel handle

theorem freeRun_agnostic (patience : Nat) (cursor : Block) (size : Nat) :
    ReadM.Agnostic (freeRun patience cursor size) := by
  induction patience generalizing cursor size with
  | zero => exact .throw _
  | succ patience inductionHypothesis =>
      exact .bind cursor.tag_agnostic fun _ => .ite (.pure _)
        (.bind cursor.next_agnostic fun _ => .bind (.except _) fun _ => inductionHypothesis _ _)

theorem freeRunBehind_agnostic (block : Block) : ReadM.Agnostic (freeRunBehind block) :=
  .bind patience_agnostic fun _ => .bind block.next_agnostic fun _ => freeRun_agnostic _ _ _

theorem unfileUpTo_parallel (last : Block) (patience : Nat) (cursor : Block) :
    Parallel Matches (unfileUpTo last patience cursor) := by
  induction patience generalizing cursor with
  | zero => exact .throw _
  | succ patience inductionHypothesis =>
      exact .ite (.pure ()) (.bind (look_parallel cursor.next_agnostic) fun _ =>
        .bind (unfile_parallel cursor) fun _ => inductionHypothesis _)

theorem takeRun_parallel (block : Block) (current : Nat) (run : FreeRun) :
    Parallel Matches (takeRun block current run) :=
  .bind (look_parallel patience_agnostic) fun _ =>
    .bind (look_parallel block.next_agnostic) fun _ =>
      .bind (unfileUpTo_parallel _ _ _) fun _ => .bind (except_parallel _) fun _ =>
        change_parallel (block.writeTags_parallel _ _ _)

theorem growInPlace_parallel (block : Block) (target : Nat) :
    Parallel Matches (growInPlace block target).run := by
  unfold growInPlace
  have taken (current : Nat) (run : FreeRun) : Parallel Matches (do
      takeRun block current run
      return true : AllocM Bool).run :=
    .run_bind (.run_lift (takeRun_parallel block current run)) fun _ => .run_pure true
  refine .run_bind (.run_lift (look_parallel block.size_agnostic)) fun current =>
    .run_bind (.run_lift (look_parallel (freeRunBehind_agnostic block))) fun run =>
      .run_bind (.run_lift (except_parallel _)) fun _ => .run_ite (taken current run) ?_
  refine .run_bind (.run_lift (look_parallel run.last.size_agnostic)) fun _ =>
    .run_ite (.run_pure false) ?_
  refine .run_get_bind (fun left right same => by rw [same.policy]) fun heap => ?_
  refine .run_bind (extend_parallel _) fun _ =>
    .run_bind (.run_lift (look_parallel (freeRunBehind_agnostic block))) fun longer =>
      .run_bind (.run_lift (except_parallel _)) fun _ => ?_
  exact .run_ite (taken current longer) (.run_pure false)

theorem move_parallel (handle : Handle) (current target request : Nat) :
    Parallel Matches (move handle current target request).run :=
  .run_bind (allocateBlock_parallel target) fun fresh =>
    .run_bind (.run_lift (except_parallel _)) fun _ =>
      .run_bind (.run_lift (change_parallel (Region.copy_parallel _ _ _))) fun _ =>
        .run_bind (.run_lift (releaseBlock_parallel handle)) fun _ =>
          .run_bind (.run_lift (report_parallel _)) fun _ => .run_pure fresh

theorem enlarge_parallel (handle : Handle) (block : Block) (current target request : Nat) :
    Parallel Matches (enlarge handle block current target request).run := by
  unfold enlarge
  exact .run_bind (growInPlace_parallel block target) fun _ =>
    .run_ite (.run_bind (.run_lift (report_parallel _)) fun _ => .run_pure block)
      (move_parallel handle current target request)

theorem reserveBehind_parallel (block : Block) (target : Nat) :
    Parallel Matches (reserveBehind block target) := by
  unfold reserveBehind
  refine .bind (look_parallel block.size_agnostic) fun _ =>
    .get_bind (fun left right same => by rw [same.policy]) fun heap => .ite ?_ (.pure ())
  exact .bind (look_parallel block.next_agnostic) fun next =>
    change_parallel (next.setReserved_parallel true)

theorem resizeBlock_parallel (handle : Handle) (request : Nat) :
    Parallel Matches (resizeBlock handle request).run := by
  unfold resizeBlock
  refine .run_bind (.run_answer _) fun needed =>
    .run_get_bind (fun left right same => by rw [same.policy]) fun heap =>
      .run_ite (.run_throw _) ?_
  have finished (target : Nat) (result : Block) : Parallel Matches (do
      reserveBehind result target
      report (.resized handle.offset request result.offset)
      return result : AllocM Block).run :=
    .run_bind (.run_lift (reserveBehind_parallel result target)) fun _ =>
      .run_bind (.run_lift (report_parallel _)) fun _ => .run_pure result
  refine .run_bind (.run_lift (except_parallel _)) fun block =>
    .run_bind (.run_lift (look_parallel block.size_agnostic)) fun current => .run_ite ?_ ?_
  · exact finished _ block
  · exact .run_bind (enlarge_parallel _ _ _ _ _) fun result => finished _ result

theorem resize_parallel (handle : Option Handle) (request : Nat) :
    Parallel Matches (resize handle request).run := by
  unfold resize
  cases handle with
  | none => exact allocate_parallel request
  | some handle =>
      exact .run_ite (.run_bind (.run_lift (releaseBlock_parallel handle)) fun _ => .run_pure _)
        (.run_bind (resizeBlock_parallel handle request) fun _ => .run_pure _)

/-! ## Payloads and views -/

theorem usable_agnostic (handle : Handle) : ReadM.Agnostic (usable handle) :=
  .bind (.except _) fun block => .bind block.size_agnostic fun _ => .except _

theorem extent_agnostic (handle : Handle) : ReadM.Agnostic (extent handle) := by
  unfold extent
  refine .bind (usable_agnostic handle) fun _ =>
    .region_bind (fun left right same => by rw [same.size]) fun _ => ?_
  exact .check (.pure _)

theorem readPayload_agnostic (handle : Handle) (start count : Nat) :
    ReadM.Agnostic (readPayload handle start count) := by
  unfold readPayload
  refine .bind (extent_agnostic handle) fun _ =>
    .region_bind (fun left right same => ?_) fun _ => ?_
  · rw [same.extract]
  · exact .pure _

theorem writePayload_parallel (handle : Handle) (start : Nat) (values : ByteArray) :
    Parallel Matches (liftM (writePayload handle start values) : HeapM Nat) := by
  unfold writePayload
  exact change_parallel (.bind (Region.look_parallel (extent_agnostic handle)) fun _ =>
    .bind (.modify fun _ _ same => same.store _ _) fun _ => .pure _)

theorem surveyFrom_agnostic (count : Nat) (cursor : Block) (seen : Array BlockInfo) :
    ReadM.Agnostic (surveyFrom count cursor seen) := by
  induction count generalizing cursor seen with
  | zero => exact .pure _
  | succ count inductionHypothesis =>
      exact .bind cursor.tag_agnostic fun _ => .ite (.pure _) (inductionHypothesis _ _)

theorem membersFrom_agnostic (count : Nat) (next : Option Block) (seen : Array Block) :
    ReadM.Agnostic (membersFrom count next seen) := by
  induction count generalizing next seen with
  | zero => exact .pure _
  | succ count inductionHypothesis =>
      cases next with
      | none => exact .pure _
      | some current => exact .bind current.links_agnostic fun _ => inductionHypothesis _ _

namespace Matches

variable {left right : Heap} (same : left.Matches right)

include same

theorem firstBlocks (count : Nat) : left.firstBlocks count = right.firstBlocks count := by
  have first := left.prologue.next_agnostic _ _ same.region
  rw [Heap.firstBlocks, Heap.firstBlocks, ← same.prologue, first]
  simp only [surveyFrom_agnostic _ _ _ _ _ same.region]

theorem blocks : left.blocks = right.blocks := by
  rw [Heap.blocks, Heap.blocks, same.region.size, same.firstBlocks]

theorem firstMembers (cls : SizeClass) (count : Nat) :
    left.firstMembers cls count = right.firstMembers cls count := by
  rw [Heap.firstMembers, Heap.firstMembers, head, head, same.heads,
    membersFrom_agnostic _ _ _ _ _ same.region]

theorem members (cls : SizeClass) : left.members cls = right.members cls := by
  rw [Heap.members, Heap.members, same.region.size, same.firstMembers]

theorem occupancy : left.occupancy = right.occupancy := by
  rw [Heap.occupancy, Heap.occupancy, same.region.size, same.blocks]

theorem describe : left.describe = right.describe := by
  simp only [Heap.describe, same.blocks, same.members, same.region.size, same.prologue]

end Matches

/-! ## The audit -/

theorem auditBlock_agnostic (before : Option Walked) (cursor : Block) (tag : Tag) :
    ReadM.Agnostic (auditBlock before cursor tag).run := by
  unfold auditBlock
  refine .run_check (.run_check ?_)
  refine .run_region_bind (fun left right same => by rw [same.size]) fun _ => .run_check ?_
  refine .run_bind (.run_lift cursor.footerTag_agnostic) fun _ => .run_check ?_
  cases before with
  | none => exact .run_pure ()
  | some walked => exact .run_ite (.run_throw _) (.run_pure ())

theorem auditChain_agnostic (patience : Nat) (cursor : Block) (walked : Array Walked) :
    ReadM.Agnostic (auditChain patience cursor walked).run := by
  induction patience generalizing cursor walked with
  | zero => exact fun _ _ _ => rfl
  | succ patience inductionHypothesis =>
      unfold auditChain
      refine .run_region_bind (fun left right same => by rw [same.size]) fun _ => .run_check ?_
      refine .run_bind (.run_lift cursor.tag_agnostic) fun _ => .run_ite ?_ ?_
      · exact .run_check (.run_pure _)
      · exact .run_bind (auditBlock_agnostic _ _ _) fun _ => inductionHypothesis _ _

theorem auditList_agnostic (cls : SizeClass) (known : List Block) (patience : Nat)
    (previous : Option Block) (least : Nat) (next : Option Block) (listed : List Block) :
    ReadM.Agnostic (auditList cls known patience previous least next listed).run := by
  induction patience generalizing previous least next listed with
  | zero => exact fun _ _ _ => rfl
  | succ patience inductionHypothesis =>
      cases next with
      | none => exact .run_pure _
      | some current =>
          unfold auditList
          refine .run_check (.run_check ?_)
          refine .run_bind (.run_lift current.tag_agnostic) fun _ =>
            .run_check (.run_check (.run_check ?_))
          exact .run_bind (.run_lift current.links_agnostic) fun _ =>
            .run_check (inductionHypothesis _ _ _ _)

theorem auditLists_agnostic (heap : Heap) (known : List Block) (classes : List SizeClass)
    (listed : List Block) : ReadM.Agnostic (heap.auditLists known classes listed).run := by
  induction classes generalizing listed with
  | nil => exact .run_pure _
  | cons cls classes inductionHypothesis =>
      exact .run_bind (auditList_agnostic _ _ _ _ _ _ _) fun _ => inductionHypothesis _

theorem auditAll_agnostic (heap : Heap) : ReadM.Agnostic heap.auditAll.run := by
  unfold auditAll
  refine .run_bind (.run_lift heap.prologue.tag_agnostic) fun _ => .run_check ?_
  refine .run_bind (.run_lift heap.prologue.footerTag_agnostic) fun _ => .run_check ?_
  refine .run_bind (.run_lift patience_agnostic) fun _ =>
    .run_bind (.run_lift heap.prologue.next_agnostic) fun _ =>
      .run_bind (auditChain_agnostic _ _ _) fun walked =>
        .run_bind (auditLists_agnostic _ _ _ _) fun listed => ?_
  generalize walked.toList.find? (fun found => !found.tag.allocated && found.block ∉ listed) =
    unlisted
  cases unlisted with
  | none => exact .run_pure ()
  | some found => exact .run_throw _

namespace Matches

variable {left right : Heap} (same : left.Matches right)

include same

theorem auditLists (known : List Block) (classes : List SizeClass) (listed : List Block) :
    left.auditLists known classes listed = right.auditLists known classes listed := by
  induction classes generalizing listed with
  | nil => rfl
  | cons cls classes inductionHypothesis =>
      simp only [Heap.auditLists, inductionHypothesis, head, same.heads]

theorem auditAll : left.auditAll = right.auditAll := by
  simp only [Heap.auditAll, same.prologue, same.auditLists]

theorem audit : left.audit = right.audit := by
  have found : left.auditAll.run left.region = right.auditAll.run right.region := by
    rw [same.auditAll]
    exact right.auditAll_agnostic _ _ same.region
  rw [Heap.audit, Heap.audit, found]

end Matches

end Heap

end TaggedHeap
