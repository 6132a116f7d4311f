import Mathlib.Data.List.Sort
import TaggedHeap.Heap.FreeList
import TaggedHeap.Proofs.FreeList.Linked
import TaggedHeap.Proofs.Heap.Execution

/-!
Contract: free lists as lists, and how a heap stores them.

`FreeLists` holds the members of every size class in list order. `Orderly` is what the lists
promise on their own: free members of the right class, sorted by size, none twice, none
overlapping. `Stored` is how a region and the heads of its lists represent them. Filing and
unfiling a block are the insertion in front of the first member that is not smaller and the
removal of one member.
-/

namespace TaggedHeap

/-- The members of each size class, in list order. -/
abbrev FreeLists :=
  SizeClass → List BlockInfo

namespace BlockInfo

def NoLarger (info other : BlockInfo) : Prop :=
  info.size ≤ other.size

instance : DecidableRel NoLarger := fun info other =>
  inferInstanceAs (Decidable (info.size ≤ other.size))

instance : Std.Total NoLarger where
  total info other := Nat.le_total info.size other.size

instance : IsTrans BlockInfo NoLarger where
  trans _ _ _ := Nat.le_trans

def cls (info : BlockInfo) : SizeClass :=
  SizeClass.ofSize info.size

/-- The place of a block in a list: behind the smaller members, in front of the first one that is
not smaller. -/
structure Seated (info : BlockInfo) (front back : List BlockInfo) : Prop where
  behind : ∀ other ∈ front, other.size < info.size
  before : ∀ other ∈ back.head?, info.size ≤ other.size

theorem exists_seated (info : BlockInfo) (members : List BlockInfo) :
    ∃ front back, members = front ++ back ∧ info.Seated front back := by
  induction members with
  | nil => exact ⟨[], [], rfl, nofun, nofun⟩
  | cons member rest inductionHypothesis =>
      by_cases smaller : member.size < info.size
      · obtain ⟨front, back, rfl, seated⟩ := inductionHypothesis
        exact ⟨member :: front, back, rfl, List.forall_mem_cons.2 ⟨smaller, seated.behind⟩,
          seated.before⟩
      · refine ⟨[], member :: rest, rfl, nofun, ?_⟩
        rintro other ⟨⟩
        exact Nat.le_of_not_lt smaller

/-- In order of size, a block is inserted at its place. -/
theorem Seated.orderedInsert_eq {info : BlockInfo} {front back : List BlockInfo}
    (seated : info.Seated front back) :
    (front ++ back).orderedInsert NoLarger info = front ++ info :: back := by
  induction front with
  | nil =>
      cases back with
      | nil => rfl
      | cons other rest => exact List.orderedInsert_cons_of_le _ _ (seated.before other rfl)
  | cons member rest inductionHypothesis =>
      obtain ⟨smaller, others⟩ := List.forall_mem_cons.1 seated.behind
      have larger : ¬info.NoLarger member := Nat.not_le.2 smaller
      rw [List.cons_append, List.orderedInsert_of_not_le _ _ larger,
        inductionHypothesis ⟨others, seated.before⟩, List.cons_append]

end BlockInfo

/-- A block whose header says what its description says, with all its words in the region. -/
structure Region.Resident (region : Region) (info : BlockInfo) : Prop where
  above : 4 ≤ info.offset
  wide : 16 ≤ info.size
  inside : info.offset + info.size ≤ region.size + 4
  encodable : info.offset < 4294967296
  header : region.headerTag info.offset = info.tag

namespace Region.Resident

variable {region after : Region} {info other : BlockInfo}

theorem placed (resident : region.Resident info) : region.Placed info.block where
  positive := Nat.lt_of_lt_of_le (by decide) resident.above
  inside := by
    have wide := resident.wide
    have inside := resident.inside
    simp only [BlockInfo.offset_block]
    omega
  encodable := resident.encodable

theorem tag_eq (resident : region.Resident info) : info.block.tag region = .ok info.tag := by
  have wide := resident.wide
  have inside := resident.inside
  exact Block.tag_of_header resident.header resident.above (by omega)

theorem links_eq (resident : region.Resident info) (free : info.allocated = false) :
    info.block.links region = .ok (region.linksAt info.block) :=
  Block.links_of_tag resident.tag_eq free resident.placed.inside

theorem congr (resident : region.Resident info) (size : region.size ≤ after.size)
    (same : ∀ index, info.offset ≤ index + 4 → index < info.offset →
      after.byte index = region.byte index) : after.Resident info where
  above := resident.above
  wide := resident.wide
  inside := Nat.le_trans resident.inside (Nat.add_le_add_right size 4)
  encodable := resident.encodable
  header := (Region.headerTag_congr resident.above same).trans resident.header

theorem spaced_of_apart (resident : region.Resident info) (otherResident : region.Resident other)
    (apart : info.Apart other) : info.block.Spaced other.block := by
  have separated := apart.separated
  have wide := resident.wide
  have otherWide := otherResident.wide
  right
  simp only [BlockInfo.offset_block]
  omega

theorem block_ne_of_apart (resident : region.Resident info) (otherResident : region.Resident other)
    (apart : info.Apart other) : info.block ≠ other.block := by
  intro same
  have sameOffset : info.offset = other.offset := congrArg Block.offset same
  have separated := apart.separated
  have wide := resident.wide
  have otherWide := otherResident.wide
  omega

end Region.Resident

namespace FreeLists

/-- The lists less some of their members. -/
def without (lists : FreeLists) (removed : List BlockInfo) : FreeLists :=
  fun cls => (lists cls).filter (· ∉ removed)

/-- The lists with one more member, in front of those of its class that are not smaller. -/
def filed (lists : FreeLists) (info : BlockInfo) : FreeLists :=
  fun cls =>
    if cls = info.cls then (lists cls).orderedInsert BlockInfo.NoLarger info else lists cls

structure Orderly (lists : FreeLists) : Prop where
  free : ∀ {cls info}, info ∈ lists cls → info.allocated = false
  classed : ∀ {cls info}, info ∈ lists cls → info.cls = cls
  sorted : ∀ cls, (lists cls).Pairwise BlockInfo.NoLarger
  distinct : ∀ cls, (lists cls).Nodup
  apart : ∀ {cls otherCls info other}, info ∈ lists cls → other ∈ lists otherCls →
    info = other ∨ info.Apart other

/-- A region and the heads of its lists represent the lists. -/
structure Stored (region : Region) (heads : Vector (Option Block) 20) (lists : FreeLists) :
    Prop where
  resident : ∀ {cls info}, info ∈ lists cls → region.Resident info
  first : ∀ cls, heads.get cls = firstOr (lists cls) none
  linked : ∀ cls, Linked region none (lists cls) none

variable {lists : FreeLists} {region : Region} {heads : Vector (Option Block) 20}
  {info other : BlockInfo} {cls : SizeClass}

/-! ## Removal and insertion -/

theorem mem_without {removed : List BlockInfo} :
    info ∈ lists.without removed cls ↔ info ∈ lists cls ∧ info ∉ removed := by
  rw [without, List.mem_filter, decide_eq_true_iff]

theorem mem_filed : other ∈ lists.filed info cls ↔
    other ∈ lists cls ∨ other = info ∧ cls = info.cls := by
  rw [filed]
  split
  · rename_i own
    rw [List.mem_orderedInsert]
    tauto
  · rename_i foreign
    tauto

theorem without_without (lists : FreeLists) (first second : List BlockInfo) :
    (lists.without first).without second = lists.without (first ++ second) := by
  funext cls
  simp only [without, List.filter_filter, List.mem_append, not_or, Bool.decide_and]
  exact List.filter_congr fun info _ => Bool.and_comm ..

theorem without_congr (lists : FreeLists) {removed others : List BlockInfo}
    (same : ∀ info, info ∈ removed ↔ info ∈ others) :
    lists.without removed = lists.without others := by
  funext cls
  simp only [without, same]

theorem without_nil (lists : FreeLists) : lists.without [] = lists := by
  funext cls
  simp [without]

theorem without_eq_self {removed : List BlockInfo}
    (absent : ∀ info ∈ removed, info ∉ lists cls) : lists.without removed cls = lists cls := by
  rw [without, List.filter_eq_self]
  intro other member
  exact decide_eq_true fun inRemoved => absent other inRemoved member

theorem Orderly.without_of_ne (orderly : lists.Orderly) (foreign : cls ≠ info.cls) :
    lists.without [info] cls = lists cls := by
  apply without_eq_self
  intro other isInfo member
  rw [List.mem_singleton.1 isInfo] at member
  exact foreign (orderly.classed member).symm

theorem without_of_split {front back : List BlockInfo} (distinct : (lists cls).Nodup)
    (split : lists cls = front ++ info :: back) : lists.without [info] cls = front ++ back := by
  rw [split, List.nodup_middle, List.nodup_cons, List.mem_append, not_or] at distinct
  obtain ⟨⟨notFront, notBack⟩, -⟩ := distinct
  have kept : ∀ part : List BlockInfo, info ∉ part →
      part.filter (fun other => decide (other ∉ [info])) = part := by
    intro part absent
    rw [List.filter_eq_self]
    intro other member
    exact decide_eq_true fun same => absent (List.mem_singleton.1 same ▸ member)
  rw [without, split, List.filter_append, kept front notFront,
    List.filter_cons_of_neg (by simp), kept back notBack]

theorem filed_of_ne (foreign : cls ≠ info.cls) : lists.filed info cls = lists cls :=
  if_neg foreign

theorem filed_of_seated {front back : List BlockInfo} (split : lists info.cls = front ++ back)
    (seated : info.Seated front back) : lists.filed info info.cls = front ++ info :: back := by
  rw [filed, if_pos rfl, split, seated.orderedInsert_eq]

theorem Orderly.without (orderly : lists.Orderly) (removed : List BlockInfo) :
    (lists.without removed).Orderly where
  free member := orderly.free (mem_without.1 member).1
  classed member := orderly.classed (mem_without.1 member).1
  sorted cls := (orderly.sorted cls).filter _
  distinct cls := (orderly.distinct cls).filter _
  apart member otherMember :=
    orderly.apart (mem_without.1 member).1 (mem_without.1 otherMember).1

theorem Orderly.apart_filed (orderly : lists.Orderly)
    (apart : ∀ {cls other}, other ∈ lists cls → info.Apart other) {otherCls : SizeClass}
    {first second : BlockInfo} (firstMember : first ∈ lists.filed info cls)
    (secondMember : second ∈ lists.filed info otherCls) : first = second ∨ first.Apart second := by
  rcases mem_filed.1 firstMember with firstOld | ⟨rfl, -⟩ <;>
    rcases mem_filed.1 secondMember with secondOld | ⟨rfl, -⟩
  · exact orderly.apart firstOld secondOld
  · exact .inr (apart firstOld).symm
  · exact .inr (apart secondOld)
  · exact .inl rfl

theorem Orderly.filed (orderly : lists.Orderly) (free : info.allocated = false)
    (fresh : ∀ cls, info ∉ lists cls)
    (apart : ∀ {cls other}, other ∈ lists cls → info.Apart other) :
    (lists.filed info).Orderly where
  free member := by
    rcases mem_filed.1 member with old | ⟨rfl, -⟩
    · exact orderly.free old
    · exact free
  classed member := by
    rcases mem_filed.1 member with old | ⟨rfl, own⟩
    · exact orderly.classed old
    · exact own.symm
  sorted cls := by
    rw [FreeLists.filed]
    split
    · exact (orderly.sorted cls).orderedInsert info _
    · exact orderly.sorted cls
  distinct cls := by
    rw [FreeLists.filed]
    split
    · rw [(List.perm_orderedInsert _ info (lists cls)).nodup_iff]
      exact List.nodup_cons.2 ⟨fresh cls, orderly.distinct cls⟩
    · exact orderly.distinct cls
  apart := orderly.apart_filed apart

/-! ## Members of stored lists -/

theorem Stored.eq_of_block (stored : Stored region heads lists) (orderly : lists.Orderly)
    {otherCls : SizeClass} (member : info ∈ lists cls) (otherMember : other ∈ lists otherCls)
    (same : info.block = other.block) : info = other := by
  rcases orderly.apart member otherMember with equal | apart
  · exact equal
  · exact absurd same
      ((stored.resident member).block_ne_of_apart (stored.resident otherMember) apart)

theorem Stored.spaced (stored : Stored region heads lists) (orderly : lists.Orderly)
    {otherCls : SizeClass} (member : info ∈ lists cls) (otherMember : other ∈ lists otherCls) :
    info.block.Spaced other.block := by
  rcases orderly.apart member otherMember with rfl | apart
  · exact .inl rfl
  · exact (stored.resident member).spaced_of_apart (stored.resident otherMember) apart

theorem Stored.distinct_blocks (stored : Stored region heads lists) (orderly : lists.Orderly)
    {part : List BlockInfo} (subset : ∀ info ∈ part, info ∈ lists cls) (distinct : part.Nodup) :
    (part.map BlockInfo.block).Nodup :=
  distinct.map_on fun info member other otherMember same =>
    stored.eq_of_block orderly (subset info member) (subset other otherMember) same

/-- A region that agrees on the headers and the links of the members stores them too. -/
theorem Stored.congr {after : Region} (stored : Stored region heads lists)
    (size : region.size ≤ after.size)
    (same : ∀ cls info, info ∈ lists cls → ∀ index, info.offset ≤ index + 4 →
      index < info.offset + 8 → after.byte index = region.byte index) :
    Stored after heads lists where
  resident member := (stored.resident member).congr size fun index lower upper =>
    same _ _ member index lower (by omega)
  first := stored.first
  linked cls := (stored.linked cls).congr fun info member =>
    Region.linksAt_congr fun index lower upper =>
      same _ _ member index (Nat.le_trans lower (Nat.le_add_right ..)) upper

/-- There are fewer members than bytes. -/
theorem Stored.length_le (stored : Stored region heads lists) (orderly : lists.Orderly)
    (cls : SizeClass) : (lists cls).length ≤ region.size := by
  have distinct : ((lists cls).map BlockInfo.offset).Nodup :=
    (orderly.distinct cls).map_on fun info member other otherMember same =>
      stored.eq_of_block orderly member otherMember (congrArg Block.mk same)
  have bounded : ((lists cls).map BlockInfo.offset) ⊆ List.range region.size := by
    intro offset member
    obtain ⟨info, inList, rfl⟩ := List.mem_map.1 member
    have inside := (stored.resident inList).placed.inside
    have offsetIs : info.block.offset = info.offset := rfl
    exact List.mem_range.2 (by omega)
  have counted := (List.subperm_of_subset distinct bounded).length_le
  rwa [List.length_map, List.length_range] at counted

/-- The links of no member reach the byte at `index`. -/
def Unlinked (lists : FreeLists) (index : Nat) : Prop :=
  ∀ cls info, info ∈ lists cls → index < info.offset ∨ info.offset + 8 ≤ index

/-- No links reach into the header of a block that is a member or apart from the members. -/
theorem unlinked_header (wide : ∀ {cls other}, other ∈ lists cls → 16 ≤ other.size)
    (apart : ∀ {cls other}, other ∈ lists cls → info = other ∨ info.Apart other) {index : Nat}
    (lower : info.offset ≤ index + 4) (upper : index < info.offset) : lists.Unlinked index := by
  intro cls other member
  rcases apart member with rfl | separate
  · exact .inl upper
  · have otherWide := wide member
    have separated := separate.separated
    omega

end FreeLists

end TaggedHeap
