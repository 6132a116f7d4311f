import TaggedHeap.Proofs.Block.Extent

/-!
Contract: doubly linked lists of blocks, as a relation between a region and a list.

`Linked region previous members next` says that the links of `members` name their neighbours,
with `previous` in front of the first and `next` behind the last. A list is the concatenation
of its parts, so an edit in its middle is an edit at the end of one part and at the beginning
of the other: `Linked.linkOn` and `Linked.linkBack` are these two edits.
-/

namespace TaggedHeap

/-- The first of some blocks, or `next` if there is none. -/
def firstOr : List BlockInfo → Option Block → Option Block
  | [], next => next
  | info :: _, _ => some info.block

/-- The last of some blocks, or `previous` if there is none. -/
def lastOr : List BlockInfo → Option Block → Option Block
  | [], previous => previous
  | info :: rest, _ => lastOr rest (some info.block)

theorem firstOr_append (front back : List BlockInfo) (next : Option Block) :
    firstOr (front ++ back) next = firstOr front (firstOr back next) := by
  cases front <;> rfl

theorem lastOr_append (front back : List BlockInfo) (previous : Option Block) :
    lastOr (front ++ back) previous = lastOr back (lastOr front previous) := by
  induction front generalizing previous with
  | nil => rfl
  | cons info rest inductionHypothesis => exact inductionHypothesis (some info.block)

theorem mem_of_firstOr {members : List BlockInfo} {block : Block}
    (first : firstOr members none = some block) : ∃ info ∈ members, info.block = block := by
  cases members with
  | nil => cases first
  | cons info rest => exact ⟨info, List.mem_cons_self, Option.some.inj first⟩

theorem mem_of_lastOr {members : List BlockInfo} {block : Block}
    (last : lastOr members none = some block) : ∃ info ∈ members, info.block = block := by
  obtain rfl | ⟨front, info, rfl⟩ := members.eq_nil_or_concat
  · cases last
  · rw [List.concat_eq_append, lastOr_append] at last
    exact ⟨info, by simp, Option.some.inj last⟩

theorem firstOr_ne {members : List BlockInfo} {block : Block}
    (absent : ∀ info ∈ members, info.block ≠ block) : firstOr members none ≠ some block := by
  intro first
  obtain ⟨info, member, same⟩ := mem_of_firstOr first
  exact absent info member same

theorem lastOr_ne {members : List BlockInfo} {block : Block}
    (absent : ∀ info ∈ members, info.block ≠ block) : lastOr members none ≠ some block := by
  intro last
  obtain ⟨info, member, same⟩ := mem_of_lastOr last
  exact absent info member same

/-- The links of `members` name their neighbours. -/
def Linked (region : Region) : Option Block → List BlockInfo → Option Block → Prop
  | _, [], _ => True
  | previous, info :: rest, next =>
      region.linksAt info.block = ⟨previous, firstOr rest next⟩ ∧
        Linked region (some info.block) rest next

theorem linked_append {region : Region} {previous next : Option Block}
    {front back : List BlockInfo} :
    Linked region previous (front ++ back) next ↔
      Linked region previous front (firstOr back next) ∧
        Linked region (lastOr front previous) back next := by
  induction front generalizing previous with
  | nil => exact ⟨fun linked => ⟨trivial, linked⟩, And.right⟩
  | cons info rest inductionHypothesis =>
      simp only [List.cons_append, Linked, lastOr, firstOr_append, inductionHypothesis, and_assoc]

theorem Linked.congr {region after : Region} {members : List BlockInfo}
    {previous next : Option Block} (linked : Linked region previous members next)
    (same : ∀ info ∈ members, after.linksAt info.block = region.linksAt info.block) :
    Linked after previous members next := by
  induction members generalizing previous with
  | nil => trivial
  | cons info rest inductionHypothesis =>
      refine ⟨(same info List.mem_cons_self).trans linked.1, ?_⟩
      exact inductionHypothesis linked.2 fun other member =>
        same other (List.mem_cons_of_mem _ member)

theorem Linked.links_of_mem {region : Region} {front back : List BlockInfo} {info : BlockInfo}
    {previous next : Option Block}
    (linked : Linked region previous (front ++ info :: back) next) :
    region.linksAt info.block = ⟨lastOr front previous, firstOr back next⟩ :=
  (linked_append.1 linked).2.1

/-- The links of the two blocks share no byte, unless the blocks are one. -/
def Block.Spaced (block other : Block) : Prop :=
  block = other ∨ block.offset + 8 ≤ other.offset ∨ other.offset + 8 ≤ block.offset

namespace Region

/-- Lets `place`, if there is such a block, name `target` as the one in front of it. -/
def linkBack (region : Region) (place target : Option Block) : Region :=
  match place with
  | none => region
  | some block => region.setWord block.offset (Links.encode target)

/-- Lets `place`, if there is such a block, name `target` as the one behind it. -/
def linkOn (region : Region) (place target : Option Block) : Region :=
  match place with
  | none => region
  | some block => region.setWord (block.offset + 4) (Links.encode target)

/-- A block whose links lie in the region and that can be linked to. -/
structure Placed (region : Region) (block : Block) : Prop where
  positive : 0 < block.offset
  inside : block.offset + 8 ≤ region.size
  encodable : block.offset < 4294967296

variable {region : Region} {place target : Option Block} {block : Block}

@[simp] theorem size_linkBack (region : Region) (place target : Option Block) :
    (region.linkBack place target).size = region.size := by
  cases place with
  | none => rfl
  | some block => exact size_setWord ..

@[simp] theorem size_linkOn (region : Region) (place target : Option Block) :
    (region.linkOn place target).size = region.size := by
  cases place with
  | none => rfl
  | some block => exact size_setWord ..

@[simp] theorem limit_linkBack (region : Region) (place target : Option Block) :
    (region.linkBack place target).limit = region.limit := by
  cases place with
  | none => rfl
  | some block => exact limit_setWord ..

@[simp] theorem limit_linkOn (region : Region) (place target : Option Block) :
    (region.linkOn place target).limit = region.limit := by
  cases place with
  | none => rfl
  | some block => exact limit_setWord ..

theorem byte_linkBack_of_outside {index : Nat}
    (outside : ∀ block, place = some block → index < block.offset ∨ block.offset + 4 ≤ index) :
    (region.linkBack place target).byte index = region.byte index := by
  cases place with
  | none => rfl
  | some block =>
      have apart := outside block rfl
      exact byte_setWord_of_outside _ _ (by omega)

theorem byte_linkOn_of_outside {index : Nat}
    (outside : ∀ block, place = some block → index < block.offset + 4 ∨ block.offset + 8 ≤ index) :
    (region.linkOn place target).byte index = region.byte index := by
  cases place with
  | none => rfl
  | some block =>
      have apart := outside block rfl
      exact byte_setWord_of_outside _ _ (by omega)

theorem Placed.congr {after : Region} (placed : region.Placed block)
    (size : after.size = region.size) : after.Placed block where
  positive := placed.positive
  inside := size ▸ placed.inside
  encodable := placed.encodable

theorem decode_encode_of_placed (placed : ∀ block, target = some block → region.Placed block) :
    Links.decode (Links.encode target) = target := by
  cases target with
  | none => rfl
  | some block =>
      have facts := placed block rfl
      exact Links.decode_encode_some facts.positive facts.encodable

theorem linksAt_linkBack (placeFits : ∀ block, place = some block → region.Placed block)
    (targetFits : ∀ block, target = some block → region.Placed block)
    (spaced : ∀ placed, place = some placed → placed.Spaced block) :
    (region.linkBack place target).linksAt block =
      if place = some block then ⟨target, (region.linksAt block).next⟩
      else region.linksAt block := by
  cases place with
  | none => rfl
  | some placed =>
      have inside : placed.offset + 8 ≤ region.size := (placeFits placed rfl).inside
      rw [linkBack]
      by_cases same : placed = block
      · subst placed
        rw [if_pos rfl, linksAt, word_setWord _ _ (by omega),
          word_setWord_of_apart _ _ (by omega), decode_encode_of_placed targetFits]
        rfl
      · have apart := (spaced placed rfl).resolve_left same
        rw [if_neg (by simpa using same), linksAt, word_setWord_of_apart _ _ (by omega),
          word_setWord_of_apart _ _ (by omega)]
        rfl

theorem linksAt_linkOn (placeFits : ∀ block, place = some block → region.Placed block)
    (targetFits : ∀ block, target = some block → region.Placed block)
    (spaced : ∀ placed, place = some placed → placed.Spaced block) :
    (region.linkOn place target).linksAt block =
      if place = some block then ⟨(region.linksAt block).previous, target⟩
      else region.linksAt block := by
  cases place with
  | none => rfl
  | some placed =>
      have inside : placed.offset + 8 ≤ region.size := (placeFits placed rfl).inside
      rw [linkOn]
      by_cases same : placed = block
      · subst placed
        rw [if_pos rfl, linksAt, word_setWord_of_apart _ _ (by omega),
          word_setWord _ _ (by omega), decode_encode_of_placed targetFits]
        rfl
      · have apart := (spaced placed rfl).resolve_left same
        rw [if_neg (by simpa using same), linksAt, word_setWord_of_apart _ _ (by omega),
          word_setWord_of_apart _ _ (by omega)]
        rfl

end Region

/-! ## The two edits of a list -/

/-- Only the last member changes, and only in what it names behind itself. -/
theorem Linked.linkOn {region after : Region} {members : List BlockInfo}
    {previous next target : Option Block} (linked : Linked region previous members next)
    (distinct : (members.map BlockInfo.block).Nodup)
    (edited : ∀ info ∈ members, after.linksAt info.block =
      if lastOr members none = some info.block then
        ⟨(region.linksAt info.block).previous, target⟩
      else region.linksAt info.block) :
    Linked after previous members target := by
  obtain rfl | ⟨front, last, rfl⟩ := members.eq_nil_or_concat
  · trivial
  · rw [List.concat_eq_append] at linked distinct edited ⊢
    rw [linked_append] at linked ⊢
    have lastIs : lastOr (front ++ [last]) none = some last.block := by
      rw [lastOr_append]
      rfl
    rw [lastIs] at edited
    refine ⟨linked.1.congr fun info member => ?_, ?_, trivial⟩
    · have different : some last.block ≠ some info.block := by
        intro equal
        rw [List.map_append, List.nodup_append] at distinct
        exact distinct.2.2 info.block (List.mem_map_of_mem member) last.block (by simp)
          (Option.some.inj equal).symm
      rw [edited info (by simp [member]), if_neg different]
    · rw [edited last (by simp), if_pos rfl, linked.2.1]
      rfl

/-- Only the first member changes, and only in what it names in front of itself. -/
theorem Linked.linkBack {region after : Region} {members : List BlockInfo}
    {previous next target : Option Block} (linked : Linked region previous members next)
    (distinct : (members.map BlockInfo.block).Nodup)
    (edited : ∀ info ∈ members, after.linksAt info.block =
      if firstOr members none = some info.block then
        ⟨target, (region.linksAt info.block).next⟩
      else region.linksAt info.block) :
    Linked after target members next := by
  cases members with
  | nil => trivial
  | cons first rest =>
      refine ⟨?_, linked.2.congr fun info member => ?_⟩
      · have isFirst : firstOr (first :: rest) none = some first.block := rfl
        rw [edited first List.mem_cons_self, if_pos isFirst, linked.1]
      · have different : some first.block ≠ some info.block := by
          intro equal
          rw [List.map_cons, List.nodup_cons] at distinct
          exact distinct.1 (by rw [Option.some.inj equal]; exact List.mem_map_of_mem member)
        rw [edited info (List.mem_cons_of_mem _ member)]
        exact if_neg different

end TaggedHeap
