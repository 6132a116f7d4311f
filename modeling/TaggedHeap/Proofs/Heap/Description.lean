import TaggedHeap.Proofs.Heap.Survey
import TaggedHeap.Proofs.Numeral

/-!
Contract: the text of a heap, read back.

The text is taken apart at its line breaks, and its last line at the blanks and colons. The
main statements are that each block has one line, and that the last line gives the length of
every list that has members.
-/

namespace TaggedHeap

/-! ## Reading -/

/-- The lines of a text, and what stands behind its last line break. -/
def linesOf (text : String) : List (List Char) :=
  text.toList.splitOn '\n'

/-- What a word says that consists of two numbers with a colon between them. -/
def readCount (word : List Char) : Option (Nat × Nat) :=
  match word.splitOn ':' with
  | [cls, count] => some (leadingNumber cls, leadingNumber count)
  | _ => none

/-- Size classes and counts that a line names behind its first word. -/
def readCounts (line : List Char) : List (Nat × Nat) :=
  (line.splitOn ' ').tail.filterMap readCount

/-- A size class and a count, as they are printed. -/
def countWord (cls : SizeClass) (count : Nat) : List Char :=
  (toString cls.val).toList ++ ':' :: (toString count).toList

theorem readCount_countWord (cls : SizeClass) (count : Nat) :
    readCount (countWord cls count) = some (cls.val, count) := by
  have noColon : ∀ number : Nat, ':' ∉ (toString number).toList := fun number =>
    notMem_toString number (by decide)
  rw [readCount, countWord, List.splitOn_append_cons_self_of_not_mem (noColon _),
    List.splitOn_eq_singleton (noColon _)]
  simp only [leadingNumber_toString]

theorem blank_notMem_countWord (cls : SizeClass) (count : Nat) :
    ' ' ∉ countWord cls count := by
  simp only [countWord, List.mem_append, List.mem_cons, not_or]
  exact ⟨notMem_toString _ (by decide), by decide, notMem_toString _ (by decide)⟩

namespace Heap

/-! ## Lists -/

variable {counts : SizeClass → Nat}

theorem toList_describeClass (cls : SizeClass) (count : Nat) :
    (describeClass cls count).toList = if count = 0 then [] else ' ' :: countWord cls count := by
  by_cases empty : count = 0
  · rw [describeClass, if_pos empty, if_pos empty]
    rfl
  · rw [describeClass, if_neg empty, if_neg empty]
    simp [countWord, toString]

/-- Behind a first word, the classes that have members take one word each. -/
theorem splitOn_describeClass (classes : List SizeClass) {word : List Char}
    (noBlank : ' ' ∉ word) :
    (word ++ (classes.map fun cls => describeClass cls (counts cls)).flatMap
      String.toList).splitOn ' ' =
      word :: (classes.filter fun cls => counts cls ≠ 0).map fun cls =>
        countWord cls (counts cls) := by
  induction classes generalizing word with
  | nil =>
      rw [List.map_nil, List.flatMap_nil, List.append_nil, List.splitOn_eq_singleton noBlank]
      rfl
  | cons cls rest inductionHypothesis =>
      rw [List.map_cons, List.flatMap_cons, toList_describeClass]
      by_cases empty : counts cls = 0
      · rw [if_pos empty, List.nil_append, inductionHypothesis noBlank,
          List.filter_cons_of_neg (by simp [empty])]
      · rw [if_neg empty, List.cons_append,
          List.splitOn_append_cons_self_of_not_mem noBlank,
          inductionHypothesis (blank_notMem_countWord _ _),
          List.filter_cons_of_pos (by simp [empty]), List.map_cons]

/-- The line of the lists names each class that has members, with their number. -/
theorem readCounts_lists (counts : SizeClass → Nat) :
    readCounts ("buckets:".toList ++ ((List.finRange 20).map fun cls =>
        describeClass cls (counts cls)).flatMap String.toList) =
      ((List.finRange 20).filter fun cls => counts cls ≠ 0).map fun cls =>
        (cls.val, counts cls) := by
  rw [readCounts, splitOn_describeClass _ (by decide), List.tail_cons, List.filterMap_map]
  simp only [Function.comp_def, readCount_countWord]
  exact congrFun List.filterMap_eq_map _

theorem newline_notMem_lists (classes : List SizeClass) :
    '\n' ∉ (classes.map fun cls => describeClass cls (counts cls)).flatMap String.toList := by
  intro member
  obtain ⟨text, isText, inText⟩ := List.mem_flatMap.1 member
  obtain ⟨cls, -, rfl⟩ := List.mem_map.1 isText
  rw [toList_describeClass] at inText
  split at inText
  · exact absurd inText List.not_mem_nil
  · simp only [countWord, List.mem_cons, List.mem_append] at inText
    rcases inText with blank | inClass | colon | inCount
    · exact absurd blank (by decide)
    · exact notMem_toString _ (by decide) inClass
    · exact absurd colon (by decide)
    · exact notMem_toString _ (by decide) inCount

/-! ## Lines -/

theorem newline_notMem_heading (heap : Heap) : '\n' ∉
    (s!"heap [0, {heap.region.size}) prologue at {heap.prologue.offset}").toList := by
  have size := notMem_toString heap.region.size (show ('\n').isDigit = false by decide)
  have prologue := notMem_toString heap.prologue.offset (show ('\n').isDigit = false by decide)
  simp only [String.toList_append, List.mem_append, not_or]
  exact ⟨⟨⟨by decide, size⟩, by decide⟩, prologue⟩

/-- A block behind lines takes one more line. -/
theorem splitOn_describeBlock (blocks : List BlockInfo) (rest : List Char) :
    ∃ lines : List (List Char),
      ((blocks.map describeBlock).flatMap String.toList ++ rest).splitOn '\n' =
        lines ++ rest.splitOn '\n' ∧
      lines.map (fun line => String.ofList (line ++ ['\n'])) = blocks.map describeBlock := by
  induction blocks with
  | nil => exact ⟨[], rfl, rfl⟩
  | cons info others inductionHypothesis =>
      obtain ⟨lines, split, same⟩ := inductionHypothesis
      obtain ⟨line, text, noBreak⟩ := describeBlock_line info
      refine ⟨line :: lines, ?_, ?_⟩
      · rw [List.map_cons, List.flatMap_cons, text, List.append_assoc, List.append_assoc,
          List.singleton_append, List.splitOn_append_cons_self_of_not_mem noBreak, split]
        rfl
      · rw [List.map_cons, List.map_cons, same, ← text, String.ofList_toList]

/-- The text of a heap has a heading, a line for each block, and a line for the lists. -/
structure Prints (text : String) (blocks : List BlockInfo) (counts : SizeClass → Nat)
    (lines : List (List Char)) (lists : List Char) : Prop where
  split : ∃ heading, linesOf text = heading :: (lines ++ [lists, []])
  lines : lines.map (fun line => String.ofList (line ++ ['\n'])) = blocks.map describeBlock
  counts : readCounts lists = ((List.finRange 20).filter fun cls => counts cls ≠ 0).map
    fun cls => (cls.val, counts cls)

theorem prints (heading : String) (noBreak : '\n' ∉ heading.toList) (blocks : List BlockInfo)
    (counts : SizeClass → Nat) : ∃ lines lists,
      Prints (heading ++ "\n" ++ String.join (blocks.map describeBlock) ++ "buckets:" ++
        String.join ((List.finRange 20).map fun cls => describeClass cls (counts cls)) ++ "\n")
        blocks counts lines lists := by
  obtain ⟨lines, split, same⟩ := splitOn_describeBlock blocks
    ("buckets:".toList ++ ((List.finRange 20).map fun cls =>
      describeClass cls (counts cls)).flatMap String.toList ++ ['\n'])
  refine ⟨lines, _, ⟨heading.toList, ?_⟩, same, readCounts_lists counts⟩
  have noBreakLists : '\n' ∉ "buckets:".toList ++ ((List.finRange 20).map fun cls =>
      describeClass cls (counts cls)).flatMap String.toList := by
    rw [List.mem_append, not_or]
    exact ⟨by decide, newline_notMem_lists _⟩
  rw [List.splitOn_append_cons_self_of_not_mem noBreakLists] at split
  have newline : "\n".toList = ['\n'] := rfl
  simp only [linesOf, String.toList_append, String.toList_join, newline, List.append_assoc,
    List.nil_append, List.cons_append] at split ⊢
  rw [List.splitOn_append_cons_self_of_not_mem noBreak, split]
  rfl

end Heap

end TaggedHeap
