import TaggedHeap.Event
import TaggedHeap.Proofs.Numeral

/-!
Contract: what the text of a message tells of the state of a heap.

Four kinds of message tell something: an allocation, a release and a finished resize which
offset they took or gave back, and a growth where the region ends. The main statement is that
a reader of texts learns from a message just what its event holds.
-/

namespace TaggedHeap

/-- What a message tells. -/
inductive Tiding where
  | takes (offset : Nat)
  | gives (offset : Nat)
  | ends (high : Nat)
  | nothing
deriving DecidableEq, Repr

namespace Tiding

/-- What the words of a message tell. The first word names the operation. A resize tells
something only when it is finished, which an arrow marks. -/
def ofWords : List (List Char) → Tiding
  | [] => .nothing
  | call :: rest =>
      let last := leadingNumber (rest.getLastD [])
      if "allocate(".toList <+: call then
        .takes last
      else if "release(".toList <+: call then
        .gives (leadingNumber (call.drop 8))
      else if "resize(".toList <+: call then
        if rest[1]? = some "->".toList then .takes last else .nothing
      else if call = "extended".toList then
        .ends last
      else
        .nothing

def ofMessage (message : String) : Tiding :=
  ofWords (message.toList.splitOn ' ')

def ofEvent : Event → Tiding
  | .allocated _ offset => .takes offset
  | .released offset => .gives offset
  | .resized _ _ target => .takes target
  | .extended _ high => .ends high
  | .refused _ _ | .initialised _ | .merged _ _ _ | .grewInPlace _ _ | .moved _ _ _ => .nothing

/-! ## Words -/

/-- A number with a text in front of it and a character behind it is one word. -/
theorem splitOn_number {front : List Char} (noBlank : ' ' ∉ front) (number : Nat) {mark : Char}
    (notBlank : ' ' ≠ mark) (rest : List Char) :
    (front ++ ((toString number).toList ++ mark :: ' ' :: rest)).splitOn ' ' =
      (front ++ ((toString number).toList ++ [mark])) :: rest.splitOn ' ' := by
  have noBlankAround : ' ' ∉ front ++ ((toString number).toList ++ [mark]) := by
    simp only [List.mem_append, List.mem_singleton, not_or]
    exact ⟨noBlank, notMem_toString number (by decide), notBlank⟩
  rw [← List.splitOn_append_cons_self_of_not_mem noBlankAround]
  simp only [List.append_assoc, List.cons_append, List.nil_append]

theorem splitOn_last (front : List Char) (number : Nat) :
    (front ++ ' ' :: (toString number).toList).splitOn ' ' =
      front.splitOn ' ' ++ [(toString number).toList] := by
  rw [List.splitOn_append_cons_self,
    List.splitOn_eq_singleton (notMem_toString number (by decide))]

/-- A message whose first word names no operation tells nothing. -/
theorem ofMessage_of_word {message : String} {word rest : List Char}
    (text : message.toList = word ++ ' ' :: rest) (noBlank : ' ' ∉ word)
    (noAllocate : ¬"allocate(".toList <+: word) (noRelease : ¬"release(".toList <+: word)
    (noResize : ¬"resize(".toList <+: word) (noGrowth : word ≠ "extended".toList) :
    ofMessage message = .nothing := by
  rw [ofMessage, text, List.splitOn_append_cons_self_of_not_mem noBlank]
  simp only [ofWords, if_neg noAllocate, if_neg noRelease, if_neg noResize, if_neg noGrowth]

/-- A resize tells something only if an arrow follows its arguments. -/
theorem ofWords_resize (offset request : Nat) (rest : List Char) :
    ofWords (("resize(".toList ++ ((toString offset).toList ++ ',' :: ' ' ::
        ((toString request).toList ++ ')' :: ' ' :: rest))).splitOn ' ') =
      if (rest.splitOn ' ')[0]? = some "->".toList then
        .takes (leadingNumber ((rest.splitOn ' ').getLastD [])) else .nothing := by
  have arguments := @splitOn_number [] (by decide) request ')' (by decide) rest
  simp only [List.nil_append] at arguments
  rw [splitOn_number (by decide) offset (by decide), arguments]
  have noAllocate : ¬"allocate(".toList <+:
      "resize(".toList ++ ((toString offset).toList ++ [',']) := fun isPrefix => by
    exact absurd (List.cons_prefix_cons.1 isPrefix).1 (by decide)
  have noRelease : ¬"release(".toList <+:
      "resize(".toList ++ ((toString offset).toList ++ [',']) := fun isPrefix => by
    have second := (List.cons_prefix_cons.1 isPrefix).2
    have third := (List.cons_prefix_cons.1 second).2
    exact absurd (List.cons_prefix_cons.1 third).1 (by decide)
  simp only [ofWords, if_neg noAllocate, if_neg noRelease, if_pos (List.prefix_append ..)]
  obtain ⟨first, others, split⟩ := List.exists_cons_of_ne_nil (List.splitOn_ne_nil ' ' rest)
  rw [split]
  rfl

/-- What a reader of messages learns is what their events hold. -/
theorem ofMessage_message (event : Event) : ofMessage event.message = ofEvent event := by
  cases event with
  | refused bytes refusal =>
      have text : (Event.refused bytes refusal).message.toList = "arena".toList ++ ' ' ::
          ("refused to grow by ".toList ++ ((toString bytes).toList ++
            (" bytes: ".toList ++ refusal.message.toList))) := by
        change (toString "arena refused to grow by " ++ _ ++ toString " bytes: " ++ _).toList = _
        simp only [String.toList_append, List.append_assoc]
        rfl
      exact ofMessage_of_word text (by decide) (by decide) (by decide) (by decide) (by decide)
  | initialised high =>
      have text : (Event.initialised high).message.toList = "initialised".toList ++ ' ' ::
          ("allocator, arena [0, ".toList ++ ((toString high).toList ++ [')'])) := by
        change (toString "initialised allocator, arena [0, " ++ _ ++ _).toList = _
        simp only [String.toList_append, List.append_assoc]
        rfl
      exact ofMessage_of_word text (by decide) (by decide) (by decide) (by decide) (by decide)
  | merged offset start size =>
      have text : (Event.merged offset start size).message.toList = "coalesced".toList ++ ' ' ::
          ("block ".toList ++ ((toString offset).toList ++ (" into ".toList ++
            ((toString start).toList ++ (" (".toList ++ ((toString size).toList ++
              " bytes)".toList)))))) := by
        change (toString "coalesced block " ++ _ ++ toString " into " ++ _ ++ toString " (" ++ _ ++
          toString " bytes)").toList = _
        simp only [String.toList_append, List.append_assoc]
        rfl
      exact ofMessage_of_word text (by decide) (by decide) (by decide) (by decide) (by decide)
  | extended bytes high =>
      have text : (Event.extended bytes high).message.toList = "extended".toList ++ ' ' ::
          (("arena by ".toList ++ ((toString bytes).toList ++ " bytes, break at".toList)) ++
            ' ' :: (toString high).toList) := by
        change (toString "extended arena by " ++ _ ++ toString " bytes, break at " ++ _).toList = _
        simp only [String.toList_append, List.append_assoc]
        rfl
      rw [ofMessage, text, List.splitOn_append_cons_self_of_not_mem (by decide), splitOn_last]
      have noCall : ∀ name ∈ ["allocate(".toList, "release(".toList, "resize(".toList],
          ¬name <+: "extended".toList := by decide
      simp only [ofWords, if_neg (noCall _ (.head _)), if_neg (noCall _ (.tail _ (.head _))),
        if_neg (noCall _ (.tail _ (.tail _ (.head _)))), ↓reduceIte, List.getLastD_concat,
        leadingNumber_toString]
      rfl
  | allocated request offset =>
      have text : (Event.allocated request offset).message.toList = "allocate(".toList ++
          ((toString request).toList ++ ')' :: ' ' ::
            ("->".toList ++ ' ' :: (toString offset).toList)) := by
        change (toString "allocate(" ++ _ ++ toString ") -> " ++ _).toList = _
        simp only [String.toList_append, List.append_assoc]
        rfl
      rw [ofMessage, text, splitOn_number (by decide) request (by decide), splitOn_last]
      simp only [ofWords, if_pos (List.prefix_append ..), List.getLastD_concat,
        leadingNumber_toString]
      rfl
  | released offset =>
      have text : (Event.released offset).message.toList =
          "release(".toList ++ ((toString offset).toList ++ [')']) := by
        change (toString "release(" ++ _ ++ _).toList = _
        simp only [String.toList_append, List.append_assoc]
        rfl
      have oneWord : ' ' ∉ "release(".toList ++ ((toString offset).toList ++ [')']) := by
        simp only [List.mem_append, not_or]
        exact ⟨by decide, notMem_toString offset (by decide), by decide⟩
      have noAllocate : ¬"allocate(".toList <+:
          "release(".toList ++ ((toString offset).toList ++ [')']) := fun isPrefix =>
        absurd (List.cons_prefix_cons.1 isPrefix).1 (by decide)
      have closes : ∀ first ∈ [')'].head?, first.isDigit = false := by
        rintro first ⟨⟩
        rfl
      rw [ofMessage, text, List.splitOn_eq_singleton oneWord]
      simp only [ofWords, if_neg noAllocate, if_pos (List.prefix_append ..)]
      exact congrArg gives (leadingNumber_append offset closes)
  | grewInPlace offset request =>
      have text : (Event.grewInPlace offset request).message.toList = "resize(".toList ++
          ((toString offset).toList ++ ',' :: ' ' :: ((toString request).toList ++ ')' :: ' ' ::
            "grew in place".toList)) := by
        change (toString "resize(" ++ _ ++ toString ", " ++ _ ++ toString ") grew in place").toList
          = _
        simp only [String.toList_append, List.append_assoc]
        rfl
      rw [ofMessage, text, ofWords_resize, if_neg (by decide)]
      rfl
  | moved offset request target =>
      have text : (Event.moved offset request target).message.toList = "resize(".toList ++
          ((toString offset).toList ++ ',' :: ' ' :: ((toString request).toList ++ ')' :: ' ' ::
            ("moved".toList ++ ' ' :: ("to".toList ++ ' ' :: (toString target).toList)))) := by
        change (toString "resize(" ++ _ ++ toString ", " ++ _ ++ toString ") moved to " ++ _).toList
          = _
        simp only [String.toList_append, List.append_assoc]
        rfl
      rw [ofMessage, text, ofWords_resize,
        List.splitOn_append_cons_self_of_not_mem (by decide), List.getElem?_cons_zero,
        if_neg fun arrow => absurd (Option.some.inj arrow) (by decide)]
      rfl
  | resized offset request target =>
      have text : (Event.resized offset request target).message.toList = "resize(".toList ++
          ((toString offset).toList ++ ',' :: ' ' :: ((toString request).toList ++ ')' :: ' ' ::
            ("->".toList ++ ' ' :: (toString target).toList))) := by
        change (toString "resize(" ++ _ ++ toString ", " ++ _ ++ toString ") -> " ++ _).toList = _
        simp only [String.toList_append, List.append_assoc]
        rfl
      rw [ofMessage, text, ofWords_resize, splitOn_last, List.getLastD_concat,
        leadingNumber_toString]
      rfl

end Tiding

end TaggedHeap
