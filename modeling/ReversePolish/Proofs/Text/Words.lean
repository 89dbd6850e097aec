import ReversePolish.Text.Basic
import Mathlib.Data.List.DropRight

/-! Splitting a line undoes joining its words. The words may hold anything but the
space between them, and the last one must not close with a line end, which would be
taken for the end of the line. Joining the words of a line gives the line without the line
ends that close it. -/

namespace ReversePolish.Text

@[simp] theorem joinWords_singleton (word : Text) : joinWords [word] = word := by
  simp [joinWords]

theorem joinWords_cons_cons (word next : Text) (rest : List Text) :
    joinWords (word :: next :: rest) = word ++ space :: joinWords (next :: rest) := by
  simp [joinWords, List.intercalate_cons_cons]

theorem joinWords_cons (word : Text) {rest : List Text} (hne : rest ≠ []) :
    joinWords (word :: rest) = word ++ space :: joinWords rest := by
  obtain ⟨next, others, rfl⟩ := List.exists_cons_of_ne_nil hne
  exact joinWords_cons_cons word next others

theorem joinWords_concat {words : List Text} (hne : words ≠ []) (last : Text) :
    joinWords (words ++ [last]) = joinWords words ++ space :: last := by
  induction words with
  | nil => exact absurd rfl hne
  | cons word rest ih =>
    by_cases hrest : rest = []
    · subst hrest
      rw [List.singleton_append, joinWords_cons_cons, joinWords_singleton, joinWords_singleton]
    · rw [List.cons_append, joinWords_cons word (List.append_ne_nil_of_left_ne_nil hrest _),
        ih hrest, joinWords_cons word hrest, List.append_assoc, List.cons_append]

theorem mem_intercalate {separator c : Char} {pieces : List Text}
    (h : c ∈ [separator].intercalate pieces) : c = separator ∨ ∃ piece ∈ pieces, c ∈ piece := by
  induction pieces with
  | nil => cases h
  | cons piece rest ih =>
    rcases rest with _ | ⟨next, rest⟩
    · rw [List.intercalate_singleton] at h
      exact .inr ⟨piece, List.mem_cons_self, h⟩
    · rw [List.intercalate_cons_cons, List.append_assoc, List.mem_append, List.singleton_append,
        List.mem_cons] at h
      rcases h with h | rfl | h
      · exact .inr ⟨piece, List.mem_cons_self, h⟩
      · exact .inl rfl
      · exact (ih h).imp_right fun ⟨p, hp, hc⟩ => ⟨p, List.mem_cons_of_mem _ hp, hc⟩

theorem mem_intercalate_of_mem (separator : Char) {c : Char} {pieces : List Text} {piece : Text}
    (hpiece : piece ∈ pieces) (hc : c ∈ piece) : c ∈ [separator].intercalate pieces := by
  induction pieces with
  | nil => cases hpiece
  | cons first rest ih =>
    rcases rest with _ | ⟨next, rest⟩
    · rw [List.intercalate_singleton]
      exact List.mem_singleton.mp hpiece ▸ hc
    · rw [List.intercalate_cons_cons, List.append_assoc, List.mem_append]
      rcases List.mem_cons.mp hpiece with rfl | hrest
      · exact .inl hc
      · exact .inr (List.mem_append_right _ (ih hrest))

/-- A text that no line end closes. -/
def IsOpen (s : Text) : Prop := ∀ c ∈ s.getLast?, isLineEnd c = false

theorem dropLineEnds_of_isOpen {s : Text} (h : s.IsOpen) : dropLineEnds s = s := by
  refine List.rdropWhile_eq_self_iff.mpr fun hne => ?_
  have hlast := h _ (List.getLast?_eq_getLast_of_ne_nil hne)
  simp [hlast]

theorem IsOpen.append_space {s : Text} (word : Text) (h : s.IsOpen) :
    (word ++ space :: s).IsOpen := by
  intro c hc
  rw [List.getLast?_append_cons, List.getLast?_cons] at hc
  cases hlast : s.getLast? with
  | none =>
    rw [hlast] at hc
    cases hc
    rfl
  | some d =>
    rw [hlast] at hc
    cases hc
    exact h d hlast

theorem isOpen_joinWords {words : List Text} (h : ∀ word ∈ words.getLast?, IsOpen word) :
    (joinWords words).IsOpen := by
  induction words with
  | nil =>
    rintro c ⟨⟩
  | cons word rest ih =>
    rcases rest with _ | ⟨next, rest⟩
    · rw [joinWords_singleton]
      exact h word rfl
    · rw [joinWords_cons_cons]
      refine (ih fun last hlast => h last ?_).append_space word
      rwa [List.getLast?_cons_cons]

theorem isOpen_dropLineEnds (s : Text) : (dropLineEnds s).IsOpen := by
  intro c hc
  obtain ⟨hne, rfl⟩ := List.mem_getLast?_eq_getLast hc
  have hlast := List.rdropWhile_last_not isLineEnd s hne
  rwa [Bool.not_eq_true] at hlast

/-- What is dropped from the end of a line is all line ends. -/
theorem exists_dropLineEnds_append (s : Text) :
    ∃ ends, (∀ c ∈ ends, isLineEnd c) ∧ s = dropLineEnds s ++ ends :=
  ⟨s.rtakeWhile isLineEnd, fun _ hc => List.mem_rtakeWhile_imp hc,
    List.rdropWhile_append_rtakeWhile.symm⟩

theorem dropLineEnds_append {s ends : Text} (h : s.IsOpen) (hends : ∀ c ∈ ends, isLineEnd c) :
    dropLineEnds (s ++ ends) = s := by
  have hreverse : ∀ c ∈ ends.reverse, isLineEnd c := fun c hc => hends c (List.mem_reverse.mp hc)
  rw [dropLineEnds, List.reverse_append, List.dropWhile_append_of_pos hreverse]
  exact dropLineEnds_of_isOpen h

theorem not_mem_of_mem_splitOn {c : Char} {s word : Text} (h : word ∈ s.splitOn c) :
    c ∉ word := by
  induction s generalizing word with
  | nil =>
    rw [List.splitOn_nil, List.mem_singleton] at h
    rw [h]
    exact List.not_mem_nil
  | cons d s ih =>
    obtain ⟨first, rest, hsplit⟩ := List.exists_cons_of_ne_nil (List.splitOn_ne_nil c s)
    rw [hsplit] at ih
    rw [List.splitOn_cons_eq_if_modifyHead, hsplit] at h
    split_ifs at h with hd
    · rcases List.mem_cons.mp h with rfl | h
      · exact List.not_mem_nil
      · exact ih h
    · rcases List.mem_cons.mp h with rfl | h
      · intro hc
        rcases List.mem_cons.mp hc with rfl | hc
        · exact hd (beq_self_eq_true c)
        · exact ih List.mem_cons_self hc
      · exact ih (List.mem_cons_of_mem first h)

/-- Words that a line can be joined from and told apart in again. -/
structure FormLine (words : List Text) : Prop where
  ne_nil : words ≠ []
  space_not_mem : ∀ word ∈ words, space ∉ word
  isOpen : (joinWords words).IsOpen

/-- The words of a line are those that it was joined from, however many line ends close it. -/
theorem FormLine.splitWords_append {words : List Text} (h : FormLine words) {ends : Text}
    (hends : ∀ c ∈ ends, isLineEnd c) : splitWords (joinWords words ++ ends) = words := by
  rw [splitWords, dropLineEnds_append h.isOpen hends]
  exact List.splitOn_intercalate space h.space_not_mem h.ne_nil

theorem splitWords_joinWords {words : List Text} (hne : words ≠ [])
    (hspace : ∀ word ∈ words, space ∉ word) (hend : ∀ word ∈ words.getLast?, IsOpen word) :
    splitWords (joinWords words) = words := by
  have h : FormLine words := ⟨hne, hspace, isOpen_joinWords hend⟩
  have hnone : ∀ c ∈ ([] : Text), isLineEnd c := List.forall_mem_nil _
  simpa using h.splitWords_append hnone

theorem formLine_splitWords (line : Text) : FormLine (splitWords line) where
  ne_nil := splitWords_ne_nil line
  space_not_mem _ h := not_mem_of_mem_splitOn h
  isOpen := by
    rw [joinWords_splitWords]
    exact isOpen_dropLineEnds line

/-- The first line is all that precedes a line end. -/
theorem firstLine_append {line rest : Text} (hline : ∀ c ∈ line, isLineEnd c = false)
    (hrest : ∀ c ∈ rest.head?, isLineEnd c = true) : firstLine (line ++ rest) = line := by
  have hstop : rest.takeWhile (!isLineEnd ·) = [] := by
    cases rest with
    | nil => rfl
    | cons c rest => simp [hrest c rfl]
  have hkeep : ∀ c ∈ line, (!isLineEnd c) = true := fun c hc => by rw [hline c hc]; rfl
  rw [firstLine, List.takeWhile_append_of_pos hkeep, hstop, List.append_nil]

theorem isLineEnd_of_mem_firstLine {s : Text} {c : Char} (h : c ∈ firstLine s) :
    isLineEnd c = false := by
  simpa using List.mem_takeWhile_imp h

theorem joinWords_splitWords_firstLine (s : Text) :
    joinWords (splitWords (firstLine s)) = firstLine s := by
  have hopen : (firstLine s).IsOpen := fun c hc =>
    isLineEnd_of_mem_firstLine (List.mem_of_getLast? hc)
  rw [joinWords_splitWords, dropLineEnds_of_isOpen hopen]

end ReversePolish.Text
