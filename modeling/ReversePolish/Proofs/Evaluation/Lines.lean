import ReversePolish.Evaluation
import ReversePolish.Proofs.Text.Words

/-! A line and its words are one program. Empty words are words like all others, so none is
lost between two spaces or at either end of the line, and whatever the words come to, they come
to on the line. Every line is such a line of words, up to the line ends that close it. -/

namespace ReversePolish.Source

open Text (FormLine joinWords splitWords isLineEnd)

/-- Words that form a line are evaluated as the line that they are joined to is, with or without
line ends: to the same run or the same error. Every line is joined from words of this kind. -/
theorem line_evaluates_as_words (verbosity : Int) :
    (∀ words ends, FormLine words → (∀ c ∈ ends, isLineEnd c) →
      splitWords (joinWords words ++ ends) = words ∧
      (line (joinWords words ++ ends)).evaluate verbosity =
        (Source.words words).evaluate verbosity) ∧
    ∀ text, FormLine (splitWords text) ∧
      ∃ ends, (∀ c ∈ ends, isLineEnd c) ∧ text = joinWords (splitWords text) ++ ends := by
  constructor
  · intro words ends hwords hends
    have hsplit := hwords.splitWords_append hends
    exact ⟨hsplit, by rw [evaluate, evaluate, toWords, toWords, hsplit]⟩
  · intro text
    rw [Text.joinWords_splitWords]
    exact ⟨Text.formLine_splitWords text, Text.exists_dropLineEnds_append text⟩

theorem line_evaluates_as_words_doubled_space :
    FormLine ["1".toList, [], "+".toList] ∧
      splitWords "1  +\r\n".toList = ["1".toList, [], "+".toList] ∧
      (line "1  +\r\n".toList).evaluate 2 = (words ["1".toList, [], "+".toList]).evaluate 2 := by
  have hopen : Text.IsOpen (joinWords ["1".toList, [], "+".toList]) := by
    rintro c ⟨⟩
    rfl
  have hform : FormLine ["1".toList, [], "+".toList] := ⟨by decide, by decide, hopen⟩
  have hends : ∀ c ∈ ['\r', '\n'], isLineEnd c :=
    List.forall_mem_cons.mpr ⟨rfl, List.forall_mem_singleton.mpr rfl⟩
  exact ⟨hform, (line_evaluates_as_words 2).1 _ ['\r', '\n'] hform hends⟩

end ReversePolish.Source
