import ReversePolish.Proofs.CommandLine.Placement
import ReversePolish.Proofs.Text.Words

/-! Words as arguments and words on a line. Behind the terminator every word is an argument
as it stands; on a line of standard input the same words stand with single spaces between
them, and the line is all that precedes the first line end. Both ways the command does the
same, if no word holds what divides lines and words and the line is not blank. -/

namespace ReversePolish.Command

open Arguments (FlagArgument Interleaved ending terminator)
open Text (joinWords)

variable {flags words : List Text}

theorem interleaved_flags (flags : List Text) : Interleaved [] flags flags := by
  induction flags with
  | nil => exact .nil
  | cons a flags ih => exact .flag a ih

theorem Request.ofArguments_flags (hflags : ∀ a ∈ flags, FlagArgument a)
    (rest : Option (List Text)) :
    Request.ofArguments (flags ++ ending rest) = .ofWords (.given flags) (rest.getD []) :=
  Request.ofArguments_of_interleaved (List.forall_mem_nil _) hflags (interleaved_flags flags) rest

/-- What a line of words is told apart by: neither spaces nor line ends. -/
def IsLineWord (word : Text) : Prop := ∀ c ∈ word, c ≠ ' ' ∧ c ≠ '\r' ∧ c ≠ '\n'

instance (word : Text) : Decidable (IsLineWord word) :=
  decidable_of_iff _ List.all_iff_forall_prop

/-- What may follow the first line: nothing, or a line end and then any text. -/
def LineEnd (after : Text) : Prop :=
  after = [] ∨ ∃ mark ∈ ["\n".toList, "\r\n".toList, "\r".toList], ∃ rest, after = mark ++ rest

theorem IsLineWord.isLineEnd {word : Text} (h : IsLineWord word) {c : Char} (hc : c ∈ word) :
    Text.isLineEnd c = false := by
  simp [Text.isLineEnd, (h c hc).2]

theorem LineEnd.head {after : Text} (h : LineEnd after) :
    ∀ c ∈ after.head?, Text.isLineEnd c = true := by
  rcases h with rfl | ⟨mark, hmark, rest, rfl⟩
  · exact nofun
  · simp only [List.mem_cons, List.not_mem_nil, or_false] at hmark
    rcases hmark with rfl | rfl | rfl <;> rintro c ⟨rfl⟩ <;> rfl

/-- The words of a line are those that it was joined from. -/
theorem wordsOfInput?_joinWords (hne : words ≠ []) (hwords : ∀ w ∈ words, IsLineWord w)
    (hblank : (joinWords words).isBlank = false) {after : Text} (hafter : LineEnd after) :
    wordsOfInput? (joinWords words ++ after) = some words := by
  have hline : ∀ c ∈ joinWords words, Text.isLineEnd c = false := by
    intro c hc
    rcases Text.mem_intercalate hc with rfl | ⟨w, hw, hc⟩
    · rfl
    · exact (hwords w hw).isLineEnd hc
  have hsplit : Text.splitWords (joinWords words) = words := by
    refine Text.splitWords_joinWords hne (fun w hw hspace => ?_) fun w hw c hc => ?_
    · exact (hwords w hw _ hspace).1 rfl
    · exact (hwords w (List.mem_of_getLast? hw)).isLineEnd (List.mem_of_getLast? hc)
  simp only [wordsOfInput?, Text.firstLine_append hline hafter.head, hblank, hsplit]
  rfl

/-- Words behind the terminator and the same words on a line of standard input get the same
answer: the same exit code and the same text on each channel, or the same error. -/
theorem run_words_eq_run_line (hflags : ∀ a ∈ flags, FlagArgument a) (hne : words ≠ [])
    (hwords : ∀ w ∈ words, IsLineWord w) (hblank : (joinWords words).isBlank = false)
    (input : StandardInput) {after : Text} (hafter : LineEnd after) :
    run input (flags ++ terminator :: words) = run (.text (joinWords words ++ after)) flags := by
  have hargs := Request.ofArguments_flags hflags (some words)
  have hnone := Request.ofArguments_flags hflags none
  rw [ending, Option.getD_some, Request.ofWords, if_neg hne] at hargs
  rw [ending, List.append_nil, Option.getD_none, Request.ofWords, if_pos rfl] at hnone
  rw [run, run, hargs, hnone]
  simp only [Request.answer, wordsOfInput?_joinWords hne hwords hblank hafter]

/-- An empty word, a word like a flag and one of white space, with more text behind the line. -/
theorem run_words_eq_run_line_mixed :
    run .unavailable ["-v".toList, "--stats".toList, "--".toList,
        "3".toList, "".toList, "-h".toList, "\u2003".toList] =
      run (.text "3  -h \u2003\r\n4".toList) ["-v".toList, "--stats".toList] := by
  have hflags : ∀ a ∈ ["-v".toList, "--stats".toList], FlagArgument a :=
    List.forall_mem_cons.mpr ⟨.short ['v'] (by decide) (List.all_iff_forall_prop.mp (by decide)),
      List.forall_mem_singleton.mpr (.long _ (by decide))⟩
  have hwords : ∀ w ∈ ["3".toList, "".toList, "-h".toList, "\u2003".toList], IsLineWord w := by
    decide
  have hafter : LineEnd "\r\n4".toList := .inr ⟨"\r\n".toList, by decide, ['4'], rfl⟩
  exact run_words_eq_run_line hflags (by decide) hwords (by decide) .unavailable hafter

end ReversePolish.Command
