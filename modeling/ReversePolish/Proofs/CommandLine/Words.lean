import ReversePolish.Proofs.CommandLine.Flags
import ReversePolish.Proofs.CommandLine.Input

/-! The words that the command evaluates. An argument before the terminator leaves what is
no flag in it, and all that follows the terminator is left as it stands. Only if no word is
left does the input supply them: the words that its first line is joined from, unless that
line is all white space. -/

namespace ReversePolish

namespace Text

/-- The characters of white space: controls, separators among the controls, and blanks. -/
def whiteSpace : Text :=
  "\t\n\x0b\x0c\r\x1c\x1d\x1e\x1f \u0085\u00a0\u1680".toList ++
    "\u2000\u2001\u2002\u2003\u2004\u2005\u2006\u2007\u2008\u2009\u200a".toList ++
    "\u2028\u2029\u202f\u205f\u3000".toList

theorem isBlankChar_iff {c : Char} : isBlankChar c = true ↔ c ∈ whiteSpace := by
  have hcodes : whiteSpace.map Char.toNat = [0x09, 0x0a, 0x0b, 0x0c, 0x0d, 0x1c, 0x1d, 0x1e, 0x1f,
      0x20, 0x85, 0xa0, 0x1680, 0x2000, 0x2001, 0x2002, 0x2003, 0x2004, 0x2005, 0x2006, 0x2007,
      0x2008, 0x2009, 0x200a, 0x2028, 0x2029, 0x202f, 0x205f, 0x3000] := rfl
  have hinjective : Function.Injective Char.toNat := fun _ _ => Char.toNat_inj.mp
  rw [← List.mem_map_of_injective hinjective, hcodes]
  simp only [isBlankChar, Bool.or_eq_true, Bool.and_eq_true, decide_eq_true_eq, beq_iff_eq,
    List.mem_cons, List.not_mem_nil, or_false]
  omega

theorem isBlank_eq_false_iff {s : Text} : s.isBlank = false ↔ ∃ c ∈ s, c ∉ whiteSpace := by
  simp [isBlank, ← isBlankChar_iff]

end Text

namespace Arguments

/-- The words that an argument leaves. The letters of a group that name no flag make one
word behind a dash of its own. -/
inductive Leaves : Text → List Text → Prop
  | long (flag : Flag) : Leaves flag.longName []
  | flags {letters : Text} (hne : letters ≠ []) (hall : ∀ c ∈ letters, c ∈ ['v', 'p', 'q', 'h']) :
    Leaves ('-' :: letters) []
  | group {letters others : Text} (hdash : letters.head? ≠ some '-')
    (hothers : letters.filter (· ∉ ['v', 'p', 'q', 'h']) = others) (hne : others ≠ []) :
    Leaves ('-' :: letters) ['-' :: others]
  | word {arg : Text} (h : IsWord arg) : Leaves arg [arg]

/-- The words that a list of arguments leaves, in order. -/
inductive LeaveWords : List Text → List Text → Prop
  | nil : LeaveWords [] []
  | terminator (rest : List Text) : LeaveWords (terminator :: rest) rest
  | cons {arg : Text} {args words others : List Text} (hne : arg ≠ terminator)
    (h : Leaves arg words) (hargs : LeaveWords args others) :
    LeaveWords (arg :: args) (words ++ others)

variable {arg : Text} {args words : List Text}

section Argument

theorem ofArgument_of_isWord (h : IsWord arg) : ofArgument arg = .ok (word arg) := by
  rcases argument_cases arg with hvalue | ⟨flag, rfl⟩ | ⟨letters, rfl, hne, hdash⟩ | ⟨-, hword⟩
  · exact absurd hvalue h.not_value
  · exact absurd rfl (h.ne_longName flag)
  · exact absurd (h.not_group letters rfl) (not_or.mpr ⟨hne, hdash⟩)
  · exact hword

theorem filter_notMem_eq_nil_iff {letters known : Text} :
    letters.filter (· ∉ known) = [] ↔ ∀ c ∈ letters, c ∈ known := by
  simp [List.filter_eq_nil_iff]

theorem Leaves.ofArgument (h : Leaves arg words) :
    ∃ flags, Arguments.ofArgument arg = .ok ⟨flags, words⟩ := by
  cases h with
  | long flag => exact ⟨_, ofArgument_longName flag⟩
  | @flags letters hne hall =>
    rw [ofArgument_group hne (head?_ne_dash hall (by decide)), ofGroup, filter_isNone_ofLetter?,
      filter_notMem_eq_nil_iff.mpr hall]
    exact ⟨_, rfl⟩
  | @group letters others hdash hothers hne =>
    have hletters : letters ≠ [] := by
      rintro rfl
      exact hne hothers.symm
    rw [ofArgument_group hletters hdash, ofGroup, filter_isNone_ofLetter?, hothers]
    obtain ⟨c, rest, rfl⟩ := List.exists_cons_of_ne_nil hne
    exact ⟨_, rfl⟩
  | word h => exact ⟨[], ofArgument_of_isWord h⟩

/-- What an argument leaves is settled unless it gives a value to a flag. -/
theorem exists_leaves (h : ¬GivesValue arg) : ∃ words, Leaves arg words := by
  rcases argument_cases arg with hvalue | ⟨flag, rfl⟩ | ⟨letters, rfl, hne, hdash⟩ | ⟨hword, -⟩
  · exact absurd hvalue h
  · exact ⟨[], .long flag⟩
  · by_cases hothers : letters.filter (· ∉ ['v', 'p', 'q', 'h']) = []
    · exact ⟨[], .flags hne (filter_notMem_eq_nil_iff.mp hothers)⟩
    · exact ⟨_, .group hdash rfl hothers⟩
  · exact ⟨_, .word hword⟩

end Argument

section List

theorem LeaveWords.ofList (h : LeaveWords args words) :
    ∃ flags, Arguments.ofList args = .ok ⟨flags, words⟩ := by
  induction h with
  | nil => exact ⟨[], rfl⟩
  | terminator rest => exact ⟨[], rfl⟩
  | cons hne h hargs ih =>
    obtain ⟨first, hfirst⟩ := h.ofArgument
    obtain ⟨others, hothers⟩ := ih
    rw [ofList_cons hne, hfirst, hothers]
    exact ⟨first ++ others, rfl⟩

theorem exists_leaveWords (h : ¬∃ arg ∈ options args, GivesValue arg) :
    ∃ words, LeaveWords args words := by
  induction args with
  | nil => exact ⟨[], .nil⟩
  | cons arg args ih =>
    by_cases hend : arg = terminator
    · exact ⟨args, hend ▸ .terminator args⟩
    · rw [options_cons hend, List.exists_mem_cons_iff, not_or] at h
      obtain ⟨words, hwords⟩ := exists_leaves h.1
      obtain ⟨others, hothers⟩ := ih h.2
      exact ⟨words ++ others, .cons hend hwords hothers⟩

end List

end Arguments

/-- The first line of the input is the words with single spaces between them, and it holds
something besides white space. -/
inductive StandardInput.HasLine : StandardInput → List Text → Prop
  | text {words : List Text} {after : Text} (hne : words ≠ [])
    (hwords : ∀ w ∈ words, Command.IsLineWord w)
    (hseen : ∃ c ∈ [' '].intercalate words, c ∉ Text.whiteSpace)
    (hafter : Command.LineEnd after) : HasLine (.text ([' '].intercalate words ++ after)) words

/-- The words that the input supplies, if any. -/
inductive StandardInput.Supplies (input : StandardInput) : Option (List Text) → Prop
  | words {words : List Text} (h : input.HasLine words) : Supplies input (some words)
  | nothing (h : ∀ words, ¬input.HasLine words) : Supplies input none

theorem StandardInput.exists_supplies (input : StandardInput) : ∃ words, input.Supplies words := by
  by_cases h : ∃ words, input.HasLine words
  · obtain ⟨words, hwords⟩ := h
    exact ⟨some words, .words hwords⟩
  · exact ⟨none, .nothing (not_exists.mp h)⟩

namespace Command

open Arguments (LeaveWords options GivesValue Asks)
open Text (joinWords)

/-- The words that are to be evaluated, if any: those that the arguments leave, and only
without any those of the input. -/
inductive Supplied (input : StandardInput) (args : List Text) : Option (List Text) → Prop
  | arguments {words : List Text} (hne : words ≠ []) (hargs : LeaveWords args words) :
    Supplied input args (some words)
  | input {words : Option (List Text)} (hargs : LeaveWords args []) (hinput : input.Supplies words) :
    Supplied input args words

theorem exists_supplied (input : StandardInput) {args : List Text}
    (h : ¬∃ arg ∈ options args, GivesValue arg) : ∃ words, Supplied input args words := by
  obtain ⟨words, hargs⟩ := Arguments.exists_leaveWords h
  by_cases hne : words = []
  · obtain ⟨supplied, hinput⟩ := input.exists_supplies
    exact ⟨supplied, .input (hne ▸ hargs) hinput⟩
  · exact ⟨some words, .arguments hne hargs⟩

section Input

/-- Behind the first line there is a line end or nothing. -/
theorem exists_lineEnd (s : Text) : ∃ after, s = Text.firstLine s ++ after ∧ LineEnd after := by
  refine ⟨s.dropWhile (!Text.isLineEnd ·), List.takeWhile_append_dropWhile.symm, ?_⟩
  have hhead := List.head?_dropWhile_not (!Text.isLineEnd ·) s
  cases hafter : s.dropWhile (!Text.isLineEnd ·) with
  | nil => exact .inl rfl
  | cons c rest =>
    rw [hafter] at hhead
    simp only [List.head?_cons, Text.isLineEnd, Bool.not_eq_false', Bool.or_eq_true,
      beq_iff_eq] at hhead
    rcases hhead with rfl | rfl
    · exact .inr ⟨"\r".toList, by decide, rest, rfl⟩
    · exact .inr ⟨"\n".toList, by decide, rest, rfl⟩

theorem isLineWord_of_mem_splitWords {s word : Text}
    (h : word ∈ Text.splitWords (Text.firstLine s)) : IsLineWord word := by
  intro c hc
  have hline : c ∈ joinWords (Text.splitWords (Text.firstLine s)) :=
    Text.mem_intercalate_of_mem ' ' h hc
  rw [Text.joinWords_splitWords_firstLine] at hline
  have hend := Text.isLineEnd_of_mem_firstLine hline
  have hspace : ' ' ∉ word := (Text.formLine_splitWords _).space_not_mem word h
  simp only [Text.isLineEnd, Bool.or_eq_false_iff, beq_eq_false_iff_ne] at hend
  exact ⟨fun heq => hspace (heq ▸ hc), hend⟩

/-- The words of the input are those that its first line is joined from. -/
theorem wordsOfInput?_eq_some_iff {s : Text} {words : List Text} :
    wordsOfInput? s = some words ↔ StandardInput.HasLine (.text s) words := by
  constructor
  · intro h
    unfold wordsOfInput? at h
    dsimp only at h
    split_ifs at h with hblank
    cases h
    rw [Bool.not_eq_true, Text.isBlank_eq_false_iff] at hblank
    obtain ⟨after, hs, hafter⟩ := exists_lineEnd s
    -- The first line has no line end to lose, so its pieces join to all of it.
    have hjoin := Text.joinWords_splitWords_firstLine s
    rw [← hjoin] at hs hblank
    have hwords : StandardInput.HasLine (.text (joinWords _ ++ after)) _ :=
      .text (Text.splitWords_ne_nil _) (fun _ => isLineWord_of_mem_splitWords) hblank hafter
    rwa [← hs] at hwords
  · rintro ⟨hne, hwords, hseen, hafter⟩
    exact wordsOfInput?_joinWords hne hwords (Text.isBlank_eq_false_iff.mpr hseen) hafter

theorem wordsOfInput?_of_supplies {s : Text} {supplied : Option (List Text)}
    (h : (StandardInput.text s).Supplies supplied) : wordsOfInput? s = supplied := by
  cases h with
  | words h => exact wordsOfInput?_eq_some_iff.mpr h
  | nothing h =>
    refine Option.eq_none_iff_forall_ne_some.mpr fun words hwords => ?_
    exact h words (wordsOfInput?_eq_some_iff.mp hwords)

end Input

/-- Without a request for help, the words that the arguments leave are to be evaluated. -/
theorem Request.ofArguments_of_leaveWords {args words : List Text}
    (hwords : LeaveWords args words) (hhelp : ¬Asks .help args) :
    ∃ settings, Request.ofArguments args = .ofWords settings words := by
  obtain ⟨flags, hread⟩ := hwords.ofList
  have hmem : flags.contains .help = false := by
    rw [← Bool.not_eq_true, List.contains_iff_mem, Arguments.mem_flags_iff hread]
    exact hhelp
  refine ⟨.ofFlags flags, ?_⟩
  rw [ofArguments, hread]
  simp only [hmem, ofWords]
  cases words <;> rfl

end Command

end ReversePolish
