import ReversePolish.Proofs.CommandLine.Arguments

/-! Which arguments set which flags. An argument before the terminator sets a flag by its
long name or by its letter in a group, and it cannot be understood exactly if it gives a
value to a long name. Arguments together set what each of them sets. -/

namespace ReversePolish

namespace Flag

theorem ne_equals_of_mem_longName (flag : Flag) : ∀ c ∈ flag.longName, (c != '=') = true := by
  have hall : flag.longName.all (· != '=') := by cases flag <;> decide
  exact List.all_eq_true.mp hall

theorem longName_ne_group (flag : Flag) {letters : Text} (hdash : letters.head? ≠ some '-') :
    flag.longName ≠ '-' :: letters := by
  intro h
  have hdashes := flag.dashes_prefixOf_longName
  rw [h] at hdashes
  exact Arguments.not_doubleDash hdash hdashes

end Flag

namespace Arguments

/-- The arguments before the terminator. -/
def options (args : List Text) : List Text := args.takeWhile (· != terminator)

/-- The argument is a long name with a value. -/
def GivesValue (arg : Text) : Prop :=
  ∃ (flag : Flag) (value : Text), arg = flag.longName ++ '=' :: value

/-- The argument is the flag's long name, or a group that has the flag's letter. -/
inductive Sets (flag : Flag) : Text → Prop
  | long : Sets flag flag.longName
  | letter {letters : Text} {letter : Char} (hdash : letters.head? ≠ some '-')
    (hname : flag.letter? = some letter) (hmem : letter ∈ letters) : Sets flag ('-' :: letters)

/-- The argument is neither a long name, with or without a value, nor a group. -/
structure IsWord (arg : Text) : Prop where
  not_value : ¬GivesValue arg
  ne_longName : ∀ flag : Flag, arg ≠ flag.longName
  not_group : ∀ letters, arg = '-' :: letters → letters = [] ∨ letters.head? = some '-'

/-- Some argument before the terminator sets the flag. -/
def Asks (flag : Flag) (args : List Text) : Prop := ∃ arg ∈ options args, Sets flag arg

variable {flag : Flag} {arg : Text} {args : List Text}

section Argument

theorem takeWhile_longName (flag : Flag) (value : Text) :
    (flag.longName ++ '=' :: value).takeWhile (· != '=') = flag.longName := by
  rw [List.takeWhile_append_of_pos flag.ne_equals_of_mem_longName]
  simp

theorem IsWord.not_sets (h : IsWord arg) (flag : Flag) : ¬Sets flag arg := by
  intro hsets
  cases hsets with
  | long => exact h.ne_longName flag rfl
  | letter hdash _ hmem =>
    rcases h.not_group _ rfl with rfl | hhead
    · exact List.not_mem_nil hmem
    · exact hdash hhead

theorem ofArgument_of_givesValue (h : GivesValue arg) : ∃ e, ofArgument arg = .error e := by
  obtain ⟨flag, value, rfl⟩ := h
  unfold ofArgument
  rw [takeWhile_longName, Flag.ofLongName?_eq_some_iff.mpr rfl]
  exact ⟨_, if_pos (by simp)⟩

theorem ofArgument_longName (flag : Flag) : ofArgument flag.longName = .ok ⟨[flag], []⟩ := by
  cases flag <;> rfl

/-- An argument is a long name with or without a value, a group, or a word. -/
theorem argument_cases (arg : Text) :
    GivesValue arg ∨ (∃ flag : Flag, arg = flag.longName) ∨
      (∃ letters, arg = '-' :: letters ∧ letters ≠ [] ∧ letters.head? ≠ some '-') ∨
      (IsWord arg ∧ ofArgument arg = .ok (word arg)) := by
  cases hname : Flag.ofLongName? (arg.takeWhile (· != '=')) with
  | some flag =>
    rw [Flag.ofLongName?_eq_some_iff] at hname
    have hsplit := List.takeWhile_append_dropWhile (p := (· != '=')) (l := arg)
    rw [hname] at hsplit
    cases hrest : arg.dropWhile (· != '=') with
    | nil =>
      rw [hrest, List.append_nil] at hsplit
      exact .inr (.inl ⟨flag, hsplit.symm⟩)
    | cons c value =>
      have hc : c = '=' := by
        have hhead := List.head?_dropWhile_not (· != '=') arg
        rw [hrest] at hhead
        simpa using hhead
      subst hc
      rw [hrest] at hsplit
      exact .inl ⟨flag, value, hsplit.symm⟩
  | none =>
    by_cases hgroup : ∃ letters, arg = '-' :: letters ∧ letters ≠ [] ∧ letters.head? ≠ some '-'
    · exact .inr (.inr (.inl hgroup))
    · refine .inr (.inr (.inr ⟨⟨?_, ?_, fun letters harg => ?_⟩, ?_⟩))
      · rintro ⟨flag, value, rfl⟩
        rw [takeWhile_longName, Flag.ofLongName?_eq_some_iff.mpr rfl] at hname
        cases hname
      · rintro flag rfl
        rw [List.takeWhile_eq_self_iff.mpr flag.ne_equals_of_mem_longName,
          Flag.ofLongName?_eq_some_iff.mpr rfl] at hname
        cases hname
      · by_contra hletters
        rw [not_or] at hletters
        exact hgroup ⟨letters, harg, hletters⟩
      · unfold ofArgument
        rw [hname]
        split
        · rename_i heq
          cases heq
        · rfl
        · rename_i c letters hdash _
          exact absurd ⟨_, rfl, List.cons_ne_nil _ _, fun h => hdash (Option.some.inj h)⟩ hgroup
        · rfl

/-- What an argument sets does not depend on the others. -/
theorem mem_flags_of_ofArgument {a : Arguments} (h : ofArgument arg = .ok a) :
    flag ∈ a.flags ↔ Sets flag arg := by
  rcases argument_cases arg with hvalue | ⟨other, rfl⟩ | ⟨letters, rfl, hne, hdash⟩ | ⟨hplain, hword⟩
  · obtain ⟨e, he⟩ := ofArgument_of_givesValue hvalue
    rw [he] at h
    cases h
  · rw [ofArgument_longName] at h
    cases h
    rw [List.mem_singleton]
    constructor
    · rintro rfl
      exact .long
    · generalize hname : other.longName = name
      rintro (_ | ⟨hdash, hletter, hmem⟩)
      · exact (Flag.longName_injective hname).symm
      · exact absurd hname (other.longName_ne_group hdash)
  · rw [ofArgument_group hne hdash] at h
    cases h
    rw [ofGroup, List.mem_filterMap]
    constructor
    · rintro ⟨letter, hmem, hletter⟩
      exact .letter hdash (Flag.ofLetter?_eq_some_iff.mp hletter) hmem
    · generalize hgroup : '-' :: letters = group
      rintro (_ | ⟨hdash', hletter, hmem⟩)
      · exact absurd hgroup.symm (flag.longName_ne_group hdash)
      · cases hgroup
        exact ⟨_, hmem, Flag.ofLetter?_eq_some_iff.mpr hletter⟩
  · rw [hword] at h
    cases h
    exact iff_of_false List.not_mem_nil (hplain.not_sets flag)

theorem ofArgument_eq_error_iff : (∃ e, ofArgument arg = .error e) ↔ GivesValue arg := by
  refine ⟨fun ⟨e, he⟩ => ?_, ofArgument_of_givesValue⟩
  rcases argument_cases arg with hvalue | ⟨other, rfl⟩ | ⟨letters, rfl, hne, hdash⟩ | ⟨-, hword⟩
  · exact hvalue
  · rw [ofArgument_longName] at he
    cases he
  · rw [ofArgument_group hne hdash] at he
    cases he
  · rw [hword] at he
    cases he

end Argument

section List

theorem options_terminator (rest : List Text) : options (terminator :: rest) = [] := by
  simp [options]

theorem options_cons (h : arg ≠ terminator) (rest : List Text) :
    options (arg :: rest) = arg :: options rest := by
  simp [options, h]

/-- The arguments cannot be understood exactly if one of them gives a value to a flag. -/
theorem ofList_eq_error_iff :
    (∃ e, ofList args = .error e) ↔ ∃ arg ∈ options args, GivesValue arg := by
  induction args with
  | nil =>
    refine iff_of_false ?_ ?_
    · rintro ⟨e, ⟨⟩⟩
    · rintro ⟨arg, ⟨⟩, -⟩
  | cons arg rest ih =>
    by_cases hend : arg = terminator
    · subst hend
      rw [options_terminator]
      refine iff_of_false ?_ ?_
      · rintro ⟨e, ⟨⟩⟩
      · rintro ⟨arg, ⟨⟩, -⟩
    · rw [ofList_cons hend, options_cons hend, List.exists_mem_cons_iff, ← ih,
        ← ofArgument_eq_error_iff]
      cases ofArgument arg with
      | error e => exact iff_of_true ⟨e, rfl⟩ (.inl ⟨e, rfl⟩)
      | ok first =>
        cases ofList rest with
        | error e => exact iff_of_true ⟨e, rfl⟩ (.inr ⟨e, rfl⟩)
        | ok others =>
          refine iff_of_false ?_ ?_
          · rintro ⟨e, ⟨⟩⟩
          · rintro (⟨e, ⟨⟩⟩ | ⟨e, ⟨⟩⟩)

/-- The flags of all arguments are those that an argument before the terminator sets. -/
theorem mem_flags_iff {a : Arguments} (h : ofList args = .ok a) :
    flag ∈ a.flags ↔ Asks flag args := by
  induction args generalizing a with
  | nil =>
    cases h
    refine iff_of_false List.not_mem_nil ?_
    rintro ⟨arg, ⟨⟩, -⟩
  | cons arg rest ih =>
    by_cases hend : arg = terminator
    · subst hend
      cases h
      rw [Asks, options_terminator]
      refine iff_of_false List.not_mem_nil ?_
      rintro ⟨arg, ⟨⟩, -⟩
    · rw [ofList_cons hend] at h
      rw [Asks, options_cons hend, List.exists_mem_cons_iff]
      cases hfirst : ofArgument arg with
      | error e =>
        rw [hfirst] at h
        cases h
      | ok first =>
        cases hothers : ofList rest with
        | error e =>
          rw [hfirst, hothers] at h
          cases h
        | ok others =>
          rw [hfirst, hothers] at h
          cases h
          rw [← mem_flags_of_ofArgument hfirst]
          exact List.mem_append.trans (or_congr_right (ih hothers))

end List

end Arguments

end ReversePolish
