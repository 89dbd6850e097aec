import ReversePolish.CommandLine.Basic
import ReversePolish.Proofs.Token.Known
import Mathlib.Data.Bool.AllAny

/-! Reading one argument after the other. What an argument gives does not depend on the
others as long as it stands before the terminator. A known word gives itself: the only
ones that are read letter by letter are those that start with a dash, and none of their
letters names a flag. -/

namespace ReversePolish

open Token (IsKnown)

namespace Flag

theorem dashes_prefixOf_longName (flag : Flag) : ['-', '-'] <+: flag.longName := by
  cases flag <;> exact ⟨_, rfl⟩

theorem ofLongName?_eq_some_iff {name : Text} {flag : Flag} :
    ofLongName? name = some flag ↔ name = flag.longName := by
  constructor
  · intro h
    have hname := List.find?_some h
    exact (eq_of_beq hname).symm
  · rintro rfl
    cases flag <;> rfl

theorem longName_injective : Function.Injective longName := by
  intro flag other h
  have hother := ofLongName?_eq_some_iff.mpr h
  rw [ofLongName?_eq_some_iff.mpr rfl] at hother
  exact Option.some.inj hother

/-- Every long name starts with two dashes. -/
theorem ofLongName?_eq_none {name : Text} (h : ¬['-', '-'] <+: name) : ofLongName? name = none := by
  rw [Option.eq_none_iff_forall_ne_some]
  intro flag hflag
  rw [ofLongName?_eq_some_iff] at hflag
  exact h (hflag ▸ flag.dashes_prefixOf_longName)

theorem ofLetter?_eq_some_iff {c : Char} {flag : Flag} :
    ofLetter? c = some flag ↔ flag.letter? = some c := by
  constructor
  · intro h
    have hletter := List.find?_some h
    exact eq_of_beq hletter
  · intro h
    cases flag <;> cases h <;> rfl

/-- The letters that name flags. -/
def letters : List Char := all.filterMap letter?

theorem ofLetter?_eq_none_iff {c : Char} : ofLetter? c = none ↔ c ∉ letters := by
  simp [ofLetter?, letters]

end Flag

namespace Arguments

theorem append_assoc (a b c : Arguments) : a ++ b ++ c = a ++ (b ++ c) :=
  congrArg₂ mk (List.append_assoc ..) (List.append_assoc ..)

/-- The argument after which no flag is looked for. -/
def terminator : Text := "--".toList

section List

theorem ofList_cons {arg : Text} (h : arg ≠ terminator) (rest : List Text) :
    ofList (arg :: rest) = do
      let first ← ofArgument arg
      let others ← ofList rest
      return first ++ others := by
  rw [ofList]
  exact if_neg h

/-- Arguments before the terminator are read one by one, with no regard to what follows. -/
theorem ofList_append {before : List Text} (h : terminator ∉ before) (after : List Text) :
    ofList (before ++ after) = do
      let first ← ofList before
      let others ← ofList after
      return first ++ others := by
  induction before with
  | nil =>
    cases hafter : ofList after <;> simp only [List.nil_append, hafter] <;> rfl
  | cons arg before ih =>
    rw [List.mem_cons, not_or] at h
    rw [List.cons_append, ofList_cons (Ne.symm h.1), ofList_cons (Ne.symm h.1), ih h.2]
    cases ofArgument arg with
    | error e => rfl
    | ok a =>
      cases ofList before with
      | error e => rfl
      | ok b =>
        cases ofList after with
        | error e => rfl
        | ok c => exact congrArg Except.ok (append_assoc a b c).symm

end List

section Argument

theorem ofLongName?_takeWhile {arg : Text} (h : ¬['-', '-'] <+: arg) :
    Flag.ofLongName? (arg.takeWhile (· != '=')) = none :=
  Flag.ofLongName?_eq_none fun hdashes => h (hdashes.trans (List.takeWhile_prefix _))

theorem not_doubleDash {letters : Text} (hdash : letters.head? ≠ some '-') :
    ¬['-', '-'] <+: '-' :: letters := by
  intro hdashes
  obtain ⟨rest, rfl⟩ := (List.cons_prefix_cons.mp hdashes).2
  exact hdash rfl

theorem head?_ne_dash {letters known : Text} (h : ∀ c ∈ letters, c ∈ known) (hdash : '-' ∉ known) :
    letters.head? ≠ some '-' :=
  fun hhead => hdash (h _ (List.mem_of_head? hhead))

/-- A single dash with letters is a group. -/
theorem ofArgument_group {letters : Text} (hne : letters ≠ []) (hdash : letters.head? ≠ some '-') :
    ofArgument ('-' :: letters) = .ok (ofGroup letters) := by
  obtain ⟨c, letters, rfl⟩ := List.exists_cons_of_ne_nil hne
  have hc : c ≠ '-' := by simpa using hdash
  have hnone := ofLongName?_takeWhile (not_doubleDash hdash)
  unfold ofArgument
  rw [hnone]
  split <;> simp_all

theorem ofArgument_of_head {arg : Text} (h : arg.head? ≠ some '-') :
    ofArgument arg = .ok (word arg) := by
  have hnone : Flag.ofLongName? (arg.takeWhile (· != '=')) = none := by
    refine ofLongName?_takeWhile fun hdashes => h ?_
    obtain ⟨rest, rfl⟩ := hdashes
    rfl
  unfold ofArgument
  rw [hnone]
  split <;> simp_all

/-- Only a flag that is given a value is refused. -/
theorem exists_flag_of_ofArgument_error {arg : Text} {e : UsageError}
    (h : ofArgument arg = .error e) : ∃ flag : Flag, e = .valueForFlag flag.longName := by
  unfold ofArgument at h
  split at h
  · split at h
    · cases h
      exact ⟨_, rfl⟩
    · cases h
  all_goals cases h

theorem exists_flag_of_ofList_error {args : List Text} {e : UsageError}
    (h : ofList args = .error e) : ∃ flag : Flag, e = .valueForFlag flag.longName := by
  induction args with
  | nil => cases h
  | cons arg rest ih =>
    by_cases hend : arg = terminator
    · subst hend
      cases h
    · rw [ofList_cons hend] at h
      cases harg : ofArgument arg with
      | error e' =>
        rw [harg] at h
        cases h
        exact exists_flag_of_ofArgument_error harg
      | ok first =>
        rw [harg] at h
        cases hrest : ofList rest with
        | error e' =>
          rw [hrest] at h
          cases h
          exact ih hrest
        | ok others =>
          rw [hrest] at h
          cases h

/-- The letters of a group that stay in its word. -/
theorem filter_isNone_ofLetter? (letters : Text) :
    letters.filter (fun c => (Flag.ofLetter? c).isNone) =
      letters.filter (· ∉ ['v', 'p', 'q', 'h']) := by
  refine List.filter_congr fun c _ => Bool.eq_iff_iff.mpr ?_
  rw [Option.isNone_iff_eq_none, Flag.ofLetter?_eq_none_iff, decide_eq_true_iff]
  rfl

/-- The letters of a group that names no flag all stay in its word. -/
theorem ofGroup_of_no_flag {letters : Text} (hne : letters ≠ [])
    (h : ∀ c ∈ letters, c ∉ Flag.letters) : ofGroup letters = word ('-' :: letters) := by
  have hnone : ∀ c ∈ letters, Flag.ofLetter? c = none := fun c hc =>
    Flag.ofLetter?_eq_none_iff.mpr (h c hc)
  have hflags : letters.filterMap Flag.ofLetter? = [] := List.filterMap_eq_nil_iff.mpr hnone
  have hrest : letters.filter (fun c => (Flag.ofLetter? c).isNone) = letters :=
    List.filter_eq_self.mpr fun c hc => by rw [hnone c hc]; rfl
  rw [ofGroup, hflags, hrest]
  cases letters with
  | nil => exact absurd rfl hne
  | cons c letters => rfl

theorem not_mem_letters_of_mark {c : Char} (h : c.isDigit ∨ c ∈ Token.literalMarks) :
    c ∉ Flag.letters := by
  intro hc
  have hall : ∀ c ∈ Flag.letters, ¬(c.isDigit ∨ c ∈ Token.literalMarks) :=
    List.all_iff_forall_prop.mp (by decide)
  exact hall c hc h

theorem plain_of_mem_letters : ∀ c ∈ Flag.letters, Text.IsPlain c :=
  List.all_iff_forall_prop.mp (by decide)

/-- A known word is read as itself. -/
theorem ofArgument_of_isKnown {w : Text} (h : IsKnown w) : ofArgument w = .ok (word w) := by
  rcases w with _ | ⟨c, body⟩
  · rfl
  · by_cases hc : c = '-'
    · subst hc
      rcases body with _ | ⟨d, body⟩
      · rfl
      · obtain ⟨hhead, hmarks⟩ := h.of_dash
        have hletters : ∀ c ∈ d :: body, c ∉ Flag.letters := fun c hc hletter =>
          not_mem_letters_of_mark (hmarks c hc (plain_of_mem_letters c hletter)) hletter
        rw [ofArgument_group (List.cons_ne_nil _ _) hhead,
          ofGroup_of_no_flag (List.cons_ne_nil _ _) hletters]
    · exact ofArgument_of_head (by simpa using hc)

end Argument

end Arguments

end ReversePolish
