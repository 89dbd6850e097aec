import ReversePolish.Proofs.CommandLine.Arguments
import Mathlib.Data.List.Perm.Basic

/-! Flags may stand anywhere. Arguments that mix known words with flags are understood as
those words, in their order, under the settings that the flags give, however the two are
mixed; what follows the terminator is taken as it stands. A group of letters gives the
flags that its letters name and one word of all its other letters. -/

namespace ReversePolish

open Token (IsKnown)

namespace Arguments

/-- The arguments that are nothing but flags: a long name, or a group of their letters. -/
inductive FlagArgument : Text → Prop
  | long (name : Text)
    (h : name ∈ ["--verbose".toList, "--stats".toList, "--plain".toList, "--quiet".toList]) :
    FlagArgument name
  | short (letters : Text) (hne : letters ≠ []) (h : ∀ c ∈ letters, c ∈ ['v', 'p', 'q']) :
    FlagArgument ('-' :: letters)

/-- The words and the flags, each in order, make up the arguments. -/
inductive Interleaved : List Text → List Text → List Text → Prop
  | nil : Interleaved [] [] []
  | word {words flags args : List Text} (w : Text) (h : Interleaved words flags args) :
    Interleaved (w :: words) flags (w :: args)
  | flag {words flags args : List Text} (a : Text) (h : Interleaved words flags args) :
    Interleaved words (a :: flags) (a :: args)

/-- The letters of a short group. Other arguments are no group and have none. -/
def groupLetters : Text → Text
  | '-' :: c :: letters => if c = '-' then [] else c :: letters
  | _ => []

/-- The end of the arguments: the terminator with what follows it, or nothing. -/
def ending : Option (List Text) → List Text
  | some rest => terminator :: rest
  | none => []

/-- The flag of a letter in a group that does not ask for help. -/
def groupFlag? : Char → Option Flag
  | 'v' => some .verbose
  | 'p' => some .plain
  | 'q' => some .quiet
  | _ => none

/-- What a group of letters gives: flags, and all other letters as one word. -/
def ofLetters (letters : Text) : Arguments :=
  let others := letters.filter (· ∉ ['v', 'p', 'q'])
  ⟨letters.filterMap groupFlag?, if others = [] then [] else ['-' :: others]⟩

end Arguments

open Arguments

/-- The settings that flags give. -/
def Settings.given (flags : List Text) : Settings where
  verbosity := (flags.count "--verbose".toList + (flags.flatMap groupLetters).count 'v' : Nat)
  statistics := "--stats".toList ∈ flags
  plain := "--plain".toList ∈ flags ∨ 'p' ∈ flags.flatMap groupLetters
  quiet := "--quiet".toList ∈ flags ∨ 'q' ∈ flags.flatMap groupLetters

namespace Arguments

section Flags

/-- The flags of an argument that is nothing but flags. -/
def flagsOf (arg : Text) : List Flag :=
  (Flag.ofLongName? arg).toList ++ (groupLetters arg).filterMap Flag.ofLetter?

theorem groupLetters_cons {letters : Text} (hdash : letters.head? ≠ some '-') :
    groupLetters ('-' :: letters) = letters := by
  cases letters with
  | nil => rfl
  | cons c letters =>
    rw [groupLetters, if_neg]
    simpa using hdash

theorem flagsOf_group {letters : Text} (hdash : letters.head? ≠ some '-') :
    flagsOf ('-' :: letters) = letters.filterMap Flag.ofLetter? := by
  rw [flagsOf, groupLetters_cons hdash, Flag.ofLongName?_eq_none (not_doubleDash hdash)]
  rfl

theorem ofArgument_of_flagArgument {arg : Text} (h : FlagArgument arg) :
    ofArgument arg = .ok ⟨flagsOf arg, []⟩ := by
  cases h with
  | long name h =>
    simp only [List.mem_cons, List.not_mem_nil, or_false] at h
    rcases h with rfl | rfl | rfl | rfl <;> rfl
  | short letters hne h =>
    have hdash := head?_ne_dash h (by decide)
    have hrest : letters.filter (fun c => (Flag.ofLetter? c).isNone) = [] := by
      have hsome : ∀ c ∈ ['v', 'p', 'q'], (Flag.ofLetter? c).isNone = false :=
        List.all_iff_forall_prop.mp (by decide)
      exact List.filter_eq_nil_iff.mpr fun c hc => by simp [hsome c (h c hc)]
    rw [ofArgument_group hne hdash, ofGroup, hrest, flagsOf_group hdash]

theorem help_not_mem_flagsOf {arg : Text} (h : FlagArgument arg) : .help ∉ flagsOf arg := by
  cases h with
  | long name h =>
    have hall : ∀ name ∈ ["--verbose".toList, "--stats".toList, "--plain".toList, "--quiet".toList],
        Flag.help ∉ flagsOf name := by decide
    exact hall arg h
  | short letters hne h =>
    rw [flagsOf_group (head?_ne_dash h (by decide)), List.mem_filterMap]
    rintro ⟨c, hc, hhelp⟩
    have hall : ∀ c ∈ ['v', 'p', 'q'], Flag.ofLetter? c ≠ some .help :=
      List.all_iff_forall_prop.mp (by decide)
    exact hall c (h c hc) hhelp

theorem count_flagsOf (flag : Flag) (arg : Text) :
    (flagsOf arg).count flag = (if arg == flag.longName then 1 else 0) +
      (groupLetters arg).countP (flag.letter? == some ·) := by
  rw [flagsOf, List.count_append, List.count_filterMap]
  congr 1
  · cases hname : Flag.ofLongName? arg with
    | none =>
      have hne : arg ≠ flag.longName := fun h => by
        rw [Flag.ofLongName?_eq_some_iff.mpr h] at hname
        cases hname
      simp [hne]
    | some other =>
      rw [Flag.ofLongName?_eq_some_iff] at hname
      simp [hname, Flag.longName_injective.eq_iff, List.count_singleton]
  · refine List.countP_congr fun c _ => ?_
    rw [beq_iff_eq, beq_iff_eq, Flag.ofLetter?_eq_some_iff]

/-- Each flag is counted by its long name and by its letter. -/
theorem count_flatMap_flagsOf (flag : Flag) (args : List Text) :
    (args.flatMap flagsOf).count flag = args.count flag.longName +
      (args.flatMap groupLetters).countP (flag.letter? == some ·) := by
  induction args with
  | nil => rfl
  | cons arg args ih =>
    rw [List.flatMap_cons, List.flatMap_cons, List.count_append, List.countP_append, ih,
      count_flagsOf, List.count_cons]
    omega

theorem count_of_letter {flag : Flag} {letter : Char} (h : flag.letter? = some letter)
    (args : List Text) :
    (args.flatMap flagsOf).count flag =
      args.count flag.longName + (args.flatMap groupLetters).count letter := by
  rw [count_flatMap_flagsOf, List.count, List.count]
  refine congrArg _ (List.countP_congr fun c _ => ?_)
  rw [h, beq_iff_eq, beq_iff_eq, Option.some.injEq, eq_comm]

theorem contains_of_letter {flag : Flag} {letter : Char} (h : flag.letter? = some letter)
    (args : List Text) :
    (args.flatMap flagsOf).contains flag =
      decide (flag.longName ∈ args ∨ letter ∈ args.flatMap groupLetters) := by
  rw [List.contains_eq_mem, decide_eq_decide, ← List.count_pos_iff, count_of_letter h,
    Nat.add_pos_iff_pos_or_pos, List.count_pos_iff, List.count_pos_iff]

theorem contains_of_no_letter {flag : Flag} (h : flag.letter? = none) (args : List Text) :
    (args.flatMap flagsOf).contains flag = decide (flag.longName ∈ args) := by
  have hnone : (args.flatMap groupLetters).countP (flag.letter? == some ·) = 0 :=
    List.countP_eq_zero.mpr fun c _ => by simp [h]
  rw [List.contains_eq_mem, decide_eq_decide, ← List.count_pos_iff, count_flatMap_flagsOf, hnone,
    Nat.add_zero, List.count_pos_iff]

theorem ofFlags_flatMap_flagsOf (args : List Text) :
    Settings.ofFlags (args.flatMap flagsOf) = Settings.given args := by
  have hverbose : Flag.letter? .verbose = some 'v' := rfl
  have hplain : Flag.letter? .plain = some 'p' := rfl
  have hquiet : Flag.letter? .quiet = some 'q' := rfl
  have hstatistics : Flag.letter? .statistics = none := rfl
  rw [Settings.ofFlags, count_of_letter hverbose, contains_of_letter hplain,
    contains_of_letter hquiet, contains_of_no_letter hstatistics]
  rfl

end Flags

section Interleaved

variable {words flags args : List Text}

theorem FlagArgument.ne_terminator {arg : Text} (h : FlagArgument arg) : arg ≠ terminator := by
  rintro rfl
  cases h with
  | long name h => exact absurd h (by decide)
  | short letters hne h => exact absurd (h '-' List.mem_cons_self) (by decide)

theorem not_isKnown_terminator : ¬IsKnown terminator := fun h => h.of_dash.1 rfl

theorem help_not_mem_flatMap (h : ∀ a ∈ flags, FlagArgument a) :
    .help ∉ flags.flatMap flagsOf := by
  rw [List.mem_flatMap]
  rintro ⟨a, ha, hhelp⟩
  exact help_not_mem_flagsOf (h a ha) hhelp

/-- Arguments that mix known words with flags are read as those words and flags. -/
theorem Interleaved.ofList (h : Interleaved words flags args) (hwords : ∀ w ∈ words, IsKnown w)
    (hflags : ∀ a ∈ flags, FlagArgument a) :
    terminator ∉ args ∧ ofList args = .ok ⟨flags.flatMap flagsOf, words⟩ := by
  induction h with
  | nil => exact ⟨List.not_mem_nil, rfl⟩
  | word w h ih =>
    obtain ⟨hw, hwords⟩ := List.forall_mem_cons.mp hwords
    obtain ⟨hargs, hread⟩ := ih hwords hflags
    have hne : w ≠ terminator := fun heq => not_isKnown_terminator (heq ▸ hw)
    refine ⟨by simp [hne.symm, hargs], ?_⟩
    rw [ofList_cons hne, ofArgument_of_isKnown hw, hread]
    rfl
  | flag a h ih =>
    obtain ⟨ha, hflags⟩ := List.forall_mem_cons.mp hflags
    obtain ⟨hargs, hread⟩ := ih hwords hflags
    refine ⟨by simp [ha.ne_terminator.symm, hargs], ?_⟩
    rw [ofList_cons ha.ne_terminator, ofArgument_of_flagArgument ha, hread]
    rfl

theorem ofList_append_ending {a : Arguments} (hargs : terminator ∉ args) (h : ofList args = .ok a)
    (rest : Option (List Text)) :
    Arguments.ofList (args ++ ending rest) = .ok ⟨a.flags, a.words ++ rest.getD []⟩ := by
  rw [ofList_append hargs, h]
  cases rest with
  | none => exact congrArg Except.ok (congrArg₂ mk (List.append_nil _) rfl)
  | some rest => exact congrArg Except.ok (congrArg₂ mk (List.append_nil _) rfl)

end Interleaved

section Group

theorem ofLetter?_eq_groupFlag? {c : Char} (h : c ≠ 'h') : Flag.ofLetter? c = groupFlag? c := by
  unfold groupFlag?
  split
  · rfl
  · rfl
  · rfl
  · rename_i hv hp hq
    have hletters : Flag.letters = ['v', 'p', 'q', 'h'] := rfl
    rw [Flag.ofLetter?_eq_none_iff, hletters]
    simpa [h] using ⟨hv, hp, hq⟩

theorem ofGroup_eq_ofLetters {letters : Text} (h : 'h' ∉ letters) :
    ofGroup letters = ofLetters letters := by
  have hflag : ∀ c ∈ letters, Flag.ofLetter? c = groupFlag? c := fun c hc =>
    ofLetter?_eq_groupFlag? fun heq => h (heq ▸ hc)
  have hrest : letters.filter (fun c => (Flag.ofLetter? c).isNone) =
      letters.filter (· ∉ ['v', 'p', 'q']) := by
    rw [filter_isNone_ofLetter?]
    refine List.filter_congr fun c hc => ?_
    have hc : c ≠ 'h' := fun heq => h (heq ▸ hc)
    simp [hc]
  rw [ofGroup, ofLetters, hrest, List.filterMap_congr hflag]
  cases letters.filter (· ∉ ['v', 'p', 'q']) <;> rfl

/-- Before the terminator a group gives its flags and its word wherever it stands. -/
theorem ofList_group {earlier : List Text} {letters : Text} (hearlier : terminator ∉ earlier)
    (hne : letters ≠ []) (hdash : letters.head? ≠ some '-') (hhelp : 'h' ∉ letters)
    (later : List Text) :
    ofList (earlier ++ ('-' :: letters) :: later) = do
      let first ← ofList earlier
      let others ← ofList later
      return first ++ ofLetters letters ++ others := by
  have hterminator : '-' :: letters ≠ terminator := by
    intro heq
    rw [terminator] at heq
    exact hdash ((List.cons.inj heq).2 ▸ rfl)
  rw [ofList_append hearlier, ofList_cons hterminator, ofArgument_group hne hdash,
    ofGroup_eq_ofLetters hhelp]
  cases ofList earlier with
  | error e => rfl
  | ok first =>
    cases ofList later with
    | error e => rfl
    | ok others => exact congrArg Except.ok (append_assoc ..).symm

end Group

end Arguments

namespace Command

/-- What is evaluated under the settings: the words, or a line of input if there are none. -/
def Request.ofWords (settings : Settings) (words : List Text) : Request :=
  if words = [] then .evaluateInput settings else .evaluate settings words

theorem Request.ofArguments_of_ofList {args words : List Text} {flags : List Text}
    (hflags : ∀ a ∈ flags, FlagArgument a)
    (h : Arguments.ofList args = .ok ⟨flags.flatMap flagsOf, words⟩) :
    Request.ofArguments args = .ofWords (.given flags) words := by
  have hhelp : (flags.flatMap flagsOf).contains .help = false := by
    simpa using help_not_mem_flatMap hflags
  rw [ofArguments, h]
  simp only [hhelp, ofFlags_flatMap_flagsOf, ofWords]
  cases words <;> rfl

theorem Request.ofArguments_of_interleaved {words flags args : List Text}
    (hwords : ∀ w ∈ words, IsKnown w) (hflags : ∀ a ∈ flags, FlagArgument a)
    (h : Interleaved words flags args) (rest : Option (List Text)) :
    Request.ofArguments (args ++ ending rest) =
      .ofWords (.given flags) (words ++ rest.getD []) := by
  obtain ⟨hargs, hread⟩ := h.ofList hwords hflags
  exact ofArguments_of_ofList hflags (ofList_append_ending hargs hread rest)

/-- Only the settings that the flags give together matter, not their order. -/
theorem given_perm {flags flags' : List Text} (h : flags.Perm flags') :
    Settings.given flags = .given flags' := by
  have hletters := h.flatMap_right groupLetters
  simp only [Settings.given, h.count_eq, hletters.count_eq, h.mem_iff, hletters.mem_iff]

/-- Known words and flags may be mixed in any way before the terminator. The words are
evaluated in their order, followed by all that stands behind the terminator, under the
settings that the flags give; where the flags stand, and in which order, changes nothing.
A group of letters among any other arguments gives the flags that its letters name, and
the other letters as one word. -/
theorem flags_stand_anywhere :
    (∀ {words flags args : List Text}, (∀ w ∈ words, IsKnown w) →
      (∀ a ∈ flags, FlagArgument a) → Interleaved words flags args →
      ∀ rest : Option (List Text), Request.ofArguments (args ++ ending rest) =
        .ofWords (.given flags) (words ++ rest.getD [])) ∧
    (∀ {words flags flags' args args' : List Text}, (∀ w ∈ words, IsKnown w) →
      (∀ a ∈ flags, FlagArgument a) → flags.Perm flags' → Interleaved words flags args →
      Interleaved words flags' args' → ∀ (rest : Option (List Text)) (input : StandardInput),
        run input (args ++ ending rest) = run input (args' ++ ending rest)) ∧
    ∀ {earlier later : List Text} {letters : Text}, terminator ∉ earlier → letters ≠ [] →
      letters.head? ≠ some '-' → 'h' ∉ letters →
      Arguments.ofList (earlier ++ ('-' :: letters) :: later) = do
        let first ← Arguments.ofList earlier
        let others ← Arguments.ofList later
        return first ++ ofLetters letters ++ others := by
  refine ⟨Request.ofArguments_of_interleaved, ?_, fun hearlier hne hdash hhelp =>
    ofList_group hearlier hne hdash hhelp _⟩
  intro words flags flags' args args' hwords hflags hperm h h' rest input
  have hflags' : ∀ a ∈ flags', FlagArgument a := fun a ha => hflags a (hperm.mem_iff.mpr ha)
  rw [run, run, Request.ofArguments_of_interleaved hwords hflags h,
    Request.ofArguments_of_interleaved hwords hflags' h', given_perm hperm]

/-- A group of flags, a negative number, a long name and a capital symbol in two orders,
and a group that holds flags and a number. -/
theorem flags_stand_anywhere_mixed :
    let words := ["-5".toList, "PI".toList]
    let args := ["-vpv".toList, "-5".toList, "--stats".toList, "PI".toList]
    let args' := ["-5".toList, "PI".toList, "--stats".toList, "-vpv".toList]
    let rest := some ["--".toList, "-q".toList]
    Request.ofArguments (args ++ ending rest) =
        .evaluate ⟨2, true, true, false⟩ (words ++ ["--".toList, "-q".toList]) ∧
      run .unavailable (args ++ ending rest) = run .unavailable (args' ++ ending rest) ∧
      Arguments.ofList ["1".toList, "-p-5v".toList, "--".toList] =
        .ok ⟨[.plain, .verbose], ["1".toList, "--5".toList]⟩ := by
  intro words args args' rest
  have hwords : ∀ w ∈ words, IsKnown w := by
    have hfive : Literal.ofWord? "-5".toList = some (.decimal ⟨true, ['5'], [], false, []⟩) := rfl
    have hpi : Text.spells "PI".toList "pi".toList := rfl
    refine List.forall_mem_cons.mpr ⟨?_, List.forall_mem_singleton.mpr ?_⟩
    · exact .inr (Grammar.mem_literal_matches.mpr ⟨_, Literal.ofWord?_eq_some_iff.mp hfive⟩)
    · exact .inl ⟨("pi".toList, .constant .pi), List.mem_cons_self,
        (Text.spells_iff (by decide)).mp hpi⟩
  have hflags : ∀ a ∈ ["-vpv".toList, "--stats".toList], FlagArgument a := by
    refine List.forall_mem_cons.mpr ⟨?_, List.forall_mem_singleton.mpr ?_⟩
    · exact .short "vpv".toList (by decide) (List.all_iff_forall_prop.mp (by decide))
    · exact .long _ (by decide)
  have hargs : Interleaved words ["-vpv".toList, "--stats".toList] args :=
    .flag _ (.word _ (.flag _ (.word _ .nil)))
  have hargs' : Interleaved words ["--stats".toList, "-vpv".toList] args' :=
    .word _ (.word _ (.flag _ (.flag _ .nil)))
  obtain ⟨hrequest, hplace, hgroup⟩ := flags_stand_anywhere
  refine ⟨hrequest hwords hflags hargs rest, ?_, ?_⟩
  · exact hplace hwords hflags (.swap _ _ _) hargs hargs' rest .unavailable
  · have hread := @hgroup ["1".toList] ["--".toList] "p-5v".toList (by decide) (by decide)
      (by decide) (by decide)
    exact hread

end Command

end ReversePolish
