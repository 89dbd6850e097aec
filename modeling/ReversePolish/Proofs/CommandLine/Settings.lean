import ReversePolish.Proofs.CommandLine.Conclusion
import ReversePolish.Proofs.CommandLine.Input
import ReversePolish.Proofs.Session.Silence

/-! Settings decide what is reported and nothing else. Under any settings the same words have
the same result, exit code and error, in a session as on the command line. Reports are only
ever added: the lines of the silent settings are among those of all others. -/

namespace ReversePolish

open Arguments (FlagArgument ending terminator)

namespace Command

/-- The two end in the same error, or they exit with the same code and write the same result,
whatever time they took and wherever they write to. -/
inductive SameResult : Except LiteralError Answer → Except LiteralError Answer → Prop
  | error (e : LiteralError) : SameResult (.error e) (.error e)
  | answer (a b : Answer) (hexit : a.exitCode = b.exitCode)
    (hresult : ∀ milliseconds milliseconds' terminal terminal',
      a.transcript milliseconds terminal .result = b.transcript milliseconds' terminal' .result) :
    SameResult (.ok a) (.ok b)

/-- The lines that the first reports are lines that the second reports, in the same order. -/
inductive ReportsWithin : Except LiteralError Answer → Except LiteralError Answer → Prop
  | error (e : LiteralError) : ReportsWithin (.error e) (.error e)
  | answer (a b : Answer) (hlines : ∀ milliseconds milliseconds' terminal,
      (Text.lines (a.transcript milliseconds terminal .report)).Sublist
        (Text.lines (b.transcript milliseconds' terminal .report))) : ReportsWithin (.ok a) (.ok b)

variable {settings settings' : Settings} {words : List Text} {input : StandardInput}
  {conclusion : Conclusion}

section Result

variable {r r' : Except LiteralError Answer} {a b : Answer}

theorem Answer.Writes.eq {text : Text} (h : a.Writes text) (h' : b.Writes text)
    (milliseconds milliseconds' : Nat) (terminal terminal' : Bool) :
    a.transcript milliseconds terminal .result = b.transcript milliseconds' terminal' .result :=
  (h milliseconds terminal).trans (h' milliseconds' terminal').symm

/-- A conclusion fixes the result and the exit code. -/
theorem Concludes.sameResult (h : Concludes r conclusion) (h' : Concludes r' conclusion) :
    SameResult r r' := by
  cases h with
  | misuse hexit hresult =>
    cases h' with
    | misuse hexit' hresult' => exact .answer _ _ (hexit.trans hexit'.symm) (hresult.eq hresult')
  | help hexit hresult =>
    cases h' with
    | help hexit' hresult' => exact .answer _ _ (hexit.trans hexit'.symm) (hresult.eq hresult')
  | result hexit hresult =>
    cases h' with
    | result hexit' hresult' => exact .answer _ _ (hexit.trans hexit'.symm) (hresult.eq hresult')
  | failure hexit hresult _ =>
    cases h' with
    | failure hexit' hresult' _ => exact .answer _ _ (hexit.trans hexit'.symm) (hresult.eq hresult')
  | unreadable e =>
    cases h'
    exact .error e

theorem sameResult_evaluateWords (settings settings' : Settings) (words : List Text) :
    SameResult (evaluateWords settings words) (evaluateWords settings' words) := by
  obtain ⟨conclusion, hyields⟩ := exists_yields (some words)
  exact (answers_evaluateWords settings hyields).concludes.sameResult
    (answers_evaluateWords settings' hyields).concludes

theorem sameResult_answer (settings settings' : Settings) (words : List Text)
    (input : StandardInput) : SameResult ((Request.ofWords settings words).answer input)
      ((Request.ofWords settings' words).answer input) := by
  unfold Request.ofWords
  split_ifs
  · obtain ⟨supplied, hinput⟩ := input.exists_supplies
    obtain ⟨conclusion, hyields⟩ := exists_yields supplied
    exact (answers_evaluateInput settings hinput hyields).concludes.sameResult
      (answers_evaluateInput settings' hinput hyields).concludes
  · exact sameResult_evaluateWords settings settings' words

end Result

section Reports

/-- With fewer messages before it and no closing report, a reply reports less. -/
theorem reportsWithin_ofReply (earlier : List Message) {reply reply' : Reply}
    (hsilent : reply.session.settings = reply'.session.settings.silent)
    (hmessages : reply.messages.Sublist reply'.messages) :
    ReportsWithin (.ok (.ofReply earlier reply)) (.ok (.ofReply earlier reply')) := by
  refine .answer _ _ fun milliseconds milliseconds' terminal => ?_
  have hplain : (Answer.ofReply earlier reply).plain = (Answer.ofReply earlier reply').plain := by
    simp only [Answer.ofReply, hsilent]
    rfl
  have hclosing : reply.session.statistics milliseconds = [] := by
    simp only [Session.statistics, hsilent]
    rfl
  have hall : ((Answer.ofReply earlier reply).messages ++
      (Answer.ofReply earlier reply).closing milliseconds).Sublist
        ((Answer.ofReply earlier reply').messages ++
          (Answer.ofReply earlier reply').closing milliseconds') := by
    simp only [Answer.ofReply, hclosing, List.append_nil, List.append_assoc]
    exact (hmessages.trans (List.sublist_append_left _ _)).append_left earlier
  rw [Answer.transcript, Answer.transcript, hplain]
  exact Message.lines_transcript_sublist _ _ hall

theorem reportsWithin_evaluateWords (settings : Settings) (words : List Text) :
    ReportsWithin (evaluateWords settings.silent words) (evaluateWords settings words) := by
  rw [evaluateWords, evaluateWords, Session.evaluate, Session.evaluate]
  cases Token.ofWords words with
  | error e => exact .error e
  | ok tokens =>
    refine reportsWithin_ofReply [] ?_ (Session.messages_silent_sublist settings words tokens)
    rw [Session.settings_evaluateTokens, Session.settings_evaluateTokens]
    rfl

theorem reportsWithin_reportNoInput (settings : Settings) (earlier : List Message)
    (message : Text) : ReportsWithin (.ok (reportNoInput settings.silent earlier message))
      (.ok (reportNoInput settings earlier message)) :=
  reportsWithin_ofReply earlier rfl (.refl _)

theorem reportsWithin_answer (settings : Settings) (words : List Text) (input : StandardInput) :
    ReportsWithin ((Request.ofWords settings.silent words).answer input)
      ((Request.ofWords settings words).answer input) := by
  unfold Request.ofWords
  split_ifs
  · cases input with
    | unavailable => exact reportsWithin_reportNoInput settings _ _
    | text s =>
      unfold Request.answer
      dsimp only
      cases wordsOfInput? s with
      | some words => exact reportsWithin_evaluateWords settings words
      | none => exact reportsWithin_reportNoInput settings _ _
  · exact reportsWithin_evaluateWords settings words

end Reports

theorem run_flags {flags : List Text} (hflags : ∀ a ∈ flags, FlagArgument a) (words : List Text)
    (input : StandardInput) :
    run input (flags ++ terminator :: words) =
      (Request.ofWords (.given flags) words).answer input :=
  congrArg (·.answer input) (Request.ofArguments_flags hflags (some words))

/-- Under any two settings the same words have the same result, and silent settings report
nothing that others do not. So it is for a session of one evaluation, and for the command with
the words behind the terminator and any flags before it. -/
theorem settings_only_add_reports :
    (∀ (settings settings' : Settings) (words : List Text),
      SameResult (evaluateWords settings words) (evaluateWords settings' words)) ∧
    (∀ (settings : Settings) (words : List Text),
      ReportsWithin (evaluateWords settings.silent words) (evaluateWords settings words)) ∧
    ∀ {flags flags' : List Text}, (∀ a ∈ flags, FlagArgument a) → (∀ a ∈ flags', FlagArgument a) →
      ∀ (words : List Text) (input : StandardInput),
        SameResult (run input (flags ++ terminator :: words))
          (run input (flags' ++ terminator :: words)) ∧
        (Settings.given flags = (Settings.given flags').silent →
          ReportsWithin (run input (flags ++ terminator :: words))
            (run input (flags' ++ terminator :: words))) := by
  refine ⟨sameResult_evaluateWords, reportsWithin_evaluateWords, ?_⟩
  intro flags flags' hflags hflags' words input
  rw [run_flags hflags, run_flags hflags']
  refine ⟨sameResult_answer _ _ words input, fun hsilent => ?_⟩
  rw [hsilent]
  exact reportsWithin_answer _ words input

/-- An unbalanced expression with an invalid word, in quiet and with all that can be reported. -/
theorem settings_only_add_reports_unbalanced :
    let words := ["1".toList, "x".toList, "2".toList]
    let quiet := ["-q".toList, "-p".toList]
    let loud := ["-vpv".toList, "--stats".toList]
    Settings.given quiet = (Settings.given loud).silent ∧
      SameResult (run .unavailable (quiet ++ terminator :: words))
        (run .unavailable (loud ++ terminator :: words)) ∧
      ReportsWithin (run .unavailable (quiet ++ terminator :: words))
        (run .unavailable (loud ++ terminator :: words)) := by
  intro words quiet loud
  have hquiet : ∀ a ∈ quiet, FlagArgument a :=
    List.forall_mem_cons.mpr ⟨.short ['q'] (by decide) (List.all_iff_forall_prop.mp (by decide)),
      List.forall_mem_singleton.mpr
        (.short ['p'] (by decide) (List.all_iff_forall_prop.mp (by decide)))⟩
  have hloud : ∀ a ∈ loud, FlagArgument a :=
    List.forall_mem_cons.mpr
      ⟨.short "vpv".toList (by decide) (List.all_iff_forall_prop.mp (by decide)),
        List.forall_mem_singleton.mpr (.long _ (by decide))⟩
  have hsilent : Settings.given quiet = (Settings.given loud).silent := rfl
  obtain ⟨hsame, hwithin⟩ := settings_only_add_reports.2.2 hquiet hloud words .unavailable
  exact ⟨hsilent, hsame, hwithin hsilent⟩

end Command

end ReversePolish
