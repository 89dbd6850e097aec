import ReversePolish.Proofs.CommandLine.Plain
import ReversePolish.Proofs.CommandLine.Words
import ReversePolish.Proofs.Display.RoundTrip
import ReversePolish.Proofs.Evaluation.Resumption
import ReversePolish.Proofs.Session.Colour
import ReversePolish.Proofs.Session.Titles
import ReversePolish.Proofs.Token.Words

/-! The conclusions of the command. Its exit code, what it writes as the result, and the
titles of its reports show which conclusion it came to. The arguments and the input call
for exactly one: wrong use, help, or what the supplied words yield when they are evaluated
by themselves. -/

namespace ReversePolish

open Arguments (options GivesValue Asks)

namespace Command

inductive Conclusion
  | misuse
  | help
  | result (v : Binary32)
  | failure (f : Failure)
  | unreadable (e : LiteralError)

/-- What the evaluation of words yields, or their absence. -/
inductive Yields : Option (List Text) → Conclusion → Prop
  | result {words : List Text} {run : Run} {v : Binary32} (hrun : evaluate 0 words = .ok run)
    (houtcome : run.outcome = .ok v) : Yields (some words) (.result v)
  | missingOperands {words : List Text} {run : Run} {t : Token} {i : Nat} {s : Stack}
    (hrun : evaluate 0 words = .ok run)
    (houtcome : run.outcome = .error (.missingOperands t i s)) :
    Yields (some words) (.failure .missingOperands)
  | unbalanced {words : List Text} {run : Run} {s : Stack} (hrun : evaluate 0 words = .ok run)
    (houtcome : run.outcome = .error (.unbalanced s)) :
    Yields (some words) (.failure .unbalanced)
  | noInput : Yields none (.failure .noInput)
  /-- The first word without a token gives its error to all. -/
  | unreadable {before after : List Text} {word : Text} {e : LiteralError}
    (hbefore : ∀ w ∈ before, ∃ t, Token.ofWord w = .ok t) (hword : Token.ofWord word = .error e) :
    Yields (some (before ++ word :: after)) (.unreadable e)

/-- The conclusion that the arguments and the input call for. A value given to a flag comes
before all else, then a request for help. -/
inductive CallsFor (input : StandardInput) (args : List Text) : Conclusion → Prop
  | misuse (hvalue : ∃ arg ∈ options args, GivesValue arg) : CallsFor input args .misuse
  | help (hvalue : ¬∃ arg ∈ options args, GivesValue arg) (hhelp : Asks .help args) :
    CallsFor input args .help
  | evaluation {words : Option (List Text)} {conclusion : Conclusion}
    (hvalue : ¬∃ arg ∈ options args, GivesValue arg) (hhelp : ¬Asks .help args)
    (hwords : Supplied input args words) (hyields : Yields words conclusion) :
    CallsFor input args conclusion

namespace Answer

/-- The answer writes this result and no more. -/
def Writes (a : Answer) (result : Text) : Prop :=
  ∀ milliseconds terminal, a.transcript milliseconds terminal .result = result

/-- Exactly one message explains a failure, and it explains this one. -/
def ExplainsOnly (a : Answer) (f : Failure) : Prop :=
  ∀ milliseconds, ∃ before m after, a.messages ++ a.closing milliseconds = before ++ m :: after ∧
    m.HasTitle f.title ∧ ∀ other ∈ before ++ after, ∀ g : Failure, ¬other.HasTitle g.title

def ExplainsNothing (a : Answer) : Prop :=
  ∀ milliseconds, ∀ m ∈ a.messages ++ a.closing milliseconds, ∀ f : Failure, ¬m.HasTitle f.title

/-- The message stands among others that are asides. -/
def Centres (a : Answer) (m : Message) : Prop :=
  ∀ milliseconds, ∃ before after, a.messages ++ a.closing milliseconds = before ++ m :: after ∧
    ∀ other ∈ before ++ after, other.IsAside

end Answer

/-- What is seen of the command at each conclusion. -/
inductive Concludes : Except LiteralError Answer → Conclusion → Prop
  | misuse {a : Answer} (hexit : a.exitCode = 2) (hresult : a.Writes []) : Concludes (.ok a) .misuse
  | help {a : Answer} (hexit : a.exitCode = 0) (hresult : a.Writes (helpText ++ ['\n'])) :
    Concludes (.ok a) .help
  | result {a : Answer} {v : Binary32} (hexit : a.exitCode = 0)
    (hresult : a.Writes (NumberStyle.plain.write v ++ ['\n'])) : Concludes (.ok a) (.result v)
  | failure {a : Answer} {f : Failure} (hexit : a.exitCode = 1) (hresult : a.Writes [])
    (hreport : a.ExplainsOnly f) : Concludes (.ok a) (.failure f)
  /-- Nothing is written. -/
  | unreadable (e : LiteralError) : Concludes (.error e) (.unreadable e)

variable {input : StandardInput} {args words : List Text} {conclusion : Conclusion} {a : Answer}
  {m : Message}

section Centre

theorem transcript_of_centres (h : a.Centres m) (milliseconds : Nat) (terminal : Bool) :
    ∃ controls, a.transcript milliseconds terminal .result =
      Message.transcript controls .result [m] := by
  obtain ⟨before, after, hmessages, hasides⟩ := h milliseconds
  obtain ⟨hbefore, hafter⟩ := List.forall_mem_append.mp hasides
  refine ⟨keepsControls a.plain terminal, ?_⟩
  rw [Answer.transcript, hmessages, List.append_cons, Message.transcript_append,
    Message.transcript_append, Message.transcript_of_isAside hbefore,
    Message.transcript_of_isAside hafter, List.nil_append, List.append_nil]

theorem writes_of_centres_result {text : Text} (h : a.Centres ⟨.result, text⟩)
    (htext : Text.escape ∉ text) : a.Writes (text ++ ['\n']) := by
  intro milliseconds terminal
  obtain ⟨controls, htranscript⟩ := transcript_of_centres h milliseconds terminal
  rw [htranscript, Message.transcript_of_not_mem (List.forall_mem_singleton.mpr htext)]
  exact List.append_nil _

theorem writes_of_centres_report (h : a.Centres m) (hm : m.channel = .report) : a.Writes [] := by
  intro milliseconds terminal
  obtain ⟨controls, htranscript⟩ := transcript_of_centres h milliseconds terminal
  rw [htranscript, Message.transcript, List.filter_singleton, hm]
  rfl

theorem explainsOnly_of_centres {f : Failure} (h : a.Centres m) (hm : m.HasTitle f.title) :
    a.ExplainsOnly f := by
  intro milliseconds
  obtain ⟨before, after, hmessages, hasides⟩ := h milliseconds
  exact ⟨before, m, after, hmessages, hm, fun other hother => (hasides other hother).2⟩

theorem explainsNothing_of_centres (h : a.Centres m) (hm : m.channel = .result) :
    a.ExplainsNothing := by
  intro milliseconds other hother f hf
  obtain ⟨before, after, hmessages, hasides⟩ := h milliseconds
  rw [hmessages, List.perm_middle.mem_iff, List.mem_cons] at hother
  rcases hother with rfl | hother
  · cases hm.symm.trans hf.1
  · exact (hasides other hother).2 f hf

end Centre

/-- How the command makes its answer at each conclusion. -/
inductive Answers : Except LiteralError Answer → Conclusion → Prop
  | misuse (text : Text) : Answers (.ok (.ofMessage 2 ⟨.report, text⟩)) .misuse
  | help : Answers (.ok (.ofMessage 0 (helpOn .result))) .help
  | result {a : Answer} {v : Binary32} (hexit : a.exitCode = 0)
    (hcentre : a.Centres ⟨.result, NumberStyle.plain.write v⟩) : Answers (.ok a) (.result v)
  | failure {a : Answer} {m : Message} {f : Failure} (hexit : a.exitCode = 1)
    (hcentre : a.Centres m) (htitle : m.HasTitle f.title) : Answers (.ok a) (.failure f)
  | unreadable (e : LiteralError) : Answers (.error e) (.unreadable e)

section Answers

variable {r : Except LiteralError Answer}

theorem Answers.concludes (h : Answers r conclusion) : Concludes r conclusion := by
  cases h with
  | misuse text =>
    refine .misuse rfl fun milliseconds terminal => ?_
    rfl
  | help =>
    refine .help rfl fun milliseconds terminal => ?_
    have hhelp : ∀ m ∈ [helpOn .result], Text.escape ∉ m.text :=
      List.forall_mem_singleton.mpr escape_not_mem_helpText
    exact (Message.transcript_of_not_mem hhelp _ _).trans (List.append_nil _)
  | result hexit hcentre =>
    exact .result hexit (writes_of_centres_result hcentre (NumberStyle.escape_not_mem_plain _))
  | failure hexit hcentre htitle =>
    exact .failure hexit (writes_of_centres_report hcentre htitle.1)
      (explainsOnly_of_centres hcentre htitle)
  | unreadable e => exact .unreadable e

theorem Answers.explainsNothing (h : Answers (.ok a) conclusion) (hexit : a.exitCode = 0) :
    a.ExplainsNothing := by
  cases h with
  | misuse text => cases hexit
  | help =>
    intro milliseconds m hm f hf
    cases List.mem_singleton.mp hm
    cases hf.1
  | result _ hcentre => exact explainsNothing_of_centres hcentre rfl
  | failure hfailed => cases hfailed.symm.trans hexit

end Answers

section Evaluation

variable {tokens : List Token} {settings : Settings}

theorem exists_tokens_of_evaluate {verbosity : Int} {run : Run}
    (h : evaluate verbosity words = .ok run) :
    ∃ tokens, Token.ofWords words = .ok tokens ∧
      run = Stack.run [] verbosity (tokens.map .token) := by
  unfold evaluate at h
  cases htokens : Token.ofWords words with
  | error e =>
    rw [htokens] at h
    cases h
  | ok tokens =>
    rw [htokens] at h
    cases h
    exact ⟨tokens, rfl, rfl⟩

theorem evaluateWords_of_ofWords (settings : Settings) (h : Token.ofWords words = .ok tokens) :
    evaluateWords settings words =
      .ok (.ofReply [] ((Session.start settings).evaluateTokens words tokens)) := by
  rw [evaluateWords, Session.evaluate, h]
  rfl

theorem centres_ofReply {earlier before : List Message} {reply : Reply}
    (hearlier : ∀ m ∈ earlier, m.IsAside) (hbefore : ∀ m ∈ before, m.IsAside)
    (hmessages : reply.messages = before ++ [m]) : (Answer.ofReply earlier reply).Centres m := by
  intro milliseconds
  refine ⟨earlier ++ before, reply.session.statistics milliseconds, ?_, ?_⟩
  · simp [Answer.ofReply, hmessages]
  · exact List.forall_mem_append.mpr ⟨List.forall_mem_append.mpr ⟨hearlier, hbefore⟩,
      reply.session.isAside_statistics milliseconds⟩

theorem answers_of_ok (settings : Settings) {run : Run} {v : Binary32}
    (hrun : evaluate 0 words = .ok run) (houtcome : run.outcome = .ok v) :
    Answers (evaluateWords settings words) (.result v) := by
  obtain ⟨tokens, htokens, rfl⟩ := exists_tokens_of_evaluate hrun
  rw [Stack.run_outcome_verbosity _ settings.verbosity] at houtcome
  obtain ⟨hmessages, hfailed⟩ := Session.evaluateTokens_of_ok (s := .start settings) houtcome
  rw [evaluateWords_of_ofWords settings htokens]
  refine .result ?_ (centres_ofReply (List.forall_mem_nil _) (Session.isAside_preface _ _ _)
    hmessages)
  rw [Answer.ofReply, Session.exitCode, hfailed]
  rfl

theorem answers_of_error (settings : Settings) {run : Run} {e : EvaluationError} {d : Diagnosis}
    (hrun : evaluate 0 words = .ok run) (houtcome : run.outcome = .error e)
    (hdiagnosis : e.incident = .diagnosed d) :
    Answers (evaluateWords settings words) (.failure d.failure) := by
  obtain ⟨tokens, htokens, rfl⟩ := exists_tokens_of_evaluate hrun
  rw [Stack.run_outcome_verbosity _ settings.verbosity] at houtcome
  obtain ⟨hmessages, hfailed⟩ :=
    Session.evaluateTokens_of_error (s := .start settings) houtcome hdiagnosis
  rw [evaluateWords_of_ofWords settings htokens]
  refine .failure ?_ (centres_ofReply (List.forall_mem_nil _) (Session.isAside_preface _ _ _)
    hmessages) (d.hasTitle_explanation words)
  rw [Answer.ofReply, Session.exitCode, hfailed]
  rfl

theorem answers_evaluateWords (settings : Settings) (h : Yields (some words) conclusion) :
    Answers (evaluateWords settings words) conclusion := by
  cases h with
  | result hrun houtcome => exact answers_of_ok settings hrun houtcome
  | missingOperands hrun houtcome => exact answers_of_error settings hrun houtcome rfl
  | unbalanced hrun houtcome => exact answers_of_error settings hrun houtcome rfl
  | @unreadable before after word e hbefore hword =>
    have herror : Token.ofWords (before ++ word :: after) = .error e :=
      Token.ofWords_eq_error_iff.mpr ⟨before, word, after, rfl, hbefore, hword⟩
    rw [evaluateWords, Session.evaluate, herror]
    exact .unreadable _

theorem answers_reportNoInput (settings : Settings) {earlier : List Message}
    (hearlier : ∀ m ∈ earlier, m.IsAside) (message : Text) :
    Answers (.ok (reportNoInput settings earlier message)) (.failure .noInput) :=
  .failure rfl (centres_ofReply hearlier (List.forall_mem_nil _) rfl)
    (Diagnosis.hasTitle_explanation [] (.noInput message))

theorem isAside_helpOn_report : (helpOn .report).IsAside := by
  refine ⟨rfl, fun f => Message.not_hasTitle fun h => ?_⟩
  exact absurd (Option.some.inj h) (by decide)

/-- What the input supplies is evaluated like the words of the arguments. -/
theorem answers_evaluateInput (settings : Settings) {supplied : Option (List Text)}
    (hinput : input.Supplies supplied) (h : Yields supplied conclusion) :
    Answers ((Request.evaluateInput settings).answer input) conclusion := by
  cases input with
  | unavailable =>
    cases hinput with
    | words hline => cases hline
    | nothing =>
      cases h
      exact answers_reportNoInput settings (List.forall_mem_singleton.mpr isAside_helpOn_report) _
  | text s =>
    simp only [Request.answer, wordsOfInput?_of_supplies hinput]
    cases supplied with
    | some words => exact answers_evaluateWords settings h
    | none =>
      cases h
      exact answers_reportNoInput settings (List.forall_mem_nil _) _

theorem answers_of_supplied {supplied : Option (List Text)} (hhelp : ¬Asks .help args)
    (hwords : Supplied input args supplied) (h : Yields supplied conclusion) :
    Answers (run input args) conclusion := by
  cases hwords with
  | arguments hne hargs =>
    obtain ⟨settings, hrequest⟩ := Request.ofArguments_of_leaveWords hargs hhelp
    rw [run, hrequest, Request.ofWords, if_neg hne]
    exact answers_evaluateWords settings h
  | input hargs hinput =>
    obtain ⟨settings, hrequest⟩ := Request.ofArguments_of_leaveWords hargs hhelp
    rw [run, hrequest, Request.ofWords, if_pos rfl]
    exact answers_evaluateInput settings hinput h

end Evaluation

theorem CallsFor.answers (h : CallsFor input args conclusion) :
    Answers (run input args) conclusion := by
  cases h with
  | misuse hvalue =>
    obtain ⟨e, he⟩ := Arguments.ofList_eq_error_iff.mpr hvalue
    rw [run, Request.ofArguments, he]
    exact .misuse e.message
  | help hvalue hhelp =>
    cases hread : Arguments.ofList args with
    | error e => exact absurd (Arguments.ofList_eq_error_iff.mp ⟨e, hread⟩) hvalue
    | ok read =>
      have hmem : read.flags.contains .help = true :=
        List.contains_iff_mem.mpr ((Arguments.mem_flags_iff hread).mpr hhelp)
      rw [run, Request.ofArguments, hread]
      simp only [hmem, if_true]
      exact .help
  | evaluation hvalue hhelp hwords hyields => exact answers_of_supplied hhelp hwords hyields

section Exactly

theorem write_ne_helpText (v : Binary32) : NumberStyle.plain.write v ≠ helpText := by
  have hhelp : Text.space ∈ helpText := by decide
  exact fun h => space_not_mem_write v (h ▸ hhelp)

theorem Answer.Writes.unique {text text' : Text} (h : a.Writes text) (h' : a.Writes text') :
    text = text' :=
  (h 0 false).symm.trans (h' 0 false)

theorem Answer.ExplainsOnly.unique {f g : Failure} (hf : a.ExplainsOnly f)
    (hg : a.ExplainsOnly g) : f = g := by
  obtain ⟨before, m, after, hmessages, hm, -⟩ := hf 0
  obtain ⟨before', m', after', hmessages', hm', hothers⟩ := hg 0
  have hmem : m ∈ before' ++ m' :: after' := by
    rw [← hmessages', hmessages]
    exact List.mem_append_cons_self
  rw [List.perm_middle.mem_iff, List.mem_cons] at hmem
  rcases hmem with rfl | hother
  · exact Failure.title_injective
      (hm.unique f.escape_not_mem_title g.escape_not_mem_title hm')
  · exact absurd hm (hothers m hother f)

/-- No two conclusions look the same. -/
theorem Concludes.unique {r : Except LiteralError Answer} {other : Conclusion}
    (h : Concludes r conclusion) (h' : Concludes r other) : conclusion = other := by
  -- The exit code tells most of them apart, and what is written the others.
  cases h with
  | misuse hexit _ =>
    cases h' with
    | misuse => rfl
    | help hexit' _ | result hexit' _ | failure hexit' _ _ => cases hexit.symm.trans hexit'
  | help hexit hresult =>
    cases h' with
    | help => rfl
    | result _ hresult' =>
      exact absurd (List.append_cancel_right (hresult'.unique hresult)) (write_ne_helpText _)
    | misuse hexit' _ | failure hexit' _ _ => cases hexit.symm.trans hexit'
  | result hexit hresult =>
    cases h' with
    | help _ hresult' =>
      exact absurd (List.append_cancel_right (hresult.unique hresult')) (write_ne_helpText _)
    | result _ hresult' =>
      rw [plain_write_injective (List.append_cancel_right (hresult.unique hresult'))]
    | misuse hexit' _ | failure hexit' _ _ => cases hexit.symm.trans hexit'
  | failure hexit _ hreport =>
    cases h' with
    | failure _ _ hreport' => rw [hreport.unique hreport']
    | misuse hexit' _ | help hexit' _ | result hexit' _ => cases hexit.symm.trans hexit'
  | unreadable e =>
    cases h'
    rfl

theorem exists_yields (words : Option (List Text)) : ∃ conclusion, Yields words conclusion := by
  cases words with
  | none => exact ⟨_, .noInput⟩
  | some words =>
    cases htokens : Token.ofWords words with
    | error e =>
      obtain ⟨before, word, after, rfl, hbefore, hword⟩ := Token.ofWords_eq_error_iff.mp htokens
      exact ⟨_, .unreadable hbefore hword⟩
    | ok tokens =>
      have hrun : evaluate 0 words = .ok (Stack.run [] 0 (tokens.map .token)) := by
        rw [evaluate, htokens]
        rfl
      cases houtcome : (Stack.run [] 0 (tokens.map .token)).outcome with
      | ok v => exact ⟨_, .result hrun houtcome⟩
      | error e =>
        cases e with
        | missingOperands t i s => exact ⟨_, .missingOperands hrun houtcome⟩
        | unbalanced s => exact ⟨_, .unbalanced hrun houtcome⟩
        | unclassified text => exact absurd houtcome (Stack.outcome_ne_unclassified _ _ _ _)

theorem exists_callsFor (input : StandardInput) (args : List Text) :
    ∃ conclusion, CallsFor input args conclusion := by
  by_cases hvalue : ∃ arg ∈ options args, GivesValue arg
  · exact ⟨_, .misuse hvalue⟩
  · by_cases hhelp : Asks .help args
    · exact ⟨_, .help hvalue hhelp⟩
    · obtain ⟨words, hwords⟩ := exists_supplied input hvalue
      obtain ⟨conclusion, hyields⟩ := exists_yields words
      exact ⟨conclusion, .evaluation hvalue hhelp hwords hyields⟩

end Exactly

/-- What is seen of the command is the conclusion that the arguments and the input call for,
and they call for exactly one. An exit without an error code explains no failure. -/
theorem run_concludes_iff_callsFor (input : StandardInput) (args : List Text) :
    (∀ conclusion, Concludes (run input args) conclusion ↔ CallsFor input args conclusion) ∧
      (∃! conclusion, CallsFor input args conclusion) ∧
      ∀ a, run input args = .ok a → a.exitCode = 0 → a.ExplainsNothing := by
  obtain ⟨conclusion, hcalls⟩ := exists_callsFor input args
  have hconcludes : Concludes (run input args) conclusion := hcalls.answers.concludes
  refine ⟨fun other => ⟨fun hother => ?_, fun hother => hother.answers.concludes⟩,
    ⟨conclusion, hcalls, fun other hother => ?_⟩, fun a ha hexit => ?_⟩
  · cases hother.unique hconcludes
    exact hcalls
  · exact hother.answers.concludes.unique hconcludes
  · have hanswers := hcalls.answers
    rw [ha] at hanswers
    exact hanswers.explainsNothing hexit

end Command

end ReversePolish
