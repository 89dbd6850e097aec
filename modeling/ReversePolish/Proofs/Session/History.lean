import ReversePolish.Proofs.Evaluation.Resumption
import ReversePolish.Proofs.Token.Words
import ReversePolish.Session.Basic
import Mathlib.Algebra.Ring.Nat

/-! What a session remembers. Whether it has failed and how many steps it has counted is all
that one operation leaves to the next, and both are read off the operations one by one: a
session has failed if one of them failed, and its steps are the sum of theirs. No evaluation
looks at either of the two. -/

namespace ReversePolish

/-- A run counts one step for each token, or none if operands were missing. -/
theorem Stack.steps_run (s : Stack) (verbosity verbosity' : Int) (ts : List Token) :
    (s.run verbosity (ts.map .token)).steps.getD 0 =
      if (s.run verbosity' (ts.map .token)).ending = .missingOperands then 0 else ts.length := by
  rcases pushAll_cases s ts with ⟨s', h⟩ | ⟨p, t, q, s', rfl, h, ht⟩
  · have hending : (s.run verbosity' (ts.map .token)).ending ≠ .missingOperands := by
      rw [ending_of_pushAll verbosity' h]
      split_ifs <;> decide
    rw [(run_of_pushAll verbosity h).2.2, if_neg hending, Option.getD_some, List.length_map]
  · have hitem : s'.push (.token t) = .error (.missingOperands t s'.length) :=
      pushToken_of_length_lt ht
    have hending : (s.run verbosity' ((p ++ t :: q).map .token)).ending = .missingOperands := by
      rw [Run.ending, (run_of_length_lt verbosity' h ht).1]
    rw [if_pos hending, List.map_append, List.map_cons,
      (run_of_fault verbosity h hitem).2.2, Option.getD_none]

namespace Session

/-- What is done with a session: it answers a request that takes some time, or it warns about
tokens, which need not be those of the words. -/
inductive Operation
  | request (milliseconds : Nat) (request : Request)
  | warning (words : List Text) (tokens : List Token)

namespace Operation

/-- Words are evaluated to an error, or an error with a diagnosis is explained. -/
inductive Fails : Operation → Prop
  | evaluate {milliseconds : Nat} {words : List Text} {run : Run} {e : EvaluationError}
    (hrun : ReversePolish.evaluate 0 words = .ok run) (houtcome : run.outcome = .error e) :
    Fails (.request milliseconds (.evaluate words))
  | handle (milliseconds : Nat) (words : List Text) (d : Diagnosis) :
    Fails (.request milliseconds (.handle words (.diagnosed d)))

/-- The steps of an operation: one for each word that is evaluated, invalid ones included, but
none if a word has no token or operands are missing. -/
def steps : Operation → Nat
  | request _ (.evaluate words) =>
    match ReversePolish.evaluate 0 words with
    | .ok run => if run.ending = .missingOperands then 0 else words.length
    | .error _ => 0
  | _ => 0

end Operation

variable (s : Session)

/-- What comes of an operation: a reply, or the error of words that are no tokens. -/
def operate : Operation → Except LiteralError Reply
  | .request milliseconds r => s.respond milliseconds r
  | .warning words tokens => .ok ⟨s, s.warning words tokens, none⟩

/-- The session after an operation, which an error leaves as it was. -/
def next (op : Operation) : Session :=
  match s.operate op with
  | .ok reply => reply.session
  | .error _ => s

/-- What an operation writes. -/
def writes (op : Operation) : List Message :=
  match s.operate op with
  | .ok reply => reply.messages
  | .error _ => []

/-- The session after operations one after the other. -/
def after (ops : List Operation) : Session := ops.foldl next s

@[simp] theorem after_nil : s.after [] = s := rfl

@[simp] theorem after_cons (op : Operation) (ops : List Operation) :
    s.after (op :: ops) = (s.next op).after ops := rfl

section Evaluation

variable {words : List Text} {tokens : List Token}

theorem next_evaluate (milliseconds : Nat) (h : Token.ofWords words = .ok tokens) :
    s.next (.request milliseconds (.evaluate words)) =
      (s.evaluateTokens words tokens).session := by
  simp only [next, operate, respond, evaluate, h, Except.map]

theorem next_evaluate_of_error (milliseconds : Nat) {e : LiteralError}
    (h : Token.ofWords words = .error e) :
    s.next (.request milliseconds (.evaluate words)) = s := by
  simp only [next, operate, respond, evaluate, h, Except.map]

theorem evaluate_of_ofWords (verbosity : Int) (h : Token.ofWords words = .ok tokens) :
    ReversePolish.evaluate verbosity words =
      .ok (Stack.run [] verbosity (tokens.map .token)) := by
  rw [ReversePolish.evaluate, h]
  rfl

/-- An evaluation adds the steps of its run, and a failure if the run ends in an error. -/
theorem session_evaluateTokens (words : List Text) (tokens : List Token) :
    (s.evaluateTokens words tokens).session =
      let run := Stack.run [] s.settings.verbosity (tokens.map .token)
      { s with steps := s.steps + run.steps.getD 0, failed := s.failed || !run.outcome.isOk } := by
  unfold evaluateTokens
  cases houtcome : (Stack.run [] s.settings.verbosity (tokens.map .token)).outcome with
  | ok v => simp [houtcome, Except.isOk, Except.toBool]
  | error e =>
    cases e with
    | missingOperands t i s' =>
      simp [houtcome, handle, EvaluationError.incident, Except.isOk, Except.toBool]
    | unbalanced s' =>
      simp [houtcome, handle, EvaluationError.incident, Except.isOk, Except.toBool]
    | unclassified text => exact absurd houtcome (Stack.outcome_ne_unclassified _ _ _ _)

/-- What an evaluation writes depends on the settings only. -/
theorem messages_evaluateTokens_congr {s s' : Session} (h : s.settings = s'.settings)
    (words : List Text) (tokens : List Token) :
    (s.evaluateTokens words tokens).messages = (s'.evaluateTokens words tokens).messages := by
  have hwarning : s.warning words tokens = s'.warning words tokens := by
    rw [warning, warning, h]
  simp only [evaluateTokens, hwarning, h]
  cases (Stack.run [] s'.settings.verbosity (tokens.map .token)).outcome with
  | ok v => rfl
  | error e => cases e <;> rfl

end Evaluation

section Operation

/-- What an operation changes: it adds its steps, and it may fail. -/
structure Advances (op : Operation) (s' : Session) : Prop where
  settings : s'.settings = s.settings
  steps : s'.steps = s.steps + op.steps
  failed : s'.failed ↔ s.failed ∨ op.Fails

variable {s}

theorem Advances.refl {op : Operation} (hsteps : op.steps = 0) (hfails : ¬op.Fails) :
    s.Advances op s :=
  ⟨rfl, by rw [hsteps, Nat.add_zero], by simp [hfails]⟩

theorem advances_evaluate (s : Session) (milliseconds : Nat) (words : List Text) :
    s.Advances (.request milliseconds (.evaluate words))
      (s.next (.request milliseconds (.evaluate words))) := by
  cases htokens : Token.ofWords words with
  | error e =>
    have hevaluate : ReversePolish.evaluate 0 words = .error e := by
      rw [ReversePolish.evaluate, htokens]
      rfl
    rw [next_evaluate_of_error s milliseconds htokens]
    refine .refl (by simp only [Operation.steps, hevaluate]) ?_
    rintro ⟨hrun, -⟩
    cases hevaluate.symm.trans hrun
  | ok tokens =>
    have hevaluate := evaluate_of_ofWords 0 htokens
    rw [next_evaluate s milliseconds htokens, session_evaluateTokens]
    refine ⟨rfl, ?_, ?_⟩
    · simp only [Operation.steps, hevaluate, Token.length_of_ofWords htokens]
      rw [Stack.steps_run [] s.settings.verbosity 0 tokens]
    · simp only [Bool.or_eq_true, Bool.not_eq_true']
      refine or_congr_right ?_
      rw [Stack.run_outcome_verbosity s.settings.verbosity 0]
      constructor
      · intro houtcome
        cases h : (Stack.run [] 0 (tokens.map .token)).outcome with
        | ok v =>
          rw [h] at houtcome
          cases houtcome
        | error e => exact .evaluate hevaluate h
      · rintro ⟨hrun, houtcome⟩
        cases hevaluate.symm.trans hrun
        rw [houtcome]
        rfl

/-- Only evaluations and explanations change a session. -/
theorem advances_next (s : Session) (op : Operation) : s.Advances op (s.next op) := by
  cases op with
  | warning words tokens => exact .refl rfl nofun
  | request milliseconds r =>
    cases r with
    | evaluate words => exact advances_evaluate s milliseconds words
    | warn words =>
      have hnext : s.next (.request milliseconds (.warn words)) = s := by
        cases h : Token.ofWords words <;> simp only [next, operate, respond, h, Except.map]
      rw [hnext]
      exact .refl rfl nofun
    | handle words incident =>
      cases incident with
      | diagnosed d =>
        exact ⟨rfl, rfl, by simp [next, operate, respond, handle, Operation.Fails.handle]⟩
      | unexplained message => exact .refl rfl nofun
    | finish => exact .refl rfl nofun

theorem settings_after (s : Session) (ops : List Operation) :
    (s.after ops).settings = s.settings := by
  induction ops generalizing s with
  | nil => rfl
  | cons op ops ih => rw [after_cons, ih, (s.advances_next op).settings]

theorem steps_after (s : Session) (ops : List Operation) :
    (s.after ops).steps = s.steps + (ops.map Operation.steps).sum := by
  induction ops generalizing s with
  | nil => rfl
  | cons op ops ih =>
    rw [after_cons, ih, (s.advances_next op).steps, List.map_cons, List.sum_cons, Nat.add_assoc]

theorem failed_after (s : Session) (ops : List Operation) :
    (s.after ops).failed ↔ s.failed ∨ ∃ op ∈ ops, op.Fails := by
  induction ops generalizing s with
  | nil => simp
  | cons op ops ih =>
    rw [after_cons, ih, (s.advances_next op).failed, List.exists_mem_cons_iff, or_assoc]

theorem of_operate_error {op : Operation} {e : LiteralError} (h : s.operate op = .error e) :
    s.writes op = [] ∧ s.next op = s := by
  rw [writes, next, h]
  exact ⟨rfl, rfl⟩

theorem operate_evaluate_eq_error_iff (milliseconds : Nat) (words : List Text) (e : LiteralError) :
    s.operate (.request milliseconds (.evaluate words)) = .error e ↔
      Token.ofWords words = .error e := by
  rw [operate, respond, evaluate]
  cases Token.ofWords words <;> simp [Except.map]

end Operation

theorem messages_evaluate_congr {s s' : Session} (h : s.settings = s'.settings)
    (words : List Text) :
    (s.evaluate words).map Reply.messages = (s'.evaluate words).map Reply.messages := by
  rw [evaluate, evaluate]
  cases Token.ofWords words with
  | ok tokens => exact congrArg Except.ok (messages_evaluateTokens_congr h words tokens)
  | error e => rfl

/-- What is true of a session that started under the settings and went through the operations. -/
structure KeepsBooks (settings : Settings) (ops : List Operation) (s : Session) : Prop where
  settings_eq : s.settings = settings
  failed : s.failed ↔ ∃ op ∈ ops, op.Fails
  /-- Nothing takes a failure back. -/
  failed_later : ∀ later, s.failed → (s.after later).failed
  steps : s.steps = (ops.map Operation.steps).sum
  exitCode : (s.exitCode = 1 ↔ s.failed) ∧ (s.exitCode = 0 ↔ ¬s.failed)
  finish : ∀ milliseconds, s.operate (.request milliseconds .finish) =
    .ok ⟨s, s.statistics milliseconds, none⟩
  /-- An error ends an evaluation exactly if a word has no token. -/
  unreadable : ∀ milliseconds words e, s.operate (.request milliseconds (.evaluate words)) =
    .error e ↔ Token.ofWords words = .error e
  error : ∀ op e, s.operate op = .error e → s.writes op = [] ∧ s.next op = s
  /-- An error without a diagnosis is passed on. -/
  unexplained : ∀ milliseconds words message,
    s.operate (.request milliseconds (.handle words (.unexplained message))) =
      .ok ⟨s, [], some message⟩
  /-- A session that has just started writes the same. -/
  evaluate : ∀ words,
    (s.evaluate words).map Reply.messages = ((start settings).evaluate words).map Reply.messages

/-- After any operations a session has failed exactly if one of them failed, and it has counted
the steps of each. Finishing it changes nothing, nor does an error that it passes on, and
what it writes for an expression does not depend on what came before. -/
theorem keepsBooks_after (settings : Settings) (ops : List Operation) :
    KeepsBooks settings ops ((start settings).after ops) where
  settings_eq := settings_after _ ops
  failed := by
    rw [failed_after]
    exact or_iff_right Bool.false_ne_true
  failed_later later hfailed := (failed_after _ later).mpr (.inl hfailed)
  steps := by
    rw [steps_after]
    exact Nat.zero_add _
  exitCode := by
    unfold exitCode
    split_ifs with hfailed <;> simp [hfailed]
  finish _ := rfl
  unreadable milliseconds words e := operate_evaluate_eq_error_iff milliseconds words e
  error _ _ h := of_operate_error h
  unexplained _ _ _ := rfl
  evaluate words := messages_evaluate_congr (settings_after _ ops) words

end Session

end ReversePolish
