import ReversePolish.Proofs.Evaluation.Depth

/-! Several runs on one stack. What a run leaves behind is what the tokens that it could
push would leave, or nothing after a result, so the next run ends as if those tokens
stood in front of its own. Only the index that an error reports counts from elsewhere. -/

namespace ReversePolish

/-- The error with its index counted from `n` tokens earlier. -/
def EvaluationError.precededBy (n : Nat) : EvaluationError → EvaluationError
  | missingOperands token index stack => missingOperands token (n + index) stack
  | e => e

/-- Two runs end alike if they have one result, or one error up to the `n` tokens that
the second pushes first, and leave one stack. -/
structure Run.EndsLike (r : Run) (n : Nat) (whole : Run) : Prop where
  outcome : whole.outcome = r.outcome.mapError (·.precededBy n)
  stack : whole.stack = r.stack

theorem EvaluationError.precededBy_ofFault (n index : Nat) (s : Stack) (fault : Fault) :
    (ofFault index s fault).precededBy n = ofFault (n + index) s fault := by
  cases fault <;> rfl

theorem Run.outcome_atEnd_mapError (verbosity verbosity' : Int) (n step step' : Nat) (s : Stack) :
    (atEnd verbosity' step' s).outcome =
      (atEnd verbosity step s).outcome.mapError (·.precededBy n) := by
  unfold atEnd
  cases s.takeOnly.1 <;> rfl

namespace Stack

variable {s s' : Stack}

theorem outcome_ne_unclassified (s : Stack) (verbosity : Int) (ts : List Token) (text : Text) :
    (s.run verbosity (ts.map .token)).outcome ≠ .error (.unclassified text) := by
  intro h
  rcases pushAll_cases s ts with ⟨s', hall⟩ | ⟨p, t, q, s', rfl, hfirst, ht⟩
  · rw [(run_of_pushAll verbosity hall).1] at h
    rcases s' with _ | ⟨x, _ | ⟨y, s'⟩⟩ <;> cases h
  · rw [(run_of_length_lt verbosity hfirst ht).1] at h
    cases h

/-- Items that can be pushed may as well have been pushed by an earlier run. -/
theorem run_endsLike (verbosity verbosity' : Int) {p : List Item} (h : s.pushAll p = .ok s')
    (q : List Item) :
    (s'.run verbosity q).EndsLike p.length (s.run verbosity' (p ++ q)) := by
  cases hq : s'.pushAll q with
  | ok s₂ =>
    have hall : s.pushAll (p ++ q) = .ok s₂ := pushAll_append_eq_ok_iff.mpr ⟨s', h, hq⟩
    obtain ⟨houtcome, hstack, -⟩ := run_of_pushAll verbosity hq
    obtain ⟨houtcome', hstack', -⟩ := run_of_pushAll verbosity' hall
    constructor
    · rw [houtcome, houtcome']
      exact Run.outcome_atEnd_mapError ..
    · rw [hstack, hstack']
  | error fault =>
    obtain ⟨first, item, rest, s₁, rfl, hfirst, hfault⟩ := exists_fault_of_pushAll hq
    have hall : s.pushAll (p ++ first) = .ok s₁ := pushAll_append_eq_ok_iff.mpr ⟨s', h, hfirst⟩
    obtain ⟨houtcome, hstack, -⟩ := run_of_fault (q := rest) verbosity hfirst hfault
    obtain ⟨houtcome', hstack', -⟩ := run_of_fault (q := rest) verbosity' hall hfault
    rw [List.append_assoc] at houtcome' hstack'
    constructor
    · rw [houtcome, houtcome', List.length_append, ← EvaluationError.precededBy_ofFault]
      rfl
    · rw [hstack, hstack']

end Stack

/-- Where runs on one stack started, and the tokens that they have pushed since. -/
structure Origin where
  stack : Stack
  tokens : List Token

namespace Origin

/-- The tokens lead from the first stack to `s`. -/
def LeadsTo (o : Origin) (s : Stack) : Prop := o.stack.pushAll (o.tokens.map .token) = .ok s

/-- The origin after one more run of `p`. A result clears the stack; an error keeps what
was pushed before it. -/
def after (o : Origin) (p : List Token) (r : Run) : Origin :=
  match r.outcome with
  | .ok _ => ⟨[], []⟩
  | .error (.unbalanced _) => ⟨o.stack, o.tokens ++ p⟩
  | .error (.missingOperands _ i _) => ⟨o.stack, o.tokens ++ p.take i⟩
  | .error (.unclassified _) => o

end Origin

namespace Stack

/-- The stack after runs of the programs, each at its verbosity, one after the other. -/
def afterRuns (s : Stack) : List (Int × List Token) → Stack
  | [] => s
  | (verbosity, p) :: later => (s.run verbosity (p.map .token)).stack.afterRuns later

end Stack

namespace Origin

/-- The origin after the runs that take the stack from `s` on. -/
def afterRuns (o : Origin) (s : Stack) : List (Int × List Token) → Origin
  | [] => o
  | (verbosity, p) :: later =>
    let r := s.run verbosity (p.map .token)
    (o.after p r).afterRuns r.stack later

variable {o : Origin} {s s' : Stack} {p : List Token}

theorem LeadsTo.append (h : o.LeadsTo s) (hp : s.pushAll (p.map .token) = .ok s') :
    (⟨o.stack, o.tokens ++ p⟩ : Origin).LeadsTo s' := by
  rw [LeadsTo, List.map_append]
  exact Stack.pushAll_append_eq_ok_iff.mpr ⟨s, h, hp⟩

/-- One run keeps the origin true of the stack. -/
theorem LeadsTo.after (h : o.LeadsTo s) (verbosity : Int) (p : List Token) :
    (o.after p (s.run verbosity (p.map .token))).LeadsTo
      (s.run verbosity (p.map .token)).stack := by
  unfold Origin.after
  split
  · rename_i v hv
    rw [(Stack.result_report hv).2]
    rfl
  · rename_i s' hs'
    obtain ⟨hp, -, hstack⟩ := Stack.unbalanced_report hs'
    rw [hstack]
    exact h.append hp
  · rename_i t i s' hs'
    obtain ⟨-, -, hp, -, -, hstack⟩ := Stack.missingOperands_report hs'
    rw [hstack]
    exact h.append hp
  · rename_i text htext
    exact absurd htext (Stack.outcome_ne_unclassified s verbosity p text)

theorem LeadsTo.afterRuns (h : o.LeadsTo s) (runs : List (Int × List Token)) :
    (o.afterRuns s runs).LeadsTo (s.afterRuns runs) := by
  induction runs generalizing o s with
  | nil => exact h
  | cons run later ih => exact ih (h.after run.1 run.2)

/-- A run goes on where its origin says. -/
theorem LeadsTo.endsLike (h : o.LeadsTo s) (verbosity verbosity' : Int) (q : List Token) :
    (s.run verbosity (q.map .token)).EndsLike o.tokens.length
      (o.stack.run verbosity' ((o.tokens ++ q).map .token)) := by
  have hend := Stack.run_endsLike verbosity verbosity' h (q.map .token)
  rwa [List.length_map, ← List.map_append] at hend

end Origin

/-- The second of two runs on one stack ends as one run of the tokens that the first has
pushed for good and those of the second: all that the first had if it was unbalanced,
those before the failed operator if operands were missing, and none, on no values, if it
had a result. After any number of runs, the next one ends as one run from their origin. -/
theorem Stack.run_resumes (s : Stack) (verbosity verbosity' : Int) (q : List Token) :
    (∀ (earlier : Int) (p : List Token),
      let first := s.run earlier (p.map .token)
      let second := first.stack.run verbosity (q.map .token)
      match first.outcome with
      | .ok _ => second.EndsLike 0 (Stack.run [] verbosity' (q.map .token))
      | .error (.unbalanced _) =>
        second.EndsLike p.length (s.run verbosity' ((p ++ q).map .token))
      | .error (.missingOperands _ i _) =>
        second.EndsLike i (s.run verbosity' ((p.take i ++ q).map .token))
      | .error (.unclassified _) => False) ∧
    ∀ runs : List (Int × List Token),
      let o := Origin.afterRuns ⟨s, []⟩ s runs
      ((s.afterRuns runs).run verbosity (q.map .token)).EndsLike o.tokens.length
        (o.stack.run verbosity' ((o.tokens ++ q).map .token)) := by
  have hstart : (⟨s, []⟩ : Origin).LeadsTo s := rfl
  constructor
  · intro earlier p first second
    have hnext := (hstart.after earlier p).endsLike verbosity verbosity' q
    unfold Origin.after at hnext
    split <;> rename_i houtcome <;> simp only [first, houtcome] at hnext
    · exact hnext
    · exact hnext
    · rename_i t i s'
      obtain ⟨-, ht, -⟩ := missingOperands_report houtcome
      have hlength : (p.take i).length = i :=
        List.length_take_of_le (List.getElem?_eq_some_iff.mp ht).1.le
      rw [List.nil_append, hlength] at hnext
      exact hnext
    · exact outcome_ne_unclassified s earlier p _ houtcome
  · intro runs
    exact (hstart.afterRuns runs).endsLike verbosity verbosity' q

end ReversePolish
