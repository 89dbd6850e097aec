import ReversePolish.Proofs.Evaluation.Depth
import ReversePolish.Proofs.Evaluation.Readability
import ReversePolish.Proofs.Token.Words
import Mathlib.Algebra.BigOperators.Intervals

/-! Invalid tokens between the others. However many stand before each token and after the
last one, the stack sees the same tokens in the same order, so a run ends as it does without
them. An error is reported where its token has moved to, and the steps count all tokens. -/

namespace ReversePolish

open Finset (range)

namespace Token

/-- The tokens with `gap i` invalid ones before the token at `i`; the last gap comes after
all of them. -/
def padded (gap : Nat → Nat) : List Token → List Token
  | [] => List.replicate (gap 0) invalid
  | t :: ts => List.replicate (gap 0) invalid ++ t :: padded (fun i => gap (i + 1)) ts

/-- Where padding moves the token at `i`. -/
def paddedIndex (gap : Nat → Nat) (i : Nat) : Nat := i + ∑ j ∈ range (i + 1), gap j

/-- The number of invalid tokens that padding brings to `n` tokens. -/
def padding (gap : Nat → Nat) (n : Nat) : Nat := ∑ j ∈ range (n + 1), gap j

variable {gap : Nat → Nat} {p q ts : List Token} {t : Token}

theorem padding_succ (gap : Nat → Nat) (n : Nat) :
    padding gap (n + 1) = gap 0 + padding (fun i => gap (i + 1)) n := by
  rw [padding, Finset.sum_range_succ', Nat.add_comm]
  rfl

theorem paddedIndex_eq (gap : Nat → Nat) (i : Nat) : paddedIndex gap i = i + padding gap i := rfl

theorem paddedIndex_strictMono (gap : Nat → Nat) : StrictMono (paddedIndex gap) := by
  refine strictMono_nat_of_lt_succ fun i => ?_
  have hsum := Finset.sum_range_succ gap (i + 1)
  simp only [paddedIndex]
  omega

theorem dropInvalid_replicate (n : Nat) : dropInvalid (List.replicate n invalid) = [] := by
  simp [dropInvalid]

theorem dropInvalid_cons (t : Token) (ts : List Token) :
    dropInvalid (t :: ts) = dropInvalid [t] ++ dropInvalid ts := dropInvalid_append [t] ts

theorem dropInvalid_padded (gap : Nat → Nat) (ts : List Token) :
    dropInvalid (padded gap ts) = dropInvalid ts := by
  induction ts generalizing gap with
  | nil => exact dropInvalid_replicate (gap 0)
  | cons t ts ih =>
    rw [padded, dropInvalid_append, dropInvalid_replicate, List.nil_append, dropInvalid_cons, ih,
      ← dropInvalid_cons]

theorem length_padded (gap : Nat → Nat) (ts : List Token) :
    (padded gap ts).length = ts.length + padding gap ts.length := by
  induction ts generalizing gap with
  | nil => simp [padded, padding]
  | cons t ts ih =>
    rw [padded, List.length_append, List.length_replicate, List.length_cons, ih, List.length_cons,
      padding_succ]
    omega

theorem count_padded (gap : Nat → Nat) (ts : List Token) :
    (padded gap ts).count invalid = ts.count invalid + padding gap ts.length := by
  induction ts generalizing gap with
  | nil => simp [padded, padding]
  | cons t ts ih =>
    rw [padded, List.count_append, List.count_replicate_self, List.count_cons, ih, List.count_cons,
      List.length_cons, padding_succ]
    omega

/-- Padding takes each token along with those before it. -/
theorem exists_padded_append (gap : Nat → Nat) (p : List Token) (t : Token) (q : List Token) :
    ∃ before after, padded gap (p ++ t :: q) = before ++ t :: after ∧
      before.length = paddedIndex gap p.length ∧ dropInvalid before = dropInvalid p := by
  induction p generalizing gap with
  | nil =>
    refine ⟨List.replicate (gap 0) invalid, padded (fun i => gap (i + 1)) q, rfl, ?_,
      dropInvalid_replicate (gap 0)⟩
    simp [paddedIndex]
  | cons t' p ih =>
    obtain ⟨before, after, heq, hlength, hdrop⟩ := ih fun i => gap (i + 1)
    refine ⟨List.replicate (gap 0) invalid ++ t' :: before, after, ?_, ?_, ?_⟩
    · rw [List.cons_append, padded, heq, List.append_assoc, List.cons_append]
    · rw [List.length_append, List.length_replicate, List.length_cons, hlength, List.length_cons,
        paddedIndex_eq, paddedIndex_eq, padding_succ]
      omega
    · rw [dropInvalid_append, dropInvalid_replicate, List.nil_append, dropInvalid_cons, hdrop,
        ← dropInvalid_cons]

theorem getElem?_padded {i : Nat} (hi : i < ts.length) :
    (padded gap ts)[paddedIndex gap i]? = ts[i]? := by
  have hsplit : ts = ts.take i ++ ts[i] :: ts.drop (i + 1) := by
    rw [List.cons_getElem_drop_succ, List.take_append_drop]
  obtain ⟨before, after, heq, hlength, -⟩ :=
    exists_padded_append gap (ts.take i) ts[i] (ts.drop (i + 1))
  rw [← hsplit] at heq
  rw [List.length_take_of_le hi.le] at hlength
  rw [heq, ← hlength, List.getElem?_append_right le_rfl, Nat.sub_self, List.getElem?_cons_zero,
    List.getElem?_eq_getElem hi]

end Token

open Token

/-- The error with its index taken elsewhere. -/
def EvaluationError.reindex (move : Nat → Nat) : EvaluationError → EvaluationError
  | missingOperands token index stack => missingOperands token (move index) stack
  | e => e

/-- The second run ends as the first one does, with indices taken elsewhere, and if it is
counted it takes `more` steps in addition. -/
structure Run.EndsMoved (r : Run) (move : Nat → Nat) (more : Nat) (r' : Run) : Prop where
  outcome : r'.outcome = r.outcome.mapError (·.reindex move)
  stack : r'.stack = r.stack
  steps : r'.steps = r.steps.map (· + more)

theorem Run.outcome_atEnd_reindex (verbosity verbosity' : Int) (move : Nat → Nat)
    (step step' : Nat) (s : Stack) : (atEnd verbosity' step' s).outcome =
      (atEnd verbosity step s).outcome.mapError (·.reindex move) := by
  unfold atEnd
  cases s.takeOnly.1 <;> rfl

namespace Stack

variable {s' : Stack} {ts p : List Token} {t : Token}

theorem pushAll_eq_of_dropInvalid (s : Stack) {p p' : List Token}
    (h : dropInvalid p' = dropInvalid p) :
    s.pushAll (p'.map .token) = s.pushAll (p.map .token) := by
  rw [← pushAll_dropInvalid, h, pushAll_dropInvalid]

section Same

variable {s s' : Stack} {items items' : List Item} (verbosity verbosity' : Int) {move : Nat → Nat}
  {more : Nat}

/-- Items that leave the same stack end alike. -/
theorem endsMoved_of_same (h : s.pushAll items = .ok s') (h' : s.pushAll items' = .ok s')
    (hmore : items'.length = items.length + more) :
    (s.run verbosity items).EndsMoved move more (s.run verbosity' items') := by
  obtain ⟨houtcome, hstack, hsteps⟩ := run_of_pushAll verbosity h
  obtain ⟨houtcome', hstack', hsteps'⟩ := run_of_pushAll verbosity' h'
  constructor
  · rw [houtcome, houtcome']
    exact Run.outcome_atEnd_reindex ..
  · rw [hstack, hstack']
  · rw [hsteps, hsteps', hmore]
    rfl

/-- Items that leave the same stack, on which the next one cannot be pushed, end alike. -/
theorem endsMoved_of_same_fault {item : Item} {fault : Fault} (h : s.pushAll items = .ok s')
    (h' : s.pushAll items' = .ok s') (hitem : s'.push item = .error fault)
    (hmove : items'.length = move items.length) (rest rest' : List Item) :
    (s.run verbosity (items ++ item :: rest)).EndsMoved move more
      (s.run verbosity' (items' ++ item :: rest')) := by
  obtain ⟨houtcome, hstack, hsteps⟩ := run_of_fault (q := rest) verbosity h hitem
  obtain ⟨houtcome', hstack', hsteps'⟩ := run_of_fault (q := rest') verbosity' h' hitem
  constructor
  · rw [houtcome, houtcome', hmove]
    cases fault <;> rfl
  · rw [hstack, hstack']
  · rw [hsteps, hsteps']
    rfl

end Same

/-- Tokens that can all be pushed still can, and leave the same stack. -/
theorem endsMoved_of_pushAll {s : Stack} (verbosity verbosity' : Int) (gap : Nat → Nat)
    (h : s.pushAll (ts.map .token) = .ok s') :
    (s.run verbosity (ts.map .token)).EndsMoved (paddedIndex gap) (padding gap ts.length)
      (s.run verbosity' ((padded gap ts).map .token)) := by
  have h' : s.pushAll ((padded gap ts).map .token) = .ok s' :=
    (s.pushAll_eq_of_dropInvalid (dropInvalid_padded gap ts)).trans h
  refine endsMoved_of_same verbosity verbosity' h h' ?_
  rw [List.length_map, List.length_map, length_padded]

/-- The token that lacks operands is still the first one, at its new index. -/
theorem endsMoved_of_length_lt {s : Stack} (verbosity verbosity' : Int) (gap : Nat → Nat)
    (h : s.pushAll (p.map .token) = .ok s') (ht : s'.length < t.arity) (q : List Token) :
    (s.run verbosity ((p ++ t :: q).map .token)).EndsMoved (paddedIndex gap)
      (padding gap (p ++ t :: q).length)
      (s.run verbosity' ((padded gap (p ++ t :: q)).map .token)) := by
  obtain ⟨before, after, heq, hlength, hdrop⟩ := exists_padded_append gap p t q
  have hbefore : s.pushAll (before.map .token) = .ok s' :=
    (s.pushAll_eq_of_dropInvalid hdrop).trans h
  have hitem : s'.push (.token t) = .error (.missingOperands t s'.length) :=
    pushToken_of_length_lt ht
  have hmove : (before.map Item.token).length = paddedIndex gap (p.map Item.token).length := by
    rw [List.length_map, List.length_map, hlength]
  rw [heq, List.map_append, List.map_append, List.map_cons, List.map_cons]
  exact endsMoved_of_same_fault verbosity verbosity' h hbefore hitem hmove _ _

/-- Invalid tokens put anywhere into a program change neither its result nor its error, nor
what it leaves on the stack. The index of an error is that of the same token in its new
place, and a run that is counted takes one more step for each of the invalid tokens. -/
theorem run_padded (s : Stack) (verbosity verbosity' : Int) (gap : Nat → Nat) (ts : List Token) :
    (s.run verbosity (ts.map .token)).EndsMoved (paddedIndex gap) (padding gap ts.length)
      (s.run verbosity' ((padded gap ts).map .token)) ∧
    StrictMono (paddedIndex gap) ∧
    (∀ i < ts.length, (padded gap ts)[paddedIndex gap i]? = ts[i]?) ∧
    (padded gap ts).length = ts.length + padding gap ts.length ∧
    (invalidPositions (padded gap ts)).length =
      (invalidPositions ts).length + padding gap ts.length := by
  have hends : (s.run verbosity (ts.map .token)).EndsMoved (paddedIndex gap)
      (padding gap ts.length) (s.run verbosity' ((padded gap ts).map .token)) := by
    rcases pushAll_cases s ts with ⟨s', h⟩ | ⟨p, t, q, s', rfl, h, ht⟩
    · exact endsMoved_of_pushAll verbosity verbosity' gap h
    · exact endsMoved_of_length_lt verbosity verbosity' gap h ht q
  have hinvalid : (invalidPositions (padded gap ts)).length =
      (invalidPositions ts).length + padding gap ts.length := by
    rw [length_invalidPositions, length_invalidPositions, count_padded]
  exact ⟨hends, paddedIndex_strictMono gap, fun i hi => getElem?_padded hi, length_padded gap ts,
    hinvalid⟩

end Stack

end ReversePolish
