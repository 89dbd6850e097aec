import ReversePolish.Proofs.Evaluation.Run
import Mathlib.Algebra.BigOperators.Group.List.Basic
import Mathlib.Algebra.Ring.Int.Defs
import Mathlib.Order.Bounds.Basic

/-! How a run ends is decided by counting. Each token changes the number of values by a
fixed amount, so the number before each token is a sum over the tokens before it. The
run fails at the first token that takes more than that, has a result if one value is
left at the end, and is unbalanced otherwise; no value is looked at. -/

namespace ReversePolish

namespace Token

/-- The change in the number of values on the stack. -/
def growth : Token → Int
  | number _ | constant _ => 1
  | unary _ | invalid => 0
  | binary _ => -1

/-- The number of values after the tokens, if there were `n` and none was missing. -/
def depth (n : Int) (ts : List Token) : Int := n + (ts.map growth).sum

/-- The token at `i` takes more values than there are before it. -/
def Underflows (n : Int) (ts : List Token) (i : Nat) : Prop :=
  ∃ t, ts[i]? = some t ∧ depth n (ts.take i) < t.arity

/-- All that is counted of a token. -/
def shape (t : Token) : Nat × Int := (t.arity, t.growth)

@[simp] theorem depth_nil (n : Int) : depth n [] = n := by simp [depth]

theorem depth_cons (n : Int) (t : Token) (ts : List Token) :
    depth n (t :: ts) = depth (n + t.growth) ts := by
  simp only [depth, List.map_cons, List.sum_cons]
  omega

theorem depth_of_shape {p q : List Token} (h : p.map shape = q.map shape) (n : Int) :
    depth n p = depth n q := by
  have hgrowth : p.map growth = q.map growth := by
    have hsnd := congrArg (List.map Prod.snd) h
    rw [List.map_map, List.map_map] at hsnd
    exact hsnd
  rw [depth, depth, hgrowth]

theorem underflows_of_shape {p q : List Token} (h : p.map shape = q.map shape) {n : Int} {i : Nat}
    (hp : Underflows n p i) : Underflows n q i := by
  obtain ⟨t, ht, hlt⟩ := hp
  have hi : (q.map shape)[i]? = some t.shape := by rw [← h, List.getElem?_map, ht]; rfl
  obtain ⟨u, hu, hshape⟩ := Option.map_eq_some_iff.mp ((List.getElem?_map ..).symm.trans hi)
  have harity : u.arity = t.arity := congrArg Prod.fst hshape
  have htake : (p.take i).map shape = (q.take i).map shape := by
    rw [List.map_take, List.map_take, h]
  exact ⟨u, hu, by rwa [harity, ← depth_of_shape htake]⟩

theorem underflows_iff_of_shape {p q : List Token} (h : p.map shape = q.map shape) (n : Int)
    (i : Nat) : Underflows n p i ↔ Underflows n q i :=
  ⟨underflows_of_shape h, underflows_of_shape h.symm⟩

theorem underflows_append {p q : List Token} {n : Int} {i : Nat} (hi : i < p.length) :
    Underflows n (p ++ q) i ↔ Underflows n p i := by
  rw [Underflows, Underflows, List.getElem?_append_left hi, List.take_append_of_le_length hi.le]

theorem underflows_length {p q : List Token} {t : Token} {n : Int} :
    Underflows n (p ++ t :: q) p.length ↔ depth n p < t.arity := by
  simp [Underflows]

end Token

open Token

namespace Stack

variable {s s' : Stack} {ts p q : List Token} {t : Token}

/-- One token keeps the count. -/
theorem Pushes.length_eq (h : s.Pushes t s') : (s'.length : Int) = s.length + t.growth := by
  cases h <;> simp [growth]

theorem length_of_pushAll (h : s.pushAll (ts.map .token) = .ok s') :
    (s'.length : Int) = depth s.length ts := by
  induction ts generalizing s with
  | nil =>
    cases h
    simp
  | cons t ts ih =>
    obtain ⟨s₁, hpush, hrest⟩ := pushAll_cons_eq_ok_iff.mp h
    rw [ih hrest, depth_cons, (pushes_of_pushToken hpush).length_eq]

/-- Tokens are pushed to the end, or up to one that takes more than is there. -/
theorem pushAll_cases (s : Stack) (ts : List Token) :
    (∃ s', s.pushAll (ts.map .token) = .ok s') ∨
      ∃ p t q s', ts = p ++ t :: q ∧ s.pushAll (p.map .token) = .ok s' ∧ s'.length < t.arity := by
  cases h : s.pushAll (ts.map .token) with
  | ok s' => exact .inl ⟨s', rfl⟩
  | error fault =>
    obtain ⟨first, item, rest, s', hts, hfirst, hfault⟩ := exists_fault_of_pushAll h
    obtain ⟨p, r, rfl, rfl, hr⟩ := List.map_eq_append_iff.mp hts
    obtain ⟨t, q, rfl, rfl, rfl⟩ := List.map_eq_cons_iff.mp hr
    refine .inr ⟨p, t, q, s', rfl, hfirst, ?_⟩
    by_contra hlt
    obtain ⟨s₁, hs₁⟩ := exists_pushes_of_arity_le (Nat.le_of_not_lt hlt)
    have hok : s'.push (.token t) = .ok s₁ := pushToken_eq_ok_iff.mpr hs₁
    rw [hok] at hfault
    cases hfault

theorem not_underflows_of_pushAll (h : s.pushAll (ts.map .token) = .ok s') (i : Nat) :
    ¬Underflows s.length ts i := by
  rintro ⟨t, ht, hlt⟩
  obtain ⟨hi, hti⟩ := List.getElem?_eq_some_iff.mp ht
  have hts : ts = ts.take i ++ t :: ts.drop (i + 1) := by
    rw [← hti, List.cons_getElem_drop_succ, List.take_append_drop]
  rw [hts, List.map_append] at h
  obtain ⟨s₁, hfirst, hrest⟩ := pushAll_append_eq_ok_iff.mp h
  obtain ⟨s₂, hpush, -⟩ := pushAll_cons_eq_ok_iff.mp hrest
  have hs₁ : s₁.length < t.arity := by
    have := length_of_pushAll hfirst
    omega
  have herror : s₁.push (.token t) = .error (.missingOperands t s₁.length) :=
    pushToken_of_length_lt hs₁
  rw [hpush] at herror
  cases herror

theorem isLeast_underflows (h : s.pushAll (p.map .token) = .ok s') (ht : s'.length < t.arity) :
    IsLeast {i | Underflows s.length (p ++ t :: q) i} p.length := by
  constructor
  · have := length_of_pushAll h
    exact underflows_length.mpr (by omega)
  · intro i hi
    by_contra hlt
    exact not_underflows_of_pushAll h i ((underflows_append (Nat.lt_of_not_le hlt)).mp hi)

/-- The run of tokens the last of which is refused. -/
theorem run_of_length_lt (verbosity : Int) (h : s.pushAll (p.map .token) = .ok s')
    (ht : s'.length < t.arity) :
    (s.run verbosity ((p ++ t :: q).map .token)).outcome =
        .error (.missingOperands t p.length s') ∧
      (s.run verbosity ((p ++ t :: q).map .token)).stack = s' := by
  have hitem : s'.push (.token t) = .error (.missingOperands t s'.length) :=
    pushToken_of_length_lt ht
  obtain ⟨houtcome, hstack, -⟩ := run_of_fault (q := q.map .token) verbosity h hitem
  rw [List.length_map] at houtcome
  rw [List.map_append, List.map_cons]
  exact ⟨houtcome, hstack⟩

end Stack

/-- How a run can end. -/
inductive Ending
  | result | missingOperands | unbalanced | unclassified
  deriving DecidableEq

def Run.ending (r : Run) : Ending :=
  match r.outcome with
  | .ok _ => .result
  | .error (.missingOperands ..) => .missingOperands
  | .error (.unbalanced _) => .unbalanced
  | .error (.unclassified _) => .unclassified

/-- Only a stack without exactly one value is unbalanced, and it stays as it is. -/
theorem Run.atEnd_unbalanced {verbosity : Int} {step : Nat} {s s' : Stack}
    (h : (atEnd verbosity step s).outcome = .error (.unbalanced s')) :
    s = s' ∧ s.takeOnly.2 = s' := by
  rcases s with _ | ⟨x, _ | ⟨y, s⟩⟩ <;> cases h <;> exact ⟨rfl, rfl⟩

namespace Stack

variable {s s' : Stack} {ts : List Token}

/-- The ending of tokens that can all be pushed is seen from the number of values left. -/
theorem ending_of_pushAll (verbosity : Int) (h : s.pushAll (ts.map .token) = .ok s') :
    (s.run verbosity (ts.map .token)).ending =
      if s'.length = 1 then .result else .unbalanced := by
  rw [Run.ending, (run_of_pushAll verbosity h).1]
  rcases s' with _ | ⟨x, _ | ⟨y, s'⟩⟩ <;> simp [Run.atEnd, takeOnly]

theorem ending_iff (s : Stack) (verbosity : Int) (ts : List Token) :
    ((s.run verbosity (ts.map .token)).ending = .missingOperands ↔
        ∃ i, Underflows s.length ts i) ∧
      ((s.run verbosity (ts.map .token)).ending = .unbalanced ↔
        (∀ i, ¬Underflows s.length ts i) ∧ depth s.length ts ≠ 1) ∧
      ((s.run verbosity (ts.map .token)).ending = .result ↔
        (∀ i, ¬Underflows s.length ts i) ∧ depth s.length ts = 1) := by
  rcases pushAll_cases s ts with ⟨s', h⟩ | ⟨p, t, q, s', rfl, h, ht⟩
  · have hnone := not_underflows_of_pushAll h
    have hlength := length_of_pushAll h
    have hone : s'.length = 1 ↔ depth s.length ts = 1 := by omega
    rw [ending_of_pushAll verbosity h]
    by_cases h1 : depth s.length ts = 1 <;> simp [hone, h1, hnone]
  · have hending : (s.run verbosity ((p ++ t :: q).map .token)).ending = .missingOperands := by
      rw [Run.ending, (run_of_length_lt verbosity h ht).1]
    have hsome : ∃ i, Underflows s.length (p ++ t :: q) i := ⟨_, (isLeast_underflows h ht).1⟩
    have hnot : ¬∀ i, ¬Underflows s.length (p ++ t :: q) i := not_forall_not.mpr hsome
    rw [hending]
    simp [hsome, hnot]

theorem missingOperands_report {verbosity : Int} {t : Token} {i : Nat}
    (h : (s.run verbosity (ts.map .token)).outcome = .error (.missingOperands t i s')) :
    IsLeast {i | Underflows s.length ts i} i ∧ ts[i]? = some t ∧
      s.pushAll ((ts.take i).map .token) = .ok s' ∧
      (s'.length : Int) = depth s.length (ts.take i) ∧ s'.length < t.arity ∧
      (s.run verbosity (ts.map .token)).stack = s' := by
  rcases pushAll_cases s ts with ⟨s₁, hall⟩ | ⟨p, t₁, q, s₁, rfl, hfirst, ht⟩
  · rw [(run_of_pushAll verbosity hall).1] at h
    rcases s₁ with _ | ⟨x, _ | ⟨y, s₁⟩⟩ <;> cases h
  · obtain ⟨houtcome, hstack⟩ := run_of_length_lt (q := q) verbosity hfirst ht
    rw [houtcome] at h
    cases h
    have htake : (p ++ t :: q).take p.length = p := by simp
    rw [htake]
    exact ⟨isLeast_underflows hfirst ht, by simp, hfirst, length_of_pushAll hfirst, ht, hstack⟩

theorem unbalanced_report {verbosity : Int}
    (h : (s.run verbosity (ts.map .token)).outcome = .error (.unbalanced s')) :
    s.pushAll (ts.map .token) = .ok s' ∧ (s'.length : Int) = depth s.length ts ∧
      (s.run verbosity (ts.map .token)).stack = s' := by
  rcases pushAll_cases s ts with ⟨s₁, hall⟩ | ⟨p, t, q, s₁, rfl, hfirst, ht⟩
  · obtain ⟨houtcome, hstack, -⟩ := run_of_pushAll verbosity hall
    rw [houtcome] at h
    obtain ⟨rfl, hleft⟩ := Run.atEnd_unbalanced h
    exact ⟨hall, length_of_pushAll hall, hstack.trans hleft⟩
  · rw [(run_of_length_lt verbosity hfirst ht).1] at h
    cases h

theorem result_report {verbosity : Int} {v : Binary32}
    (h : (s.run verbosity (ts.map .token)).outcome = .ok v) :
    s.pushAll (ts.map .token) = .ok [v] ∧ (s.run verbosity (ts.map .token)).stack = [] := by
  have hall := (run_outcome_eq_ok_iff verbosity).mp h
  exact ⟨hall, (run_of_pushAll verbosity hall).2.1⟩

theorem ending_of_shape {s₂ : Stack} {ts₂ : List Token} (verbosity verbosity₂ : Int)
    (hs : s₂.length = s.length) (hts : ts₂.map shape = ts.map shape) :
    (s₂.run verbosity₂ (ts₂.map .token)).ending = (s.run verbosity (ts.map .token)).ending := by
  obtain ⟨hm, hu, hr⟩ := ending_iff s verbosity ts
  obtain ⟨hm₂, hu₂, hr₂⟩ := ending_iff s₂ verbosity₂ ts₂
  simp only [hs, underflows_iff_of_shape hts, depth_of_shape hts] at hm₂ hu₂ hr₂
  by_cases h : ∃ i, Underflows s.length ts i
  · rw [hm.mpr h, hm₂.mpr h]
  · rw [not_exists] at h
    by_cases h1 : depth s.length ts = 1
    · rw [hr.mpr ⟨h, h1⟩, hr₂.mpr ⟨h, h1⟩]
    · rw [hu.mpr ⟨h, h1⟩, hu₂.mpr ⟨h, h1⟩]

/-- The count alone says how a run ends, and an error reports it: the first token that
lacks operands and the stack that the tokens before it leave, or the stack that all of
them leave. What is reported is also what stays on the stack. -/
theorem run_ending_by_depth (s : Stack) (verbosity : Int) (ts : List Token) :
    let r := s.run verbosity (ts.map .token)
    (r.ending = .missingOperands ↔ ∃ i, Underflows s.length ts i) ∧
    (r.ending = .unbalanced ↔ (∀ i, ¬Underflows s.length ts i) ∧ depth s.length ts ≠ 1) ∧
    (r.ending = .result ↔ (∀ i, ¬Underflows s.length ts i) ∧ depth s.length ts = 1) ∧
    (∀ t i s', r.outcome = .error (.missingOperands t i s') →
      IsLeast {i | Underflows s.length ts i} i ∧ ts[i]? = some t ∧
      s.pushAll ((ts.take i).map .token) = .ok s' ∧
      (s'.length : Int) = depth s.length (ts.take i) ∧ s'.length < t.arity ∧ r.stack = s') ∧
    (∀ s', r.outcome = .error (.unbalanced s') →
      s.pushAll (ts.map .token) = .ok s' ∧ (s'.length : Int) = depth s.length ts ∧
      r.stack = s') ∧
    (∀ v, r.outcome = .ok v → s.pushAll (ts.map .token) = .ok [v] ∧ r.stack = []) ∧
    ∀ (s₂ : Stack) (verbosity₂ : Int) (ts₂ : List Token), s₂.length = s.length →
      ts₂.map shape = ts.map shape → (s₂.run verbosity₂ (ts₂.map .token)).ending = r.ending := by
  intro r
  obtain ⟨hmissing, hunbalanced, hresult⟩ := ending_iff s verbosity ts
  refine ⟨hmissing, hunbalanced, hresult, ?_, ?_, ?_, fun s₂ verbosity₂ ts₂ hs hts =>
    ending_of_shape verbosity verbosity₂ hs hts⟩
  · intro t i s' h
    exact missingOperands_report h
  · intro s' h
    exact unbalanced_report h
  · intro v h
    exact result_report h

end Stack

end ReversePolish
