import ReversePolish.Expression
import ReversePolish.Proofs.Evaluation.Run
import Mathlib.Logic.ExistsUnique

/-! Unique readability of postfix programs. The pushes of a program that starts with no
values build a stack of expressions, whose listings one after the other are the tokens
read so far without the invalid ones. A listing can be read backwards in one way only, so
a program has a result exactly if it lists an expression, which is then the only one, and
the result is the value of that expression. -/

namespace ReversePolish

namespace Token

/-- The tokens that are not invalid. -/
def dropInvalid (ts : List Token) : List Token := ts.filter (· != invalid)

@[simp] theorem dropInvalid_nil : dropInvalid [] = [] := rfl

@[simp] theorem dropInvalid_cons_invalid (ts : List Token) :
    dropInvalid (invalid :: ts) = dropInvalid ts := rfl

theorem dropInvalid_cons_of_ne {t : Token} (h : t ≠ invalid) (ts : List Token) :
    dropInvalid (t :: ts) = t :: dropInvalid ts := List.filter_cons_of_pos (by simpa using h)

theorem dropInvalid_append (p q : List Token) :
    dropInvalid (p ++ q) = dropInvalid p ++ dropInvalid q := List.filter_append p q

end Token

namespace Stack

theorem pushAll_dropInvalid (s : Stack) (ts : List Token) :
    s.pushAll ((Token.dropInvalid ts).map .token) = s.pushAll (ts.map .token) := by
  induction ts generalizing s with
  | nil => rfl
  | cons t ts ih =>
    by_cases ht : t = .invalid
    · subst ht
      exact ih s
    · rw [Token.dropInvalid_cons_of_ne ht, List.map_cons, List.map_cons, pushAll_cons, pushAll_cons]
      cases s.push (.token t) with
      | error fault => rfl
      | ok s' => exact ih s'

end Stack

namespace Expression

/-- The token that an expression's listing ends with. -/
def root : Expression → Token
  | number v => .number v
  | constant c => .constant c
  | unary op _ => .unary op
  | binary op _ _ => .binary op

/-- The listings of the operands. -/
def operandListing : Expression → List Token
  | number _ | constant _ => []
  | unary _ x => x.listing
  | binary _ x y => x.listing ++ y.listing

theorem listing_eq (e : Expression) : e.listing = e.operandListing ++ [e.root] := by
  cases e <;> rfl

/-- Read from its end, a listing shows its last token and what precedes that. -/
theorem root_eq_of_append_listing {p q : List Token} {e f : Expression}
    (h : p ++ e.listing = q ++ f.listing) :
    e.root = f.root ∧ p ++ e.operandListing = q ++ f.operandListing := by
  rw [listing_eq, listing_eq f, ← List.append_assoc, ← List.append_assoc] at h
  obtain ⟨hfront, hroot⟩ := List.append_inj' h rfl
  exact ⟨List.singleton_inj.mp hroot, hfront⟩

/-- Listings at the end of equal texts are those of one expression: the root says how
many operands precede it, and the last of them is read before the others. -/
theorem append_listing_inj {p q : List Token} {e f : Expression}
    (h : p ++ e.listing = q ++ f.listing) : p = q ∧ e = f := by
  induction e generalizing p q f with
  | number v =>
    obtain ⟨hroot, hp⟩ := root_eq_of_append_listing h
    cases f <;> cases hroot
    simpa [operandListing] using hp
  | constant c =>
    obtain ⟨hroot, hp⟩ := root_eq_of_append_listing h
    cases f <;> cases hroot
    simpa [operandListing] using hp
  | unary op x ih =>
    obtain ⟨hroot, hp⟩ := root_eq_of_append_listing h
    cases f <;> cases hroot
    obtain ⟨rfl, rfl⟩ := ih hp
    exact ⟨rfl, rfl⟩
  | binary op x y ihx ihy =>
    obtain ⟨hroot, hp⟩ := root_eq_of_append_listing h
    cases f <;> cases hroot
    rw [operandListing, operandListing, ← List.append_assoc, ← List.append_assoc] at hp
    obtain ⟨hx, rfl⟩ := ihy hp
    obtain ⟨rfl, rfl⟩ := ihx hx
    exact ⟨rfl, rfl⟩

theorem listing_injective : Function.Injective listing := by
  intro e f h
  exact (append_listing_inj (p := []) (q := []) h).2

/-- The listings of the expressions of a stack, which has its first at the end. -/
def stackListing : List Expression → List Token
  | [] => []
  | e :: rest => stackListing rest ++ e.listing

/-- A token that is pushed on the values of expressions makes values of expressions,
and their listings grow by that token. -/
theorem exists_of_pushes {es : List Expression} {s s' : Stack} {t : Token} (hs : es.map value = s)
    (h : s.Pushes t s') :
    ∃ es', es'.map value = s' ∧ stackListing es' = stackListing es ++ Token.dropInvalid [t] := by
  cases h with
  | number v =>
    refine ⟨number v :: es, ?_, rfl⟩
    rw [List.map_cons, hs]
    rfl
  | constant c =>
    refine ⟨constant c :: es, ?_, rfl⟩
    rw [List.map_cons, hs]
    rfl
  | unary op x r =>
    obtain ⟨e, es, rfl, rfl, rfl⟩ := List.map_eq_cons_iff.mp hs
    refine ⟨unary op e :: es, rfl, ?_⟩
    simp [stackListing, listing, Token.dropInvalid]
  | binary op x y r =>
    obtain ⟨e₂, es₁, rfl, rfl, hs₁⟩ := List.map_eq_cons_iff.mp hs
    obtain ⟨e₁, es, rfl, rfl, rfl⟩ := List.map_eq_cons_iff.mp hs₁
    refine ⟨binary op e₁ e₂ :: es, rfl, ?_⟩
    simp [stackListing, listing, Token.dropInvalid]
  | invalid =>
    refine ⟨es, hs, ?_⟩
    simp

theorem exists_of_pushAll (es : List Expression) {s s' : Stack} {ts : List Token}
    (hs : es.map value = s) (h : s.pushAll (ts.map .token) = .ok s') :
    ∃ es', es'.map value = s' ∧ stackListing es' = stackListing es ++ Token.dropInvalid ts := by
  induction ts generalizing es s with
  | nil =>
    cases h
    exact ⟨es, hs, by simp⟩
  | cons t ts ih =>
    obtain ⟨s₁, hpush, hrest⟩ := Stack.pushAll_cons_eq_ok_iff.mp h
    obtain ⟨es₁, hes₁, hlisting₁⟩ := exists_of_pushes hs (Stack.pushes_of_pushToken hpush)
    obtain ⟨es', hes', hlisting⟩ := ih es₁ hes₁ hrest
    refine ⟨es', hes', ?_⟩
    rw [hlisting, hlisting₁, List.append_assoc, ← Token.dropInvalid_append]
    rfl

/-- The tokens that leave one value on an empty stack list an expression of that value. -/
theorem pushAll_eq_ok_singleton_iff {ts : List Token} {v : Binary32} :
    Stack.pushAll [] (ts.map .token) = .ok [v] ↔
      ∃ e : Expression, e.listing = Token.dropInvalid ts ∧ e.value = v := by
  constructor
  · intro h
    obtain ⟨es, hes, hlisting⟩ := exists_of_pushAll [] rfl h
    obtain ⟨e, rest, rfl, hv, hrest⟩ := List.map_eq_cons_iff.mp hes
    obtain rfl := List.map_eq_nil_iff.mp hrest
    exact ⟨e, hlisting, hv⟩
  · rintro ⟨e, hlisting, rfl⟩
    rw [← Stack.pushAll_dropInvalid, ← hlisting]
    exact pushAll_listing e []

/-- A program has a result exactly if its tokens without the invalid ones list an
expression. There is only one such expression, and the result is its value. -/
theorem outcome_eq_ok_iff_listing (verbosity : Int) (ts : List Token) (v : Binary32) :
    (Stack.run [] verbosity (ts.map .token)).outcome = .ok v ↔
      (∃! e : Expression, e.listing = Token.dropInvalid ts) ∧
        ∀ e : Expression, e.listing = Token.dropInvalid ts → e.value = v := by
  rw [Stack.run_outcome_eq_ok_iff, pushAll_eq_ok_singleton_iff]
  constructor
  · rintro ⟨e, hlisting, rfl⟩
    have honly : ∀ f : Expression, f.listing = Token.dropInvalid ts → f = e := fun f hf =>
      listing_injective (hf.trans hlisting.symm)
    exact ⟨⟨e, hlisting, honly⟩, fun f hf => by rw [honly f hf]⟩
  · rintro ⟨⟨e, hlisting, -⟩, hvalue⟩
    exact ⟨e, hlisting, hvalue e hlisting⟩

end Expression

end ReversePolish
