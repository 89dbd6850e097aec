import ReversePolish.Proofs.Binary.Arithmetic
import ReversePolish.Proofs.Evaluation.Frame
import ReversePolish.Proofs.Evaluation.Padding

/-! Programs that stand for each other. A program that computes one value on no values puts it
on top of any values, so programs that compute the same value are interchangeable before any
others: the run ends as before, and only positions and counts move with the length. A logarithm
is a quotient of natural logarithms, and sums and products have no order. -/

namespace ReversePolish

open Stack (pushAll)

/-- On no values, all of the tokens can be pushed, and one value is left. -/
def Token.Computes (ts : List Token) (v : Binary32) : Prop := pushAll [] (ts.map .token) = .ok [v]

instance (ts : List Token) (v : Binary32) : Decidable (Token.Computes ts v) :=
  inferInstanceAs (Decidable (_ = _))

namespace Token.Computes

variable {p q : List Token} {x y v : Binary32}

theorem pushAll_eq (h : Computes p x) (s : Stack) : s.pushAll (p.map .token) = .ok (x :: s) :=
  Stack.pushAll_append_below h s

theorem unary (h : Computes p x) (op : UnaryOperator) :
    Computes (p ++ [.unary op]) (op.apply x) := by
  rw [Computes, List.map_append]
  exact Stack.pushAll_append_eq_ok_iff.mpr ⟨[x], h, rfl⟩

theorem binary (hp : Computes p x) (hq : Computes q y) (op : BinaryOperator) :
    Computes (p ++ q ++ [.binary op]) (op.apply x y) := by
  rw [Computes, List.map_append, List.map_append]
  refine Stack.pushAll_append_eq_ok_iff.mpr ⟨[y, x], ?_, rfl⟩
  exact Stack.pushAll_append_eq_ok_iff.mpr ⟨[x], hp, hq.pushAll_eq [x]⟩

/-- Programs that compute the same value are interchangeable before any others. -/
theorem endsMoved (hp : Computes p v) (hq : Computes q v) {n : Nat}
    (hlength : q.length = p.length + n) (s : Stack) (verbosity verbosity' : Int)
    (k : List Token) :
    (s.run verbosity ((p ++ k).map .token)).EndsMoved (· + n) n
      (s.run verbosity' ((q ++ k).map .token)) := by
  have hp' := hp.pushAll_eq s
  have hq' := hq.pushAll_eq s
  rw [List.map_append, List.map_append]
  cases hk : Stack.pushAll (v :: s) (k.map .token) with
  | ok s' =>
    have hall := Stack.pushAll_append_eq_ok_iff.mpr ⟨v :: s, hp', hk⟩
    have hall' := Stack.pushAll_append_eq_ok_iff.mpr ⟨v :: s, hq', hk⟩
    refine Stack.endsMoved_of_same verbosity verbosity' hall hall' ?_
    simp only [List.length_append, List.length_map]
    omega
  | error fault =>
    obtain ⟨first, item, rest, s', heq, hfirst, hfault⟩ := Stack.exists_fault_of_pushAll hk
    have hall := Stack.pushAll_append_eq_ok_iff.mpr ⟨v :: s, hp', hfirst⟩
    have hall' := Stack.pushAll_append_eq_ok_iff.mpr ⟨v :: s, hq', hfirst⟩
    rw [heq, ← List.append_assoc, ← List.append_assoc]
    refine Stack.endsMoved_of_same_fault verbosity verbosity' hall hall' hfault ?_ rest rest
    simp only [List.length_append, List.length_map]
    omega

end Token.Computes

namespace Stack

open Token

variable {p q : List Token} {x y : Binary32}

/-- Where two programs compute one value each, their logarithm is the quotient of their natural
logarithms, and they may change places before a sum or a product, on any values and before any
other tokens. Only the index of an error and the count of steps move, with the length. -/
theorem run_rewritten (hp : Computes p x) (hq : Computes q y) (s : Stack)
    (verbosity verbosity' : Int) (k : List Token) :
    let log := p ++ q ++ [.binary .log]
    let quotient := p ++ [.unary .ln] ++ q ++ [.unary .ln, .binary .divide]
    let sum (p q : List Token) := p ++ q ++ [.binary .add]
    let product (p q : List Token) := p ++ q ++ [.binary .multiply]
    (s.run verbosity ((log ++ k).map .token)).EndsMoved (· + 2) 2
      (s.run verbosity' ((quotient ++ k).map .token)) ∧
    (s.run verbosity ((sum p q ++ k).map .token)).EndsMoved id 0
      (s.run verbosity' ((sum q p ++ k).map .token)) ∧
    (s.run verbosity ((product p q ++ k).map .token)).EndsMoved id 0
      (s.run verbosity' ((product q p ++ k).map .token)) := by
  intro log quotient sum product
  refine ⟨?_, ?_, ?_⟩
  · have hquotient : Computes (p ++ [.unary .ln] ++ q ++ [.unary .ln, .binary .divide])
        (x.ln.div y.ln) := by
      have h := (hp.unary .ln).binary (hq.unary .ln) .divide
      rwa [← List.append_assoc, List.append_assoc _ [_] [_]] at h
    refine (hp.binary hq .log).endsMoved hquotient ?_ s verbosity verbosity' k
    simp only [List.length_append, List.length_cons, List.length_nil]
    omega
  · have hsum : Computes (q ++ p ++ [.binary .add]) (x.add y) :=
      BinaryFloat.add_comm x y ▸ hq.binary hp .add
    refine (hp.binary hq .add).endsMoved (n := 0) hsum ?_ s verbosity verbosity' k
    simp only [List.length_append]
    omega
  · have hproduct : Computes (q ++ p ++ [.binary .multiply]) (x.mul y) :=
      BinaryFloat.mul_comm x y ▸ hq.binary hp .multiply
    refine (hp.binary hq .multiply).endsMoved (n := 0) hproduct ?_ s verbosity verbosity' k
    simp only [List.length_append]
    omega

/-- In `1 2 + π log +`, with an invalid token before `π`, the last `+` finds one value. It finds
the same one two places later if the logarithm is written as a quotient. -/
theorem run_rewritten_stopped :
    let three : List Token :=
      [.number (.ofBits 0x3f800000), .number (.ofBits 0x40000000), .binary .add]
    let pi : List Token := [.invalid, .constant .pi]
    let log := three ++ pi ++ [.binary .log]
    let quotient := three ++ [.unary .ln] ++ pi ++ [.unary .ln, .binary .divide]
    let rest : List Token := [.binary .add]
    let value := BinaryOperator.log.apply (.ofBits 0x40400000) Binary32.pi
    Computes three (.ofBits 0x40400000) ∧ Computes pi Binary32.pi ∧
    (run [] 0 ((log ++ rest).map .token)).outcome =
      .error (.missingOperands (.binary .add) 6 [value]) ∧
    (run [] 0 ((quotient ++ rest).map .token)).outcome =
      .error (.missingOperands (.binary .add) 8 [value]) := by
  intro three pi log quotient rest value
  have hthree : Computes three (.ofBits 0x40400000) := by decide +kernel
  have hpi : Computes pi Binary32.pi := by decide +kernel
  have hrest : push [value] (.token (.binary .add)) =
      .error (.missingOperands (.binary .add) 1) := rfl
  have hlog : (run [] 0 ((log ++ rest).map .token)).outcome =
      .error (.missingOperands (.binary .add) 6 [value]) := by
    rw [List.map_append]
    exact (run_of_fault 0 ((hthree.binary hpi .log).pushAll_eq []) hrest).1
  refine ⟨hthree, hpi, hlog, ?_⟩
  have hquotient := (run_rewritten hthree hpi [] 0 0 rest).1.outcome
  rwa [hlog] at hquotient

end Stack

end ReversePolish
