import ReversePolish.Proofs.Binary.Arithmetic
import ReversePolish.Proofs.Evaluation.Run

/-! Arithmetic on the stack. Sums, differences, products and quotients of finite numbers are the
exact ones of the operands in written order, rounded once. Which values the operands have never
matters to whether a token can be pushed. -/

namespace ReversePolish

namespace BinaryOperator

/-- The operator on exact numbers, where it is arithmetic and has a result. -/
def onRationals : BinaryOperator → ℚ → ℚ → Option ℚ
  | add, x, y => some (x + y)
  | subtract, x, y => some (x - y)
  | multiply, x, y => some (x * y)
  | divide, x, y => if y = 0 then none else some (x / y)
  | log, _, _ => none

/-- Whether an exact zero is the negative one. -/
def zeroIsNegative (op : BinaryOperator) (a b : Binary32) : Bool :=
  match op with
  | add => a == .zero true && b == .zero true
  | subtract => a == .zero true && b == .zero false
  | _ => a.isNegative != b.isNegative

/-- Arithmetic rounds the exact number once. -/
theorem apply_isSignedRounding {op : BinaryOperator} {a b : Binary32} {x y r : ℚ}
    (ha : a.toRat? = some x) (hb : b.toRat? = some y) (hr : op.onRationals x y = some r) :
    (op.apply a b).IsSignedRounding r (op.zeroIsNegative a b) := by
  cases op with
  | add => exact Option.some.inj hr ▸ BinaryFloat.add_isSignedRounding ha hb
  | subtract => exact Option.some.inj hr ▸ BinaryFloat.sub_isSignedRounding ha hb
  | multiply => exact Option.some.inj hr ▸ BinaryFloat.mul_isSignedRounding ha hb
  | divide =>
    obtain ⟨hy, hquotient⟩ := Option.ite_none_left_eq_some.mp hr
    exact Option.some.inj hquotient ▸ BinaryFloat.div_isSignedRounding ha hb hy
  | log => cases hr

end BinaryOperator

namespace Stack

open Binary

/-- Two numbers and an operator leave one value on the stack, and a token can be pushed on any
values that are as many as it takes. For finite numbers and an arithmetic operator the value is
the exact one of the numbers in written order, rounded once. -/
theorem pushAll_rounds_once (s : Stack) (op : BinaryOperator) (a b : Binary32) :
    (∃ v, s.pushAll ([.number a, .number b, .binary op].map .token) = .ok (v :: s) ∧
      ∀ x y r, a.toRat? = some x → b.toRat? = some y → op.onRationals x y = some r →
        v.IsSignedRounding r (op.zeroIsNegative a b)) ∧
    ∀ t : Token, t.arity ≤ s.length → ∃ s', s.push (.token t) = .ok s' := by
  constructor
  · refine ⟨op.apply a b, rfl, fun x y r ha hb hr => ?_⟩
    exact BinaryOperator.apply_isSignedRounding ha hb hr
  · intro t ht
    obtain ⟨s', h⟩ := exists_pushes_of_arity_le ht
    exact ⟨s', pushToken_eq_ok_iff.mpr h⟩

/-- Half of the largest negative value is midway between it and zero, and rounds to a zero that
keeps the sign. -/
theorem pushAll_rounds_once_underflow :
    let a : Binary32 := .ofBits 0x80000001
    let b : Binary32 := .ofBits 0x3f000000
    let product : ℚ := -(1 / 2 ^ 149) * (1 / 2)
    a.toRat? = some (-(1 / 2 ^ 149)) ∧ b.toRat? = some (1 / 2) ∧
      pushAll [] ([.number a, .number b, .binary .multiply].map .token) = .ok [.zero true] ∧
      (.zero true : Binary32).IsSignedRounding product true := by
  intro a b product
  have hone : Format.single.one = 2 ^ 149 := rfl
  have haunits : Format.single.unitsOfRank 1 = 1 := by decide +kernel
  have hbunits : Format.single.unitsOfRank 0x3f000000 = 2 ^ 148 := by decide +kernel
  have ha : a.toRat? = some (-(1 / 2 ^ 149)) := by
    have hvalue : Format.single.ratOfRank 1 = 1 / 2 ^ 149 := by
      rw [Format.ratOfRank, haunits, hone]
      norm_num
    exact congrArg (some ∘ Neg.neg) hvalue
  have hb : b.toRat? = some (1 / 2) := by
    have hvalue : Format.single.ratOfRank 0x3f000000 = 1 / 2 := by
      rw [Format.ratOfRank, hbunits, hone]
      norm_num
    exact congrArg some hvalue
  have hpush : pushAll [] ([.number a, .number b, .binary .multiply].map .token) =
      .ok [.zero true] := by decide +kernel
  obtain ⟨⟨v, hv, hround⟩, -⟩ := pushAll_rounds_once [] .multiply a b
  obtain rfl : v = .zero true := by
    rw [hpush] at hv
    exact (List.cons.inj (Except.ok.inj hv)).1.symm
  exact ⟨ha, hb, hpush, hround _ _ _ ha hb rfl⟩

end Stack

end ReversePolish
