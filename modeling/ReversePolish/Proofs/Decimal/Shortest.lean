import ReversePolish.Decimal.Shortest
import ReversePolish.Proofs.Decimal.Nearest

/-! The shortest decimal reads back as its magnitude. A hit on a grid has been read
back, and the search cannot come out empty, because on the finest grid stands the
magnitude itself. All grids lie within the digits of the exact coefficient, which
bounds the decimal that is found. -/

namespace ReversePolish.Binary.Magnitude

variable {f : Format}

section Exact

theorem gridPoint_toRat (m : Magnitude f) :
    (gridPoint f 0 m.exactCoefficient).toRat = m.units / f.one := by
  have hone : (f.one : ℚ) = 2 ^ f.unitExponent := by
    rw [show f.one = 2 ^ f.unitExponent from rfl]
    push_cast
    rfl
  have hcoefficient : (m.exactCoefficient : ℚ) = m.units * 5 ^ f.unitExponent := by
    rw [show m.exactCoefficient = m.units * 5 ^ f.unitExponent from rfl]
    push_cast
    rfl
  rw [Decimal.toRat, gridPoint, Nat.cast_zero, zero_sub, zpow_neg, zpow_natCast, hone, hcoefficient,
    show (10 : ℚ) = 5 * 2 by norm_num, mul_pow]
  field_simp

/-- On the finest grid stands the magnitude itself. -/
theorem nearest_exactCoefficient (m : Magnitude f) :
    (gridPoint f 0 m.exactCoefficient).nearest = m := by
  have hquot := (gridPoint f 0 m.exactCoefficient).units_div (f := f)
  rw [gridPoint_toRat, div_mul_cancel₀ _ (Nat.cast_ne_zero.mpr f.one_pos.ne')] at hquot
  have hden := (gridPoint f 0 m.exactCoefficient).units_snd_pos (f := f)
  rw [div_eq_iff (Nat.cast_ne_zero.mpr hden.ne')] at hquot
  rw [Decimal.nearest_eq_nearestExactly, Decimal.nearestExactly_eq,
    show (Decimal.units f _).1 = _ from by exact_mod_cast hquot]
  exact nearest_units m hden

end Exact

section Search

/-- A hit reads back as the magnitude, and it is one of the two neighbours. -/
theorem onGrid_eq_some {m : Magnitude f} {places : Nat} {d : Decimal}
    (h : m.onGrid places = some d) :
    d.nearest = m ∧ ∃ multiple ≤ m.exactCoefficient / 10 ^ places + 1,
      d = gridPoint f places multiple := by
  have hnearer : roundHalfEven m.exactCoefficient (Nat.pow 10 places) ≤
      m.exactCoefficient / 10 ^ places + 1 := roundHalfEven_le_div_add_one _ _
  have hread := List.find?_some h
  have hmem := List.mem_of_find?_eq_some h
  simp only [List.map_cons, List.map_nil, List.mem_cons, List.not_mem_nil, or_false] at hmem
  refine ⟨of_decide_eq_true hread, ?_⟩
  rcases hmem with rfl | rfl | rfl
  · exact ⟨_, hnearer, rfl⟩
  · exact ⟨_, Nat.le_succ _, rfl⟩
  · exact ⟨_, le_rfl, rfl⟩

/-- The finest grid has the magnitude itself on it. -/
theorem onGrid_zero (m : Magnitude f) : m.onGrid 0 = some (gridPoint f 0 m.exactCoefficient) := by
  have hnearer : roundHalfEven m.exactCoefficient (Nat.pow 10 0) = m.exactCoefficient := by
    simpa using roundHalfEven_mul_self m.exactCoefficient Nat.one_pos
  rw [onGrid, hnearer]
  exact List.find?_cons_of_pos (decide_eq_true m.nearest_exactCoefficient)

/-- The search ends with the hit on the coarsest grid that has one. -/
theorem shortestFrom_spec (m : Magnitude f) (places : Nat) :
    ∃ place ≤ places, m.onGrid place = some (m.shortestFrom places) ∧
      ∀ coarser ≤ places, place < coarser → m.onGrid coarser = none := by
  induction places with
  | zero => exact ⟨0, le_rfl, m.onGrid_zero, fun coarser hle hlt => absurd hle hlt.not_ge⟩
  | succ places ih =>
    rw [shortestFrom]
    cases hhit : m.onGrid (places + 1) with
    | none =>
      obtain ⟨place, hplace, hsome, hnone⟩ := ih
      refine ⟨place, Nat.le_succ_of_le hplace, hsome, fun coarser hle hlt => ?_⟩
      rcases Nat.le_succ_iff.mp hle with hle | rfl
      · exact hnone coarser hle hlt
      · exact hhit
    | some d => exact ⟨places + 1, le_rfl, hhit, fun coarser hle hlt => absurd hle hlt.not_ge⟩

/-- The shortest decimal of a magnitude reads back as it. -/
theorem nearest_shortest (m : Magnitude f) : m.shortest.nearest = m := by
  obtain ⟨place, -, hsome, -⟩ := m.shortestFrom_spec _
  exact (onGrid_eq_some hsome).1

end Search

section Bounds

/-- A number of digits that suffices for all decimals of the search. -/
def digitBound (f : Format) : Nat := f.fractionBits + f.infinityField + f.unitExponent + 1

theorem exactCoefficient_lt (m : Magnitude f) : m.exactCoefficient + 1 < 10 ^ digitBound f := by
  have hunits : m.units ≤ 10 ^ (f.fractionBits + f.infinityField) :=
    m.units_lt.le.trans (Nat.pow_le_pow_left (by decide) _)
  have hfive : 5 ^ f.unitExponent ≤ 10 ^ f.unitExponent := Nat.pow_le_pow_left (by decide) _
  have hexact : m.exactCoefficient ≤ 10 ^ (f.fractionBits + f.infinityField + f.unitExponent) := by
    rw [Nat.pow_add]
    exact Nat.mul_le_mul hunits hfive
  have hpos : 0 < 10 ^ (f.fractionBits + f.infinityField + f.unitExponent) :=
    Nat.pow_pos (by decide)
  rw [digitBound, Nat.pow_succ]
  omega

theorem length_toDigits_le {n : Nat} (h : n < 10 ^ digitBound f) :
    (Nat.toDigits 10 n).length ≤ digitBound f :=
  (Nat.length_toDigits_le_iff (by decide) (Nat.succ_pos _)).mpr h

/-- The digits of the shortest decimal are few, and its point is close to them. -/
theorem shortest_bounds (m : Magnitude f) :
    (Nat.toDigits 10 m.shortest.coefficient).length ≤ digitBound f ∧
      m.shortest.point.natAbs ≤ 2 * digitBound f := by
  have hlt := m.exactCoefficient_lt
  have hexact : (Nat.toDigits 10 m.exactCoefficient).length ≤ digitBound f :=
    length_toDigits_le (by omega)
  obtain ⟨place, hplace, hsome, -⟩ :=
    m.shortestFrom_spec ((Nat.toDigits 10 m.exactCoefficient).length - 1)
  obtain ⟨-, multiple, hmultiple, hgrid⟩ := onGrid_eq_some hsome
  have hdiv := Nat.div_le_self m.exactCoefficient (10 ^ place)
  have hdigits : (Nat.toDigits 10 multiple).length ≤ digitBound f := length_toDigits_le (by omega)
  have hunit : f.unitExponent < digitBound f := Nat.lt_succ_of_le (Nat.le_add_left ..)
  rw [show m.shortest = gridPoint f place multiple from hgrid]
  refine ⟨hdigits, ?_⟩
  simp only [Decimal.point, gridPoint]
  omega

end Bounds

end ReversePolish.Binary.Magnitude
