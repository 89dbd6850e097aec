import ReversePolish.Proofs.Decimal.Grid
import ReversePolish.Proofs.Decimal.Significant

/-! The search finds a decimal of the fewest digits, and among those of so many digits one that
is closest to the magnitude. Both follow from where the search stops: every decimal of fewer
digits would have made a coarser grid a hit, and those of as many digits have the hit's grid. -/

namespace ReversePolish.Binary.Magnitude

variable {f : Format} {m : Magnitude f} {d : Decimal}

theorem coefficient_ne_zero (hzero : m.isZero = false) (hd : d.nearest = m) :
    d.coefficient ≠ 0 := by
  intro hcoefficient
  rw [← hd, Decimal.nearest, if_pos hcoefficient] at hzero
  cases hzero

/-- The grid on which the search ends has as many places before it as the digits need. -/
theorem exists_place_shortest (m : Magnitude f) :
    ∃ place, m.shortest.digits.length + place ≤ m.exactLength ∧ place < m.exactLength ∧
      m.onGrid place = some m.shortest ∧
      ∀ coarser < m.exactLength, place < coarser → m.onGrid coarser = none := by
  have hlength := m.exactLength_pos
  obtain ⟨place, hplace, hsome, hnone⟩ := m.shortestFrom_spec (m.exactLength - 1)
  have hshortest : m.shortest = m.shortestFrom (m.exactLength - 1) := rfl
  rw [← hshortest] at hsome
  refine ⟨place, ?_, by omega, hsome, fun coarser hlt => hnone coarser (by omega)⟩
  obtain ⟨-, multiple, hmultiple, hgrid⟩ := onGrid_eq_some hsome
  have hpow : 10 ^ place * 10 ^ (m.exactLength - place) = 10 ^ m.exactLength := by
    rw [← Nat.pow_add]
    congr 1
    omega
  have hdiv : m.exactCoefficient / 10 ^ place < 10 ^ (m.exactLength - place) :=
    Nat.div_lt_of_lt_mul (hpow ▸ m.exactCoefficient_lt_pow)
  have hdigits : (gridPoint f place multiple).digits.length ≤ m.exactLength - place :=
    Decimal.length_digits_le_of_le_pow (by omega) (show multiple ≤ _ by omega)
  rw [hgrid]
  omega

/-- No decimal of fewer digits reads back as the magnitude. -/
theorem nearest_ne_of_lt (hbits : 0 < f.fractionBits) (hzero : m.isZero = false) {digits : Nat}
    (hdigits : digits < m.shortest.digits.length) (hc : d.coefficient < 10 ^ digits) :
    d.nearest ≠ m := by
  intro hd
  obtain ⟨place, hlength, hplace, -, hnone⟩ := m.exists_place_shortest
  rcases Nat.lt_or_ge (place + 1) m.exactLength with hlt | hge
  · obtain ⟨k, hk, -⟩ := exists_gridPoint hbits (exactCoefficient_pos hzero) hd hc hlt (by omega)
    obtain ⟨hit, hhit, -⟩ := exists_onGrid hbits hk
    rw [hnone _ hlt (Nat.lt_succ_self place)] at hhit
    cases hhit
  · -- The coarsest grid is left, and there are no digits at all.
    obtain rfl : digits = 0 := by omega
    exact coefficient_ne_zero hzero hd (Nat.lt_one_iff.mp hc)

/-- No decimal of as many digits that reads back as the magnitude is closer to it. -/
theorem shortest_closest (hbits : 0 < f.fractionBits) (hzero : m.isZero = false)
    (hc : d.coefficient < 10 ^ m.shortest.digits.length) (hd : d.nearest = m) :
    |m.shortest.toRat - m.toRat| ≤ |d.toRat - m.toRat| := by
  obtain ⟨place, hlength, hplace, hsome, -⟩ := m.exists_place_shortest
  obtain ⟨k, hk, hpoint⟩ :=
    exists_gridPoint hbits (exactCoefficient_pos hzero) hd hc hplace hlength
  obtain ⟨hit, hhit, hle⟩ := exists_onGrid hbits hk
  obtain rfl : m.shortest = hit := Option.some.inj (hsome.symm.trans hhit)
  exact hle.trans hpoint

end ReversePolish.Binary.Magnitude
