import ReversePolish.Proofs.Literal.Rounding

/-! What rounding to single precision by way of double precision is off by. The guess that it
makes is the nearest value or the one before or after it, and it is another one only if double
precision ended midway between the two. The correction has therefore the nearest value among
its candidates, and only that one is least remote from the number. -/

namespace ReversePolish

open Binary

/-- A guess at the value nearest to `x`, made from the number `q` that `x` was rounded to before,
and the nearest value `v` itself. -/
structure Binary32.IsGuess (x q : ℚ) (guess v : Binary32) : Prop where
  guess_isNearest : guess.IsNearest q
  isNearest_iff (u : Binary32) : u.IsNearest x ↔ u = v
  mem_neighbours : v ∈ guess.neighbours
  /-- Where the guess is wrong, it was made midway between two adjacent values. -/
  midway (hne : v ≠ guess) : guess.Adjacent v ∧ q = (guess.toRat + v.toRat) / 2
  least : ∀ c ∈ guess.neighbours, c ≠ v → v.remoteness x < c.remoteness x
  /-- A text that writes `x` is guessed so, and the same candidate is the least of those that its
  correction compares. -/
  written (w : WrittenDecimal) (hw : withSign w.negative w.toDecimal.toRat = x) :
    w.guess = guess ∧ ∀ c ∈ guess.neighbours, c ≠ v →
      w.toDecimal.remoteness w.negative v < w.toDecimal.remoteness w.negative c

namespace BinaryFloat

variable {f : Format} {x q r : ℚ} {negative : Bool} {m : Magnitude f}

section Sign

/-- A number other than zero has one sign and one magnitude. -/
theorem eq_of_withSign (hr : 0 ≤ r) (h : withSign negative r = x) (hx : x ≠ 0) :
    negative = decide (x < 0) ∧ r = |x| := by
  subst h
  have hpos : 0 < r := lt_of_le_of_ne hr fun h => hx ((withSign_eq_zero_iff _).mpr h.symm)
  constructor
  · simp [withSign_neg_iff hpos]
  · rw [abs_withSign, abs_of_pos hpos]

theorem IsNearest.ne_zero {v : BinaryFloat f} (h : v.IsNearest x) (hv : v.toRat ≠ 0) : x ≠ 0 := by
  rintro rfl
  obtain ⟨m, rfl, hm⟩ := h
  rw [abs_zero, ← Magnitude.toRat_zero (f := f)] at hm
  rw [hm.unique Magnitude.zero.isNearest_toRat, toRat_signed, Magnitude.toRat_zero] at hv
  exact hv ((withSign_eq_zero_iff _).mpr rfl)

/-- A nearest magnitude with the sign of a number is nearest to that number. -/
theorem isNearest_signed (hm : m.IsNearest r) (hr : 0 ≤ r) (h : withSign negative r = x)
    (hx : x ≠ 0) : (signed negative m).IsNearest x := by
  obtain ⟨rfl, rfl⟩ := eq_of_withSign hr h hx
  exact ⟨m, rfl, hm⟩

theorem half_withSign (negative : Bool) (a b : ℚ) :
    withSign negative ((a + b) / 2) = (withSign negative a + withSign negative b) / 2 := by
  cases negative
  · rfl
  · simp only [withSign, if_true]
    ring

end Sign

/-- Two steps that end at another value than one do end beside it, and the first of them ended
midway. -/
theorem midway_of_ne {g : Format} {wide : Magnitude g} {guess : Magnitude f} (hfg : f.Refines g)
    (hwide : wide.IsNearest r) (hguess : guess.IsNearest wide.toRat) (hm : m.IsNearest r)
    (hne : m ≠ guess) (negative : Bool) :
    (signed negative guess).Adjacent (signed negative m) ∧ (signed negative wide).toRat =
      ((signed negative guess).toRat + (signed negative m).toRat) / 2 := by
  constructor
  · rcases hwide.rank_succ_of_ne hfg hguess hm hne with h | h
    · exact adjacent_of_rank_eq negative h
    · exact (adjacent_of_rank_eq negative h).symm
  · rw [toRat_signed, toRat_signed, toRat_signed, ← half_withSign,
      hwide.toRat_eq_half_of_ne hfg hguess hm hne]

variable {wide : Binary64}

/-- A text that writes a number other than zero is guessed from its value in double precision. -/
theorem IsNearest.guess_eq (hwide : wide.IsNearest x) (hx : x ≠ 0) {w : WrittenDecimal}
    (hw : withSign w.negative w.toDecimal.toRat = x) : w.guess = wide.convert := by
  have hnear : (w.toDecimal.nearest : Magnitude .double).IsNearest w.toDecimal.toRat :=
    w.toDecimal.isNearest_nearest (by decide)
  rw [WrittenDecimal.guess, hwide.unique (isNearest_signed hnear w.toDecimal.toRat_nonneg hw hx)]

/-- A number that double precision rounds to a finite value other than zero has its nearest value
of single precision where that value is rounded to, or beside it. -/
theorem rounded_twice_beside_nearest (hwide : wide.IsNearest x) (hq : wide.toRat? = some q)
    (hne : q ≠ 0) : ∃ v : Binary32, Binary32.IsGuess x q wide.convert v := by
  have hrefines := Format.single_refines_double
  have hvalue := toRat_of_toRat? hq
  -- A text may write zero with either sign, but the sign of any other number is its own.
  have hx : x ≠ 0 := hwide.ne_zero (by rwa [hvalue])
  have hwritten := fun w hw => hwide.guess_eq hx (w := w) hw
  obtain ⟨m, rfl, hm⟩ := hwide
  obtain ⟨guess, hconvert, hguess⟩ :=
    Magnitude.exists_convert (by decide) hrefines (decide (x < 0)) m
  obtain ⟨nearest, hnearest⟩ : ∃ n : Magnitude .single, n.IsNearest |x| :=
    Magnitude.exists_isNearest (by decide) (abs_nonneg x)
  obtain ⟨hup, hdown⟩ := hm.rank_le_succ hrefines hguess hnearest
  have hleast : ∀ c ∈ (signed (x < 0) guess).neighbours, c ≠ signed (x < 0) nearest →
      (signed (x < 0) nearest).remoteness x < c.remoteness x := fun c hc hcne => by
    have hlt := remoteness_lt_of_mem_neighbours (by decide) (by decide) hnearest (abs_nonneg x)
      hc hcne
    rwa [withSign_abs] at hlt
  refine ⟨signed (x < 0) nearest, ?_⟩
  rw [hconvert] at hwritten ⊢
  constructor
  case guess_isNearest =>
    rw [toRat_signed] at hvalue
    exact isNearest_signed hguess m.toRat_nonneg hvalue hne
  case isNearest_iff =>
    exact fun u => ⟨fun hu => hu.unique ⟨_, rfl, hnearest⟩, fun h => ⟨_, h, hnearest⟩⟩
  case mem_neighbours => exact mem_neighbours hup hdown
  case midway =>
    intro hoff
    have hrank : nearest ≠ guess := fun h => hoff (by rw [h])
    rw [← hvalue]
    exact midway_of_ne hrefines hm hguess hnearest hrank _
  case least => exact hleast
  case written =>
    refine fun w hw => ⟨hwritten w hw, fun c hc hcne => ?_⟩
    rw [Decimal.remoteness_lt_iff, hw]
    exact hleast c hc hcne

/-- Just below the number from which infinity is nearest, double precision ends at that number
itself. The guess is infinity, and the nearest value is the largest finite one. -/
theorem rounded_twice_beside_nearest_overflow :
    let x : ℚ := 2 ^ 128 - 2 ^ 103 - 1
    let q : ℚ := 2 ^ 128 - 2 ^ 103
    let wide : Binary64 := .ofBits 0x47effffff0000000
    wide.IsNearest x ∧ wide.toRat? = some q ∧ q ≠ 0 ∧
      Binary32.IsGuess x q (.infinity false) (.ofBits 0x7f7fffff) := by
  intro x q wide
  have hx : x = (2 ^ 128 - 2 ^ 103 - 1 : ℕ) := by norm_num [x]
  have hnear : ∀ {f : Format} (m : Magnitude f), 0 < f.fractionBits →
      .nearest ((2 ^ 128 - 2 ^ 103 - 1) * f.one) 1 = m → (signed false m).IsNearest x := by
    rintro f m hbits rfl
    have hvalue : (((2 ^ 128 - 2 ^ 103 - 1) * f.one : ℕ) : ℚ) / (1 : ℕ) / f.one = x := by
      rw [Nat.cast_mul, Nat.cast_one, div_one, mul_div_cancel_right₀ _ f.one_pos_rat.ne', hx]
    have hm := hvalue ▸ Magnitude.isNearest_nearest hbits Nat.one_pos
    exact isNearest_signed hm (by norm_num [x]) rfl (by norm_num [x])
  have hwide : wide.IsNearest x :=
    hnear ⟨0x47effffff0000000, by decide⟩ (by decide) (by decide +kernel)
  have hlast : (.ofBits 0x7f7fffff : Binary32).IsNearest x :=
    hnear ⟨0x7f7fffff, by decide⟩ (by decide) (by decide +kernel)
  have hq : wide.toRat? = some q := by
    have hunits : Format.double.ratOfRank 0x47effffff0000000 = (2 ^ 128 - 2 ^ 103 : ℕ) :=
      Format.ratOfRank_of_unitsOfRank (by decide +kernel)
    have hq : q = (2 ^ 128 - 2 ^ 103 : ℕ) := by norm_num [q]
    rw [hq]
    exact congrArg some hunits
  have hne : q ≠ 0 := by norm_num [q]
  have hguess : wide.convert = (.infinity false : Binary32) := by decide +kernel
  obtain ⟨v, hv⟩ := rounded_twice_beside_nearest hwide hq hne
  rw [hguess, ← (hv.isNearest_iff _).mp hlast] at hv
  exact ⟨hwide, hq, hne, hv⟩

end BinaryFloat

end ReversePolish
