import ReversePolish.Display.Cell
import ReversePolish.Proofs.Decimal.Scientific
import ReversePolish.Proofs.Decimal.Shortest
import ReversePolish.Proofs.Text.Words
import ReversePolish.Proofs.Token.Classification

/-! A shown stack reads back as its values. Each value is written as a literal whose
decimal has the value as its nearest one, and no group of its digits is too long to be
converted; the words of the values hold neither spaces nor line ends. -/

namespace ReversePolish

open Binary
open Literal (SignText LiteralText)

section Value

theorem value_shortest (negative : Bool) (m : Magnitude .single) :
    (m.shortest.written negative).value = .ok (.signed negative m) := by
  obtain ⟨hcoefficient, hpoint⟩ := m.shortest_bounds
  have hdigits := m.shortest.length_digits_le
  have hbound : Magnitude.digitBound .single = 428 := rfl
  have hlimit : LiteralError.digitLimit = 4300 := rfl
  have hwritten := m.shortest.writtenAs_positional negative (by omega)
  rw [hwritten.value_eq, m.nearest_shortest, Decimal.written_negative]

end Value

section Word

/-- The sign that a value is written with. -/
def writtenSign (negative : Bool) : Text := if negative then ['-'] else []

theorem signText_writtenSign (negative : Bool) : SignText (writtenSign negative) negative := by
  cases negative
  · exact .none
  · exact .minus

namespace NumberStyle

theorem write_signed {f : Format} (style : NumberStyle) (negative : Bool) (m : Magnitude f) :
    style.write (.signed negative m) = writtenSign negative ++ style.magnitude m := by
  cases negative <;> rfl

theorem magnitude_cases {f : Format} (m : Magnitude f) :
    (m = .infinity ∧ plain.magnitude m = "inf".toList) ∨
      (m = .zero ∧ plain.magnitude m = ['0']) ∨
      plain.magnitude m = m.shortest.positional [] := by
  by_cases hinf : m.isInfinite
  · refine .inl ⟨Magnitude.ext (eq_of_beq hinf), ?_⟩
    rw [magnitude, if_pos hinf]
  · by_cases hzero : m.isZero
    · refine .inr (.inl ⟨Magnitude.ext (eq_of_beq hzero), ?_⟩)
      rw [magnitude, if_neg hinf, if_pos hzero]
      rfl
    · refine .inr (.inr ?_)
      rw [magnitude, if_neg hinf, if_neg hzero]
      rfl

end NumberStyle

/-- What is written is a literal of the value. -/
theorem exists_literalText_write (v : Binary32) :
    ∃ l, LiteralText (NumberStyle.plain.write v) l ∧
      l.value (NumberStyle.plain.write v) = .ok v := by
  cases v with
  | nan => exact ⟨.nan, .nan [] "NaN".toList false .none (by decide), rfl⟩
  | signed negative m =>
    have hsign := signText_writtenSign negative
    rw [NumberStyle.write_signed]
    rcases NumberStyle.magnitude_cases m with ⟨rfl, htext⟩ | ⟨rfl, htext⟩ | htext
    · rw [htext]
      refine ⟨_, .infinity _ _ negative hsign (.inl (by decide)), ?_⟩
      cases negative <;> rfl
    · rw [htext]
      let zero : WrittenDecimal := ⟨negative, ['0'], [], false, []⟩
      have hbody : Literal.DecimalText ['0'] zero :=
        ⟨[], [], rfl, Decimal.digits_replicate_zero 1, .none, .none, .inl (List.cons_ne_nil _ _)⟩
      exact ⟨_, .decimal _ _ zero hsign hbody, congrArg Except.ok zero.rounded_eq⟩
    · rw [htext]
      have hbody := m.shortest.decimalText_positional negative
      refine ⟨_, .decimal _ _ _ ?_ hbody, value_shortest negative m⟩
      rwa [Decimal.written_negative]

end Word

section Line

/-- The characters besides digits that values are written with. -/
def marks : List Char := "-.NaNinf".toList

theorem mem_write {v : Binary32} {c : Char} (h : c ∈ NumberStyle.plain.write v) :
    c.isDigit ∨ c ∈ marks := by
  cases v with
  | nan =>
    have hnan : "NaN".toList ⊆ marks := by decide
    exact .inr (hnan h)
  | signed negative m =>
    have hsign : writtenSign negative ⊆ marks := by cases negative <;> decide
    have hinf : "inf".toList ⊆ marks := by decide
    rw [NumberStyle.write_signed, List.mem_append] at h
    rcases h with h | h
    · exact .inr (hsign h)
    · rcases NumberStyle.magnitude_cases m with ⟨-, htext⟩ | ⟨-, htext⟩ | htext <;> rw [htext] at h
      · exact .inr (hinf h)
      · exact .inl (Decimal.digits_replicate_zero 1 c h)
      · refine (Decimal.mem_positional h).imp_right ?_
        rintro rfl
        decide

theorem space_not_mem_write (v : Binary32) : Text.space ∉ NumberStyle.plain.write v := fun h =>
  absurd (mem_write h) (by decide)

theorem isOpen_write (v : Binary32) : Text.IsOpen (NumberStyle.plain.write v) := by
  intro c hc
  have hmem := mem_write (List.mem_of_getLast? hc)
  rw [← Bool.not_eq_true]
  intro hend
  simp only [Text.isLineEnd, Bool.or_eq_true, beq_iff_eq] at hend
  rcases hend with rfl | rfl <;> exact absurd hmem (by decide)

theorem splitWords_stackText (v : Binary32) (values : List Binary32) :
    Text.splitWords (Display.stackText (v :: values)) =
      (v :: values).map NumberStyle.plain.write := by
  refine Text.splitWords_joinWords (by simp) (fun word hword => ?_) fun word hword => ?_
  · obtain ⟨value, -, rfl⟩ := List.mem_map.mp hword
    exact space_not_mem_write value
  · obtain ⟨value, -, rfl⟩ := List.mem_map.mp (List.mem_of_getLast? hword)
    exact isOpen_write value

end Line

section Reading

theorem ofWord_write (v : Binary32) :
    Token.ofWord (NumberStyle.plain.write v) = .ok (.number v) := by
  obtain ⟨l, hl, hvalue⟩ := exists_literalText_write v
  rw [Token.ofWord_of_literal hl, hvalue]
  rfl

theorem plain_write_injective {v w : Binary32}
    (h : NumberStyle.plain.write v = NumberStyle.plain.write w) : v = w := by
  have hv := ofWord_write v
  rw [h, ofWord_write w] at hv
  cases hv
  rfl

theorem ofWords_map_write (values : List Binary32) :
    Token.ofWords (values.map NumberStyle.plain.write) = .ok (values.map .number) := by
  induction values with
  | nil => rfl
  | cons v values ih =>
    rw [Token.ofWords] at ih ⊢
    rw [List.map_cons, List.mapM_cons, ofWord_write, ih]
    rfl

/-- The shown stack reads back as its values in their order, each of its words as its value,
and the program of one shown value has that value as its result. -/
theorem Display.stackIn_reads_back (v : Binary32) (values : List Binary32) (verbosity : Int) :
    (∃ text, Display.stackIn none (v :: values) = .ok text ∧
      Token.ofWords (Text.splitWords text) = .ok ((v :: values).map .number)) ∧
    Token.ofWord (NumberStyle.plain.write v) = .ok (.number v) ∧
    ∃ run, evaluate verbosity (Text.splitWords (NumberStyle.plain.write v)) = .ok run ∧
      run.outcome = .ok v := by
  refine ⟨⟨_, rfl, ?_⟩, ofWord_write v, ?_⟩
  · rw [splitWords_stackText, ofWords_map_write]
  · have hline : NumberStyle.plain.write v = Display.stackText [v] :=
      (Text.joinWords_singleton _).symm
    refine ⟨Stack.run [] verbosity [.token (.number v)], ?_, ?_⟩
    · rw [hline, splitWords_stackText, evaluate, ofWords_map_write]
      rfl
    · rfl

end Reading

end ReversePolish
