import ReversePolish.Display.Cell
import ReversePolish.Display.Marker
import ReversePolish.Proofs.Decimal.Positional
import ReversePolish.Proofs.Text.Control
import ReversePolish.Proofs.Text.Printable

/-! Where escapes come from. Numbers, tokens and cells hold none, so the only ones in what
is displayed are those of its own renditions, which are complete, and those of words. If
the words are closed, so is all that is displayed with them. -/

namespace ReversePolish

open Binary
open Text (escape Closed Printable)

namespace Text

/-- A literal is looked at through its characters, since its bytes are slow to decode. -/
theorem escape_not_mem_literal {characters : List Char} (h : escape ∉ characters) :
    escape ∉ (String.ofList characters).toList := by
  rwa [String.toList_ofList]

theorem closed_literal {characters : List Char} (h : escape ∉ characters) :
    Closed (String.ofList characters).toList :=
  closed_of_not_mem (escape_not_mem_literal h)

theorem escape_not_mem_ofNat (n : Nat) : escape ∉ ofNat n := (printable_ofNat n).escape_not_mem

theorem escape_not_mem_ofInt (n : Int) : escape ∉ ofInt n := (printable_ofInt n).escape_not_mem

end Text

section Number

/-- The characters besides digits of a number in scientific notation. -/
def scientificMarks : Text := ".e+-".toList

theorem Decimal.mem_scientific {d : Decimal} {c : Char} (h : c ∈ d.scientific) :
    c.isDigit ∨ c ∈ scientificMarks := by
  have hdigits := d.digits_digits
  simp only [scientific, List.mem_append, List.mem_cons] at h
  rcases h with h | rfl | rfl | h
  · split at h
    · rename_i first second rest heq
      rw [heq] at hdigits
      simp only [List.mem_cons] at h
      rcases h with rfl | rfl | h
      · exact .inl (hdigits _ List.mem_cons_self)
      · exact .inr (by decide)
      · exact .inl (hdigits c (by simp [h]))
    · exact .inl (hdigits c h)
  · exact .inr (by decide)
  · split <;> exact .inr (by decide)
  · rcases Text.mem_leftpad h with rfl | h
    · exact .inl rfl
    · exact .inl (Nat.isDigit_of_mem_toDigits (by decide) (by decide) h)

namespace NumberStyle

variable {f : Format} {style : NumberStyle}

theorem printable_magnitude (hend : Printable style.wholeEnd) (m : Magnitude f) :
    Printable (style.magnitude m) := by
  simp only [magnitude]
  split_ifs
  · decide
  · exact hend.cons rfl
  · intro c h
    rcases Decimal.mem_positional_cases h with h | rfl | h
    · exact Text.isPrintable_of_isDigit h
    · rfl
    · exact hend c h
  · intro c h
    have hmarks : Printable scientificMarks := by decide
    exact (Decimal.mem_scientific h).elim Text.isPrintable_of_isDigit (hmarks c)

theorem printable_write (hnan : Printable style.nan) (hend : Printable style.wholeEnd)
    (v : BinaryFloat f) : Printable (style.write v) := by
  cases v with
  | nan => exact hnan
  | signed negative m =>
    cases negative with
    | false => exact printable_magnitude hend m
    | true => exact (printable_magnitude hend m).cons rfl

theorem printable_plain (v : BinaryFloat f) : Printable (plain.write v) :=
  printable_write (by decide) .nil v

theorem escape_not_mem_plain (v : BinaryFloat f) : escape ∉ plain.write v :=
  (printable_plain v).escape_not_mem

end NumberStyle

theorem Token.printable_source (t : Token) : Printable t.source := by
  cases t with
  | number v => exact NumberStyle.printable_write (by decide) (by decide) _
  | constant c => cases c <;> decide
  | unary op => cases op <;> decide
  | binary op => cases op <;> decide
  | invalid => decide +kernel

theorem Token.escape_not_mem_source (t : Token) : escape ∉ t.source :=
  t.printable_source.escape_not_mem

theorem Token.printable_display (t : Token) : Printable (Item.token t).display := by
  cases t with
  | number v => exact NumberStyle.printable_plain v
  | constant c => exact printable_source (.constant c)
  | unary op => exact printable_source (.unary op)
  | binary op => exact printable_source (.binary op)
  | invalid => exact printable_source .invalid

end Number

namespace Display

section Cell

theorem printable_emptyMark : Printable emptyMark := by decide +kernel

theorem isPrintable_ellipsis : Text.isPrintable '…' := by decide +kernel

theorem printable_stackText (values : List Binary32) : Printable (stackText values) := by
  unfold stackText
  split
  · exact printable_emptyMark
  · exact .joinWords (List.forall_mem_map.mpr fun v _ => NumberStyle.printable_plain v)

theorem escape_not_mem_stackText (values : List Binary32) : escape ∉ stackText values :=
  (printable_stackText values).escape_not_mem

theorem printable_programText (ts : List Token) : Printable (programText (ts.map .token)) := by
  unfold programText
  split
  · exact printable_emptyMark
  · refine .joinWords ?_
    rw [List.map_map]
    exact List.forall_mem_map.mpr fun t _ => t.printable_display

theorem printable_stackCell (width : Nat) (values : List Binary32) :
    Printable (stackCell width values) := by
  refine Printable.padLeft ?_ width
  have hstack := printable_stackText values
  split_ifs
  · exact ((hstack.dropTo _).cons rfl).cons isPrintable_ellipsis
  · exact hstack

theorem printable_programCell (width : Nat) (ts : List Token) :
    Printable (programCell width (ts.map .token)) := by
  refine Printable.padRight ?_ width
  have hprogram := printable_programText ts
  split_ifs
  · exact (hprogram.takeTo _).append ((Printable.nil.cons isPrintable_ellipsis).cons rfl)
  · exact hprogram

theorem closed_cells (width : Nat) (ts : List Token) (values : List Binary32) :
    Closed (cells width (ts.map .token) values) := by
  have hstack := Text.closed_of_not_mem (printable_stackCell width values).escape_not_mem
  have hprogram := Text.closed_of_not_mem (printable_programCell width ts).escape_not_mem
  have hcolour : Closed (Text.rendition "36".toList) := Text.closed_rendition (by decide)
  have hmark : Closed " <=> ".toList := Text.closed_literal (by decide)
  have hseparator : Closed separator := (hcolour.append hmark).append Text.closed_plainRendition
  exact (hstack.append (.other (by decide) hseparator)).append (.other (by decide) hprogram)

/-- Without its colours the separator is an arrow between two blanks on either side. -/
theorem stripControls_cells (width : Nat) (ts : List Token) (values : List Binary32) :
    (cells width (ts.map .token) values).stripControls =
      stackCell width values ++ "  <=>  ".toList ++ programCell width (ts.map .token) := by
  have hmark : Text.ControlSequence (Text.rendition "36".toList) :=
    Text.controlSequence_rendition (by decide)
  have hreset : Text.ControlSequence Text.plainRendition :=
    Text.controlSequence_rendition (by decide)
  have hstack := (printable_stackCell width values).escape_not_mem
  have hprogram := (printable_programCell width ts).escape_not_mem
  simp only [cells, separator, List.append_assoc, List.cons_append]
  rw [Text.stripControls_append_of_not_mem hstack, Text.stripControls_cons_of_ne (by decide),
    Text.stripControls_sequence_append hmark,
    Text.stripControls_append_of_not_mem (Text.escape_not_mem_literal (by decide)),
    Text.stripControls_sequence_append hreset, Text.stripControls_cons_of_ne (by decide),
    Text.stripControls_of_not_mem hprogram]
  simp

theorem closed_display (step : Nat) (s : Stack) (ts : List Token) :
    Closed (Snapshot.display ⟨step, s, ts.map .token⟩) := by
  have hcolour : Closed (Text.rendition "90".toList) := Text.closed_rendition (by decide)
  have hstep : Closed (Text.padLeft 3 (Text.ofNat step)) :=
    Text.closed_of_not_mem ((Text.printable_ofNat step).padLeft 3).escape_not_mem
  have hcolon : Closed " :".toList := Text.closed_literal (by decide)
  have hgap : Closed "  ".toList := Text.closed_literal (by decide)
  exact ((((hcolour.append hstep).append hcolon).append Text.closed_plainRendition).append
    hgap).append (closed_cells cellWidth ts s.bottomUp)

end Cell

section Pointer

variable {color : Text} {words : List Text}

theorem closed_upperPiece (hcolor : Closed color) (marked : Bool) {word : Text}
    (hword : Closed word) : Closed (upperPiece color marked word) := by
  have hshown : Closed (shownWord marked word) := by
    unfold shownWord
    split
    · exact Text.closed_of_not_mem (by decide)
    · exact hword
  unfold upperPiece
  split
  · exact (hcolor.append hshown).append Text.closed_plainRendition
  · exact hword

theorem escape_not_mem_lowerPiece (marked : Bool) (word : Text) :
    escape ∉ lowerPiece marked word := by
  intro h
  have heq := List.eq_of_mem_replicate h
  split at heq <;> cases heq

theorem mem_of_mem_markWords {positions : List Int} {marked : Bool} {word : Text}
    (h : (marked, word) ∈ markWords positions words) : word ∈ words := by
  obtain ⟨⟨w, i⟩, hmem, heq⟩ := List.mem_map.mp h
  cases heq
  exact List.fst_mem_of_mem_zipIdx hmem

/-- Both lines are closed if the words and the colour are. -/
theorem closed_pointer (hcolor : Closed color) (positions : List Int)
    (hwords : ∀ word ∈ words, Closed word) : Closed (pointer color positions words) := by
  refine Closed.append ?_ (Closed.other (by decide) ?_)
  · refine Closed.intercalate (by decide) (List.forall_mem_map.mpr fun piece hpiece => ?_)
    exact closed_upperPiece hcolor piece.1 (hwords _ (mem_of_mem_markWords hpiece))
  · refine Closed.intercalate (by decide) (List.forall_mem_map.mpr fun piece _ => ?_)
    exact Text.closed_of_not_mem (escape_not_mem_lowerPiece piece.1 piece.2)

end Pointer

end Display

end ReversePolish
