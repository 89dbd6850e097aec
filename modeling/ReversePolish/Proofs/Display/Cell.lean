import ReversePolish.Proofs.Display.Width
import ReversePolish.Proofs.Text.Words
import Mathlib.Data.List.Infix

/-! What a cell shows of its text. A text that fits is aligned to one side. One that is too long
loses its far side, and a mark takes the place of what is lost. The value on top of the stack
and the next item stand on the near side, and either is narrower than a cell, so a cell always
shows them whole. -/

namespace ReversePolish.Display

open Text (space joinWords)

variable {text last shown : Text} {width : Nat}

section Seen

/-- What is seen of a text whose end stands in a fixed place: all of it after blanks, or its
last characters after a mark, if all of it would need more room. -/
inductive SeenAtEnd (text : Text) : Text → Prop
  | whole (blanks : Nat) : SeenAtEnd text (List.replicate blanks space ++ text)
  | cut (kept : Text) (hkept : kept <:+ text) (hlong : kept.length + 2 < text.length) :
    SeenAtEnd text ('…' :: space :: kept)

/-- What is seen of a text whose start stands in a fixed place, the mirror image. -/
def SeenAtStart (text shown : Text) : Prop := SeenAtEnd text.reverse shown.reverse

theorem SeenAtStart.whole (text : Text) (blanks : Nat) :
    SeenAtStart text (text ++ List.replicate blanks space) := by
  rw [SeenAtStart, List.reverse_append, List.reverse_replicate]
  exact .whole blanks

theorem SeenAtStart.cut {kept : Text} (hkept : kept <+: text)
    (hlong : kept.length + 2 < text.length) : SeenAtStart text (kept ++ [space, '…']) := by
  rw [SeenAtStart, List.reverse_append]
  refine .cut kept.reverse (List.reverse_suffix.mpr hkept) ?_
  rwa [List.length_reverse, List.length_reverse]

/-- What follows a space is seen if there is room for it, and what precedes it as before. -/
theorem SeenAtEnd.exists_before (h : SeenAtEnd (text ++ space :: last) shown)
    (hroom : last.length + 3 ≤ shown.length) :
    ∃ before, shown = before ++ space :: last ∧ SeenAtEnd text before := by
  cases h with
  | whole blanks => exact ⟨List.replicate blanks space ++ text, by simp, .whole blanks⟩
  | cut kept hkept hlong =>
    have hlength : (space :: last).length ≤ kept.length := by
      simp only [List.length_cons] at hroom ⊢
      omega
    obtain ⟨before, rfl⟩ := List.suffix_of_suffix_length_le (List.suffix_append ..) hkept hlength
    have hbefore : before <:+ text := List.suffix_append_self_iff.mp hkept
    rw [List.length_append, List.length_append] at hlong
    exact ⟨'…' :: space :: before, rfl, .cut before hbefore (by omega)⟩

/-- A text with room to spare is seen after a blank. -/
theorem SeenAtEnd.exists_blanks (h : SeenAtEnd last shown) (hroom : last.length < shown.length) :
    ∃ before, shown = before ++ space :: last ∧ SeenAtEnd [] before := by
  cases h with
  | whole blanks =>
    obtain ⟨n, rfl⟩ : ∃ n, blanks = n + 1 := Nat.exists_eq_add_one.mpr (by simp at hroom; omega)
    refine ⟨List.replicate n space ++ [], ?_, .whole n⟩
    rw [List.replicate_succ', List.append_nil, List.append_assoc, List.singleton_append]
  | cut kept hkept hlong =>
    simp only [List.length_cons] at hroom
    omega

/-- Of words with spaces between them the last one is seen, and the others as far as they fit. -/
theorem SeenAtEnd.exists_last {words : List Text}
    (h : SeenAtEnd (joinWords (words ++ [last])) shown) (hroom : last.length + 3 ≤ shown.length) :
    ∃ before, shown = before ++ space :: last ∧ SeenAtEnd (joinWords words) before := by
  by_cases hwords : words = []
  · subst hwords
    rw [List.nil_append, Text.joinWords_singleton] at h
    exact h.exists_blanks (by omega)
  · rw [Text.joinWords_concat hwords] at h
    exact h.exists_before hroom

theorem SeenAtStart.exists_first {first : Text} {words : List Text}
    (h : SeenAtStart (joinWords (first :: words)) shown)
    (hroom : first.length + 3 ≤ shown.length) :
    ∃ after, shown = first ++ space :: after ∧ SeenAtStart (joinWords words) after := by
  have hroom' : first.reverse.length + 3 ≤ shown.reverse.length := by
    rwa [List.length_reverse, List.length_reverse]
  have hmirror : ∃ before, shown.reverse = before ++ space :: first.reverse ∧
      SeenAtEnd (joinWords words).reverse before := by
    by_cases hwords : words = []
    · subst hwords
      rw [SeenAtStart, Text.joinWords_singleton] at h
      exact h.exists_blanks (by omega)
    · rw [SeenAtStart, Text.joinWords_cons first hwords, List.reverse_append, List.reverse_cons,
        List.append_assoc, List.singleton_append] at h
      exact h.exists_before hroom'
  obtain ⟨before, hshown, hseen⟩ := hmirror
  refine ⟨before.reverse, ?_, ?_⟩
  · rw [← List.reverse_inj, hshown]
    simp
  · rwa [SeenAtStart, List.reverse_reverse]

end Seen

section Alignment

/-- The text at the right end of its cell. One that is too long is cut behind a mark. -/
def rightAligned (width : Nat) (text : Text) : Text :=
  if text.length ≤ width then List.replicate (width - text.length) space ++ text
  else '…' :: space :: text.rtake (width - 2)

/-- The text at the left end of its cell. One that is too long is cut before a mark. -/
def leftAligned (width : Nat) (text : Text) : Text :=
  if text.length ≤ width then text ++ List.replicate (width - text.length) space
  else text.take (width - 2) ++ [space, '…']

theorem reverse_rightAligned (width : Nat) (text : Text) :
    (rightAligned width text.reverse).reverse = leftAligned width text := by
  rw [rightAligned, leftAligned, List.length_reverse]
  split_ifs
  · simp
  · simp [List.rtake_eq_reverse_take_reverse]

/-- What is seen at the end of a text is determined by its size. -/
theorem SeenAtEnd.eq_rightAligned (h : SeenAtEnd text shown) (hlength : shown.length = width) :
    shown = rightAligned width text := by
  cases h with
  | whole blanks =>
    obtain rfl : blanks + text.length = width := by simpa using hlength
    rw [rightAligned, if_pos (Nat.le_add_left ..), Nat.add_sub_cancel]
  | cut kept hkept hlong =>
    obtain rfl : kept.length + 2 = width := hlength
    rw [rightAligned, if_neg (by omega), Nat.add_sub_cancel, List.rtake,
      ← List.suffix_iff_eq_drop.mp hkept]

theorem SeenAtStart.eq_leftAligned (h : SeenAtStart text shown) (hlength : shown.length = width) :
    shown = leftAligned width text := by
  rw [← reverse_rightAligned, ← SeenAtEnd.eq_rightAligned h (by rwa [List.length_reverse]),
    List.reverse_reverse]

end Alignment

section Cell

/-- Texts with single spaces between them, or a mark if there are none. -/
def listed (texts : List Text) : Text := if texts = [] then ['∅'] else [' '].intercalate texts

theorem stackText_eq_listed (values : List Binary32) :
    stackText values = listed (values.map NumberStyle.plain.write) := by
  cases values <;> rfl

theorem programText_eq_listed (program : List Item) :
    programText program = listed (program.map Item.display) := by
  cases program <;> rfl

/-- The stack's cell is filled, and shows the end of the stack's text. -/
theorem stackCell_spec (hwidth : 2 < width) (values : List Binary32) :
    (stackCell width values).length = width ∧
      SeenAtEnd (stackText values) (stackCell width values) := by
  rw [stackCell]
  split_ifs with hlong
  · let kept := Text.dropTo (2 - width) (stackText values)
    have hdrop : kept = (stackText values).drop ((stackText values).length - (width - 2)) := by
      have hcount : (2 - width : ℤ).natAbs = width - 2 := by omega
      change Text.dropTo (2 - width) (stackText values) = _
      rw [Text.dropTo, if_pos (by omega), hcount]
    have hlength : kept.length + 2 = width := by
      rw [hdrop, List.length_drop]
      omega
    have hpad : Text.padLeft width ('…' :: ' ' :: kept) = '…' :: space :: kept := by
      simp [Text.padLeft, List.leftpad, hlength, space]
    rw [hpad]
    exact ⟨hlength, .cut kept (hdrop ▸ List.drop_suffix ..) (by omega)⟩
  · rw [Text.length_padLeft]
    exact ⟨by omega, .whole _⟩

/-- The program's cell is filled, and shows the start of the program's text. -/
theorem programCell_spec (hwidth : 2 < width) (program : List Item) :
    (programCell width program).length = width ∧
      SeenAtStart (programText program) (programCell width program) := by
  rw [programCell]
  split_ifs with hlong
  · let kept := Text.takeTo (width - 2) (programText program)
    have htake : kept = (programText program).take (width - 2) := by
      have hcount : (width - 2 : ℤ).toNat = width - 2 := by omega
      change Text.takeTo (width - 2) (programText program) = _
      rw [Text.takeTo, if_neg (by omega), hcount]
    have hlength : kept.length + 2 = width := by
      rw [htake, List.length_take]
      omega
    have hpad : Text.padRight width (kept ++ [' ', '…']) = kept ++ [space, '…'] := by
      simp [Text.padRight, List.rightpad, hlength, space]
    rw [hpad, List.length_append]
    exact ⟨hlength, .cut (htake ▸ List.take_prefix ..) (by omega)⟩
  · rw [Text.length_padRight]
    exact ⟨by omega, .whole _ _⟩

theorem stackCell_eq (hwidth : 3 ≤ width) (values : List Binary32) :
    stackCell width values = rightAligned width (stackText values) := by
  obtain ⟨hlength, hseen⟩ := stackCell_spec hwidth values
  exact hseen.eq_rightAligned hlength

theorem programCell_eq (hwidth : 3 ≤ width) (program : List Item) :
    programCell width program = leftAligned width (programText program) := by
  obtain ⟨hlength, hseen⟩ := programCell_spec hwidth program
  exact hseen.eq_leftAligned hlength

/-- In the cells of a trace, the value on top of the stack stands whole at the end of the
stack's cell behind a blank, and the next item at the start of the program's before one. What
is not seen is deeper in the stack or later in the program. -/
theorem cells_show_next (below : List Binary32) (top : Binary32) (first : Token)
    (later : List Token) :
    ∃ deeper after,
      cellsIn (some cellWidth) ((first :: later).map .token) (below ++ [top]) =
        .ok (deeper ++ space :: NumberStyle.plain.write top ++ ' ' :: separator ++
          ' ' :: ((Item.token first).display ++ space :: after)) ∧
      (deeper ++ space :: NumberStyle.plain.write top).length = cellWidth ∧
      ((Item.token first).display ++ space :: after).length = cellWidth ∧
      SeenAtEnd (joinWords (below.map NumberStyle.plain.write)) deeper ∧
      SeenAtStart (joinWords (later.map fun t => (Item.token t).display)) after := by
  have hwidth : 2 < cellWidth := by decide
  have hcell : cellWidth = 72 := rfl
  let values := below ++ [top]
  let program := (first :: later).map Item.token
  have hcells : cellsIn (some cellWidth) program values =
      .ok (stackCell cellWidth values ++ ' ' :: separator ++
        ' ' :: programCell cellWidth program) := rfl
  obtain ⟨hstack, hend⟩ := stackCell_spec hwidth values
  obtain ⟨hprogram, hstart⟩ := programCell_spec hwidth program
  have hvalues : stackText values =
      joinWords (below.map NumberStyle.plain.write ++ [NumberStyle.plain.write top]) := by
    simp [stackText, values]
  have hitems : programText program =
      joinWords ((Item.token first).display :: later.map fun t => (Item.token t).display) := by
    simp [programText, program, Function.comp_def]
  have htop := NumberStyle.length_write_le top
  have hfirst := first.length_display_le
  rw [hvalues] at hend
  rw [hitems] at hstart
  obtain ⟨deeper, hshown, hdeeper⟩ := hend.exists_last (by omega)
  obtain ⟨after, hshown', hafter⟩ := hstart.exists_first (by omega)
  rw [hshown] at hcells hstack
  rw [hshown'] at hcells hprogram
  exact ⟨deeper, after, hcells, hstack, hprogram, hdeeper, hafter⟩

end Cell

end ReversePolish.Display
