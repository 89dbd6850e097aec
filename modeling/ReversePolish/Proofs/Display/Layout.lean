import ReversePolish.Proofs.Display.Cell
import ReversePolish.Proofs.Evaluation.Record

/-! The layout of cells and trace lines. From a width of three on, a cell is as wide as it was
asked to be, with its text aligned to one side or cut behind a mark, so the arrow between two
cells stands in one column of a trace. Below that the mark leaves no room, and a stack that has
to be cut is shown wider than its cell. -/

namespace ReversePolish

open Text (space)

namespace Display

variable {width : Nat} {values : List Binary32}

section Width

theorem widthOf_of_le (h : width ≤ largestWidth) : widthOf width = .ok width := by
  have hnonneg : ¬(width : Int) < 0 := (Int.natCast_nonneg width).not_gt
  rw [widthOf, Int.natAbs_natCast, if_neg (Nat.not_lt.mpr h), if_neg hnonneg, Int.toNat_natCast]

/-- A width that is not refused is the one that was asked for. -/
theorem map_widthOf (layout : Nat → Text) (width : Nat) :
    (widthOf width).map layout = (widthOf width).map fun _ => layout width := by
  unfold widthOf
  split_ifs <;> rfl

end Width

section Narrow

theorem stackCell_of_le (h : (stackText values).length ≤ width) :
    stackCell width values =
      List.replicate (width - (stackText values).length) space ++ stackText values := by
  rw [stackCell, if_neg (Nat.not_lt.mpr h)]
  rfl

/-- In a cell that has no room beside the mark, what is cut off is counted from the other end,
and at a width of two nothing is. -/
theorem stackCell_of_narrow (hwidth : width ≤ 2) (hlong : width < (stackText values).length) :
    stackCell width values = '…' :: space :: (stackText values).drop (2 - width) := by
  have hindex : ¬(2 - width : ℤ) < 0 := by omega
  have hcount : (2 - width : ℤ).toNat = 2 - width := by omega
  rw [stackCell, if_pos hlong, Text.dropTo, if_neg hindex, hcount, Text.padLeft, List.leftpad]
  have hfull : width - ('…' :: ' ' :: (stackText values).drop (2 - width)).length = 0 := by
    simp only [List.length_cons]
    omega
  rw [hfull]
  rfl

theorem length_stackCell_narrow (hwidth : width ≤ 2) (hlong : width < (stackText values).length) :
    width < (stackCell width values).length := by
  rw [stackCell_of_narrow hwidth hlong]
  simp only [List.length_cons, List.length_drop]
  omega

theorem length_stackCell_iff (width : Nat) (values : List Binary32) :
    (stackCell width values).length = width ↔
      2 < width ∨ (stackText values).length ≤ width := by
  rcases Nat.lt_or_ge 2 width with hwide | hnarrow
  · exact iff_of_true (stackCell_spec hwide values).1 (.inl hwide)
  rcases Nat.lt_or_ge width (stackText values).length with hlong | hshort
  · have := length_stackCell_narrow hnarrow hlong
    omega
  · refine iff_of_true ?_ (.inr hshort)
    rw [stackCell, if_neg (Nat.not_lt.mpr hshort), Text.length_padLeft]
    exact Nat.max_eq_left hshort

/-- A stack that is too long is shown as the mark and a suffix of it, at any width. -/
theorem exists_suffix_stackCell (hlong : width < (stackText values).length) :
    ∃ kept, kept <:+ stackText values ∧ stackCell width values = '…' :: space :: kept := by
  rcases Nat.lt_or_ge 2 width with hwide | hnarrow
  · rw [stackCell_eq hwide, rightAligned, if_neg (Nat.not_le.mpr hlong)]
    exact ⟨_, List.drop_suffix .., rfl⟩
  · exact ⟨_, List.drop_suffix .., stackCell_of_narrow hnarrow hlong⟩

/-- A shown stack is exactly as wide as it was asked to be if there is room beside the mark or
if nothing has to be cut, and only then. All of it is shown, or the mark and a suffix. -/
theorem stackIn_fills_iff (width : Nat) (values : List Binary32) :
    (stackIn (some width) values = (widthOf width).map fun _ => stackCell width values) ∧
    (width ≤ largestWidth → widthOf width = .ok width) ∧
    ((stackCell width values).length = width ↔
      2 < width ∨ (stackText values).length ≤ width) ∧
    if (stackText values).length ≤ width then
      stackCell width values =
        List.replicate (width - (stackText values).length) space ++ stackText values
    else ∃ kept, kept <:+ stackText values ∧ stackCell width values = '…' :: space :: kept := by
  refine ⟨map_widthOf (stackCell · values) width, widthOf_of_le,
    length_stackCell_iff width values, ?_⟩
  split_ifs with h
  · exact stackCell_of_le h
  · exact exists_suffix_stackCell (Nat.lt_of_not_le h)

/-- In a cell of two characters, where the mark alone would fit, two numbers are shown whole
behind it. -/
theorem stackIn_exceeds_two :
    let values : List Binary32 := [.ofBits 0x3f800000, .ofBits 0x40000000]
    let shown : Text := ['…', ' ', '1', ' ', '2']
    2 ≤ 2 ∧ stackIn (some 2) values = .ok shown ∧ shown.length ≠ 2 := by
  decide +kernel

end Narrow

section Columns

theorem not_mem_stackCell {c : Char} (htext : c ∉ stackText values) (hspace : c ≠ space)
    (hmark : c ≠ '…') : c ∉ stackCell width values := by
  rcases Nat.lt_or_ge width (stackText values).length with hlong | hshort
  · obtain ⟨kept, hkept, hcell⟩ := exists_suffix_stackCell hlong
    rw [hcell]
    simp only [List.mem_cons, not_or]
    exact ⟨hmark, hspace, fun hmem => htext (hkept.subset hmem)⟩
  · rw [stackCell_of_le hshort, List.mem_append, not_or]
    exact ⟨fun hmem => hspace (List.eq_of_mem_replicate hmem), htext⟩

theorem arrow_not_mem_stackText (values : List Binary32) : '<' ∉ stackText values := by
  intro h
  rw [stackText] at h
  split_ifs at h
  · exact absurd h (by decide)
  · rcases Text.mem_intercalate h with heq | ⟨word, hword, hmem⟩
    · exact absurd heq (by decide)
    · obtain ⟨v, -, rfl⟩ := List.mem_map.mp hword
      exact absurd (mem_write hmem) (by decide)

/-- Up to a step of three digits, what precedes the arrow of a trace line has a fixed size. -/
theorem exists_before_arrow {m : Snapshot} (hstep : m.step < 1000) :
    ∃ before after, m.plainLine = before ++ "<=>".toList ++ after ∧
      before.length = cellWidth + 9 ∧ '<' ∉ before := by
  have hdigits : (Text.ofNat m.step).length ≤ 3 :=
    (Nat.length_toDigits_le_iff (by decide) (by decide)).mpr hstep
  have hcell := (stackCell_spec (show 2 < cellWidth by decide) m.stack.bottomUp).1
  have hnumber : '<' ∉ Text.padLeft 3 (Text.ofNat m.step) := by
    intro h
    rcases Text.mem_leftpad h with heq | hmem
    · exact absurd heq (by decide)
    · exact absurd (Nat.isDigit_of_mem_toDigits (by decide) (by decide) hmem) (by decide)
  have hstack : '<' ∉ stackCell cellWidth m.stack.bottomUp :=
    not_mem_stackCell (arrow_not_mem_stackText _) (by decide) (by decide)
  refine ⟨Text.padLeft 3 (Text.ofNat m.step) ++ " :  ".toList ++
    stackCell cellWidth m.stack.bottomUp ++ "  ".toList,
    "  ".toList ++ programCell cellWidth m.program, ?_, ?_, ?_⟩
  · simp [Snapshot.plainLine_eq]
  · simp only [List.length_append, Text.length_padLeft, hcell, Nat.max_eq_left hdigits]
    rfl
  · simp [hnumber, hstack]

/-- From a width of three on, both cells are exactly as wide as they were asked to be: the stack
at the right end of its cell or cut on its left, the program at the left end of its cell or cut
on its right. So in all lines of a trace up to a step of three digits the arrow stands in one
column. -/
theorem cells_laid_out (hwidth : 3 ≤ width) (ts : List Token) (values : List Binary32) :
    let program := ts.map Item.token
    let left := rightAligned width (stackText values)
    let right := leftAligned width (programText program)
    (cellsIn (some width) program values =
      (widthOf width).map fun _ => cells width program values) ∧
    (width ≤ largestWidth → widthOf width = .ok width) ∧
    (cells width program values).stripControls = left ++ "  <=>  ".toList ++ right ∧
    left.length = width ∧ right.length = width ∧
    ∀ (s : Stack) (verbosity : Int) (controls : Bool),
      ∀ m ∈ (s.run verbosity program).trace, m.step < 1000 →
        ∃ line before after, Message.written controls ⟨.report, m.display⟩ = line ++ ['\n'] ∧
          line.stripControls = before ++ "<=>".toList ++ after ∧
          before.length = cellWidth + 9 ∧ '<' ∉ before := by
  intro program left right
  have hleft : stackCell width values = left := stackCell_eq hwidth values
  have hright : programCell width program = right := programCell_eq hwidth program
  refine ⟨map_widthOf (cells · program values) width, widthOf_of_le, ?_, ?_, ?_, ?_⟩
  · rw [stripControls_cells, hleft, hright]
  · rw [← hleft]
    exact (stackCell_spec hwidth values).1
  · rw [← hright]
    exact (programCell_spec hwidth program).1
  · intro s verbosity controls m hm hstep
    obtain ⟨p, hsplit, -, -⟩ := Run.split_of_mem_trace hm
    obtain ⟨-, later, -, -, hlater⟩ := List.map_eq_append_iff.mp hsplit
    obtain ⟨step, stack, items⟩ := m
    obtain rfl : later.map Item.token = items := hlater
    obtain ⟨line, hline, -, hplain, -⟩ := Snapshot.isWrittenAs step stack later controls
    obtain ⟨before, after, harrow, hbefore⟩ := exists_before_arrow hstep
    exact ⟨line, before, after, hline, hplain.trans harrow, hbefore⟩

/-- Both texts of seven characters are cut in cells of five, and the arrow of the first trace
line stands behind the step and the cell. -/
theorem cells_laid_out_cut :
    let values : List Binary32 :=
      [.ofBits 0x3f800000, .ofBits 0x40000000, .ofBits 0x40400000, .ofBits 0x40800000]
    let ts : List Token := [.constant .pi, .constant .e, .unary .ln]
    let start : Snapshot := ⟨0, [], ts.map .token⟩
    3 ≤ 5 ∧ start ∈ (Stack.run [] 2 (ts.map .token)).trace ∧ start.step < 1000 ∧
      (cells 5 (ts.map .token) values).stripControls =
        ['…', ' ', '3', ' ', '4'] ++ "  <=>  ".toList ++ ['p', 'i', ' ', ' ', '…'] ∧
      ∃ line before after, Message.written true ⟨.report, start.display⟩ = line ++ ['\n'] ∧
        line.stripControls = before ++ "<=>".toList ++ after ∧ before.length = 81 ∧
        '<' ∉ before := by
  intro values ts start
  have hwidth : 3 ≤ 5 := by decide
  have hstart : start ∈ (Stack.run [] 2 (ts.map .token)).trace := List.mem_cons_self
  have hstep : start.step < 1000 := by decide
  obtain ⟨-, -, hcells, -, -, htrace⟩ := cells_laid_out hwidth ts values
  have hleft : rightAligned 5 (stackText values) = ['…', ' ', '3', ' ', '4'] := by decide +kernel
  have hright : leftAligned 5 (programText (ts.map .token)) = ['p', 'i', ' ', ' ', '…'] := by
    decide +kernel
  rw [hleft, hright] at hcells
  exact ⟨hwidth, hstart, hstep, hcells, htrace [] 2 true start hstart hstep⟩

end Columns

end Display

end ReversePolish
