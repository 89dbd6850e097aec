import ReversePolish.Proofs.Display.Columns
import Mathlib.Data.List.ReduceOption

/-! The two lines of a pointer, for any positions at all. They are equally long, and below
each column stands a mark or a dash: a mark exactly if the column belongs to a marked word.
An empty word that is marked takes a column of its own, so that no marked word goes without. -/

namespace ReversePolish

namespace Text

variable {pieces others : List Text} {separator : Char} {i column : Nat} {piece : Text}

theorem length_intercalate (separator : Char) (pieces : List Text) :
    ([separator].intercalate pieces).length = start pieces pieces.length - 1 := by
  induction pieces with
  | nil => rfl
  | cons piece rest ih =>
    rw [List.length_cons, start_cons_succ]
    rcases rest with _ | ⟨next, rest⟩
    · simp [start]
    · have hpos : 0 < start (next :: rest) (next :: rest).length := by
        rw [List.length_cons, start_cons_succ]
        omega
      rw [intercalate_cons separator piece (List.cons_ne_nil next rest), List.length_append,
        List.length_cons, ih]
      omega

/-- Joined texts are equally long if their pieces are. -/
theorem length_intercalate_congr (h : pieces.map List.length = others.map List.length)
    (separator other : Char) :
    ([separator].intercalate pieces).length = ([other].intercalate others).length := by
  have hcount : pieces.length = others.length := by
    simpa using congrArg List.length h
  rw [length_intercalate, length_intercalate, start_congr h, hcount]

end Text

namespace Display

open Text (escape Occupies joinWords stripControls)

/-- The words as a pointer shows them: an empty word at one of the indices gets a sign. -/
def pointedWords (indices : List (Option Int)) (words : List Text) : List Text :=
  words.mapIdx fun i word => if some (i : Int) ∈ indices ∧ word = [] then ['␣'] else word

/-- Two lines, the lower of which marks the columns of the marked words and no others. -/
structure Aligned (shown : List Text) (marked : Nat → Prop) (upper lower : Text) : Prop extends
    PointsAt shown marked upper lower where
  length_eq : upper.length = lower.length
  signs : ∀ c ∈ lower, c = '^' ∨ c = '─'
  /-- Each marked word has a column, below which there is a mark. -/
  marked_below : ∀ i < shown.length, marked i →
    ∃ column, Occupies shown i column ∧ lower[column]? = some '^'
  unmarked_below : ∀ i column, ¬marked i → Occupies shown i column → lower[column]? = some '─'
  separator_below : ∀ column < upper.length, (∀ i, ¬Occupies shown i column) →
    lower[column]? = some '─'

variable {positions : List Int} {words : List Text} {color : Text}

theorem shownWords_reduceOption (indices : List (Option Int)) (words : List Text) :
    shownWords indices.reduceOption words = pointedWords indices words := by
  refine List.ext_getElem? fun i => ?_
  rw [getElem?_shownWords, pointedWords, List.getElem?_mapIdx]
  refine Option.map_congr fun word _ => ?_
  simp only [shownWord, Bool.and_eq_true, List.contains_iff_mem, List.reduceOption_mem_iff,
    List.isEmpty_iff]

theorem length_lowerLine (positions : List Int) (words : List Text) :
    (joinWords (shownWords positions words)).length = (lowerLine positions words).length :=
  Text.length_intercalate_congr (lengths_lowerPiece positions words).symm _ _

theorem exists_occupies_of_marked {i : Nat} (hi : i < words.length) (h : (i : Int) ∈ positions) :
    ∃ column, Occupies (shownWords positions words) i column := by
  have hword : (shownWords positions words)[i]? = some (shownWord true words[i]) := by
    rw [getElem?_shownWords, List.getElem?_eq_getElem hi, List.contains_iff_mem.mpr h]
    rfl
  have hlength : 0 < (shownWord true words[i]).length := by
    unfold shownWord
    split_ifs with hempty
    · exact Nat.one_pos
    · exact List.length_pos_iff.mpr (by simpa using hempty)
  exact ⟨_, _, hword, le_rfl, by omega⟩

theorem aligned_shownWords (positions : List Int) (hline : ∀ word ∈ words, '\n' ∉ word) :
    Aligned (shownWords positions words) (fun i => (i : Int) ∈ positions)
      (joinWords (shownWords positions words)) (lowerLine positions words) where
  toPointsAt := pointsAt_shownWords positions hline
  length_eq := length_lowerLine positions words
  signs _ hc := (mem_lowerLine hc).symm
  marked_below i hi hmarked := by
    have hlength : (shownWords positions words).length = words.length := by
      simp [shownWords, markWords]
    obtain ⟨column, hcolumn⟩ := exists_occupies_of_marked (hlength ▸ hi) hmarked
    exact ⟨column, hcolumn, (getElem?_lowerLine_eq_mark_iff ..).mpr ⟨i, hmarked, hcolumn⟩⟩
  unmarked_below i column hmarked hcolumn := by
    rw [getElem?_lowerLine hcolumn, if_neg (by simpa using hmarked)]
  separator_below column hcolumn hnone := by
    rw [length_lowerLine] at hcolumn
    have hsign := List.getElem?_eq_getElem hcolumn
    rcases mem_lowerLine (List.getElem_mem hcolumn) with hdash | hmark
    · rw [hsign, hdash]
    · rw [hmark] at hsign
      obtain ⟨i, -, hi⟩ := (getElem?_lowerLine_eq_mark_iff ..).mp hsign
      exact absurd hi (hnone i)

/-- A pointer is two aligned lines once its colours are stripped. Indices may come in any order,
more than once, from outside the words, or be missing. -/
theorem pointer_aligned (hcolor : Text.Invisible color) (indices : List (Option Int))
    (hwords : ∀ word ∈ words, escape ∉ word ∧ '\n' ∉ word) :
    ∃ upper lower,
      stripControls (pointer color indices.reduceOption words) = upper ++ '\n' :: lower ∧
      Aligned (pointedWords indices words) (fun i => some (i : Int) ∈ indices) upper lower := by
  have haligned := aligned_shownWords indices.reduceOption fun word hword => (hwords word hword).2
  simp only [List.reduceOption_mem_iff] at haligned
  rw [stripControls_pointer hcolor _ fun word hword => (hwords word hword).1]
  rw [shownWords_reduceOption] at haligned ⊢
  exact ⟨_, _, rfl, haligned⟩

/-- Two empty words, one of them marked, and indices that are doubled, missing or outside. -/
theorem pointer_aligned_empty_words :
    let color := Text.rendition "1".toList ++ green
    let indices : List (Option Int) := [some 3, none, some 0, some 0, some (-1), some 9]
    let words : List Text := [[], ['a', 'b'], [], ['c']]
    Text.Invisible color ∧ (∀ word ∈ words, escape ∉ word ∧ '\n' ∉ word) ∧
      ∃ upper lower,
        stripControls (pointer color indices.reduceOption words) = upper ++ '\n' :: lower ∧
        Aligned [['␣'], ['a', 'b'], [], ['c']] (fun i => some (i : Int) ∈ indices) upper lower := by
  intro color indices words
  have hcolor : Text.Invisible color :=
    (Text.controlSequence_rendition (by decide)).invisible.append
      (Text.controlSequence_rendition (by decide)).invisible
  have hwords : ∀ word ∈ words, escape ∉ word ∧ '\n' ∉ word := by decide
  exact ⟨hcolor, hwords, pointer_aligned hcolor indices hwords⟩

end Display

end ReversePolish
