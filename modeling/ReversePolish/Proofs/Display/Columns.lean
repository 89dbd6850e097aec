import ReversePolish.Proofs.Display.Escapes
import ReversePolish.Proofs.Text.Words
import Mathlib.Algebra.BigOperators.Group.List.Basic

/-! Columns of a line of words. A word stands where the words before it and a separator for
each of them end, so words of equal lengths stand in equal columns. The lower line of a
pointer has pieces as long as the shown words, and so its marks stand below exactly the
words that are marked. Colour takes no columns once it is stripped. -/

namespace ReversePolish

namespace Text

/-- The column where the piece at `i` starts if single characters separate the pieces. -/
def start (pieces : List Text) (i : Nat) : Nat := ((pieces.take i).map (·.length + 1)).sum

/-- The piece at `i` stands in the column. -/
def Occupies (pieces : List Text) (i column : Nat) : Prop :=
  ∃ piece, pieces[i]? = some piece ∧
    start pieces i ≤ column ∧ column < start pieces i + piece.length

variable {pieces others : List Text} {separator c : Char} {i column : Nat} {piece : Text}

theorem start_cons_succ (piece : Text) (rest : List Text) (i : Nat) :
    start (piece :: rest) (i + 1) = piece.length + 1 + start rest i := by
  simp [start]

theorem start_congr (h : pieces.map List.length = others.map List.length) (i : Nat) :
    start pieces i = start others i := by
  have hlengths : ∀ pieces : List Text,
      start pieces i = (((pieces.map List.length).take i).map (· + 1)).sum := by
    intro pieces
    rw [start, ← List.map_take, List.map_map]
    rfl
  rw [hlengths, hlengths, h]

/-- Only the lengths of the pieces matter. -/
theorem Occupies.congr (h : pieces.map List.length = others.map List.length)
    (hoccupies : Occupies pieces i column) : Occupies others i column := by
  obtain ⟨piece, hpiece, hfirst, hlast⟩ := hoccupies
  have hlength : (others.map List.length)[i]? = some piece.length := by
    rw [← h, List.getElem?_map, hpiece]
    rfl
  rw [List.getElem?_map] at hlength
  obtain ⟨other, hother, heq⟩ := Option.map_eq_some_iff.mp hlength
  rw [start_congr h] at hfirst hlast
  exact ⟨other, hother, hfirst, heq ▸ hlast⟩

theorem occupies_cons_succ (hoccupies : Occupies pieces i column) (piece : Text) :
    Occupies (piece :: pieces) (i + 1) (piece.length + 1 + column) := by
  obtain ⟨other, hother, hfirst, hlast⟩ := hoccupies
  refine ⟨other, hother, ?_, ?_⟩ <;> rw [start_cons_succ] <;> omega

theorem intercalate_cons (separator : Char) (piece : Text) (hne : pieces ≠ []) :
    [separator].intercalate (piece :: pieces) =
      piece ++ separator :: [separator].intercalate pieces := by
  obtain ⟨next, rest, rfl⟩ := List.exists_cons_of_ne_nil hne
  rw [List.intercalate_cons_cons, List.append_assoc]
  rfl

/-- A piece is found from its start on. -/
theorem getElem?_start_add (hpiece : pieces[i]? = some piece) {k : Nat} (hk : k < piece.length) :
    ([separator].intercalate pieces)[start pieces i + k]? = piece[k]? := by
  induction pieces generalizing i with
  | nil => cases hpiece
  | cons first rest ih =>
    cases i with
    | zero =>
      cases hpiece
      have hstart : start (piece :: rest) 0 + k = k := Nat.zero_add k
      rw [hstart]
      rcases rest with _ | ⟨next, rest⟩
      · rw [List.intercalate_singleton]
      · rw [intercalate_cons separator piece (List.cons_ne_nil next rest),
          List.getElem?_append_left hk]
    | succ i =>
      have hne : rest ≠ [] := by
        rintro rfl
        cases hpiece
      have hcolumn : first.length + 1 + start rest i + k - first.length = start rest i + k + 1 := by
        omega
      rw [intercalate_cons separator first hne, start_cons_succ,
        List.getElem?_append_right (by omega), hcolumn, List.getElem?_cons_succ]
      exact ih hpiece

/-- What stands in a column is a piece or a separator. -/
theorem occupies_or_eq_separator (h : ([separator].intercalate pieces)[column]? = some c) :
    (∃ i, Occupies pieces i column) ∨ c = separator := by
  induction pieces generalizing column with
  | nil => cases h
  | cons piece rest ih =>
    by_cases hfirst : column < piece.length
    · exact .inl ⟨0, piece, rfl, Nat.zero_le _, by simpa [start] using hfirst⟩
    · have hne : rest ≠ [] := by
        rintro rfl
        rw [List.intercalate_singleton, List.getElem?_eq_none (by omega)] at h
        cases h
      rw [intercalate_cons separator piece hne, List.getElem?_append_right (by omega)] at h
      cases hcolumn : column - piece.length with
      | zero =>
        rw [hcolumn] at h
        cases h
        exact .inr rfl
      | succ d =>
        rw [hcolumn, List.getElem?_cons_succ] at h
        refine (ih h).imp_left fun ⟨i, hi⟩ => ⟨i + 1, ?_⟩
        have heq : column = piece.length + 1 + d := by omega
        exact heq ▸ occupies_cons_succ hi piece

end Text

namespace Display

open Text (escape Closed Occupies start joinWords stripControls)

/-- The lower line marks exactly the columns in which marked words stand on the upper line. -/
structure PointsAt (shown : List Text) (marked : Nat → Prop) (upper lower : Text) : Prop where
  joined : upper = joinWords shown
  isLine_upper : '\n' ∉ upper
  isLine_lower : '\n' ∉ lower
  reads : ∀ i word k, shown[i]? = some word → k < word.length →
    upper[start shown i + k]? = word[k]?
  marks : ∀ column, lower[column]? = some '^' ↔ ∃ i, marked i ∧ Occupies shown i column

/-- The words as the upper line shows them. -/
def shownWords (positions : List Int) (words : List Text) : List Text :=
  (markWords positions words).map fun (marked, word) => shownWord marked word

def lowerLine (positions : List Int) (words : List Text) : Text :=
  ['─'].intercalate ((markWords positions words).map fun (marked, word) => lowerPiece marked word)

variable {positions : List Int} {words : List Text} {color : Text}

section Marks

theorem getElem?_markWords (positions : List Int) (words : List Text) (i : Nat) :
    (markWords positions words)[i]? =
      words[i]?.map fun word => (positions.contains (i : Int), word) := by
  rw [markWords, List.getElem?_map, List.getElem?_zipIdx, Option.map_map, Nat.zero_add]
  rfl

theorem lengths_lowerPiece (positions : List Int) (words : List Text) :
    ((markWords positions words).map fun (marked, word) => lowerPiece marked word).map
      List.length = (shownWords positions words).map List.length := by
  rw [shownWords, List.map_map, List.map_map]
  exact List.map_congr_left fun piece _ => List.length_replicate

/-- The sign below a word says whether the word is marked. -/
theorem getElem?_lowerLine {i column : Nat}
    (h : Occupies (shownWords positions words) i column) :
    (lowerLine positions words)[column]? =
      some (if positions.contains (i : Int) then '^' else '─') := by
  obtain ⟨piece, hpiece, hfirst, hlast⟩ := h.congr (lengths_lowerPiece positions words).symm
  obtain ⟨k, rfl⟩ := Nat.exists_eq_add_of_le hfirst
  have hk : k < piece.length := Nat.add_lt_add_iff_left.mp hlast
  rw [lowerLine, Text.getElem?_start_add hpiece hk]
  rw [List.getElem?_map, getElem?_markWords, Option.map_map] at hpiece
  obtain ⟨word, -, rfl⟩ := Option.map_eq_some_iff.mp hpiece
  dsimp only [Function.comp_apply, lowerPiece] at hk ⊢
  rw [List.length_replicate] at hk
  exact List.getElem?_replicate_of_lt hk

theorem getElem?_lowerLine_eq_mark_iff (positions : List Int) (words : List Text) (column : Nat) :
    (lowerLine positions words)[column]? = some '^' ↔
      ∃ i : Nat, (i : Int) ∈ positions ∧ Occupies (shownWords positions words) i column := by
  constructor
  · intro h
    rcases Text.occupies_or_eq_separator h with ⟨i, hi⟩ | hdash
    · have hshown := hi.congr (lengths_lowerPiece positions words)
      rw [getElem?_lowerLine hshown] at h
      refine ⟨i, ?_, hshown⟩
      by_contra hmem
      rw [if_neg (by simpa using hmem)] at h
      exact absurd (Option.some.inj h) (by decide)
    · exact absurd hdash (by decide)
  · rintro ⟨i, hmem, hshown⟩
    rw [getElem?_lowerLine hshown, if_pos (List.contains_iff_mem.mpr hmem)]

end Marks

section Lines

theorem mem_shownWord {marked : Bool} {word : Text} {c : Char} (h : c ∈ shownWord marked word) :
    c = '␣' ∨ c ∈ word := by
  unfold shownWord at h
  split at h
  · exact .inl (List.mem_singleton.mp h)
  · exact .inr h

theorem mem_lowerLine {c : Char} (h : c ∈ lowerLine positions words) : c = '─' ∨ c = '^' := by
  rcases Text.mem_intercalate h with heq | ⟨lower, hlower, hmem⟩
  · exact .inl heq
  · obtain ⟨piece, -, rfl⟩ := List.mem_map.mp hlower
    have heq := List.eq_of_mem_replicate hmem
    split at heq
    · exact .inr heq
    · exact .inl heq

theorem pointsAt_shownWords (positions : List Int) (hline : ∀ word ∈ words, '\n' ∉ word) :
    PointsAt (shownWords positions words) (fun i => (i : Int) ∈ positions)
      (joinWords (shownWords positions words)) (lowerLine positions words) where
  joined := rfl
  isLine_upper := by
    intro h
    rcases Text.mem_intercalate h with heq | ⟨shown, hshown, hmem⟩
    · exact absurd heq (by decide)
    · obtain ⟨piece, hpiece, rfl⟩ := List.mem_map.mp hshown
      rcases mem_shownWord hmem with heq | hmem
      · exact absurd heq (by decide)
      · exact hline _ (mem_of_mem_markWords hpiece) hmem
  isLine_lower := by
    intro h
    rcases mem_lowerLine h with heq | heq <;> exact absurd heq (by decide)
  reads _ _ _ hword hk := Text.getElem?_start_add hword hk
  marks := getElem?_lowerLine_eq_mark_iff positions words

theorem stripControls_upperPiece (hcolor : Text.Invisible color) (marked : Bool)
    {word : Text} (hword : escape ∉ word) :
    stripControls (upperPiece color marked word) = shownWord marked word := by
  have hshown : escape ∉ shownWord marked word := by
    intro h
    rcases mem_shownWord h with heq | hmem
    · exact absurd heq (by decide)
    · exact hword hmem
  have hreset : Text.ControlSequence Text.plainRendition :=
    Text.controlSequence_rendition (by decide)
  cases marked with
  | true =>
    rw [upperPiece, if_pos rfl, List.append_assoc, hcolor.stripControls_append,
      Text.stripControls_append_of_not_mem hshown, hreset.stripControls_eq_nil, List.append_nil]
  | false => exact Text.stripControls_of_not_mem hword

/-- Without its colours a pointer is the shown words above the lower line. -/
theorem stripControls_pointer (hcolor : Text.Invisible color) (positions : List Int)
    (hwords : ∀ word ∈ words, escape ∉ word) :
    stripControls (pointer color positions words) =
      joinWords (shownWords positions words) ++ '\n' :: lowerLine positions words := by
  have hclosed : ∀ piece ∈ (markWords positions words).map
      fun (marked, word) => upperPiece color marked word, Closed piece := by
    refine List.forall_mem_map.mpr fun piece hpiece => ?_
    exact closed_upperPiece hcolor.closed piece.1
      (Text.closed_of_not_mem (hwords _ (mem_of_mem_markWords hpiece)))
  have hupper : stripControls (joinWords ((markWords positions words).map
      fun (marked, word) => upperPiece color marked word)) =
        joinWords (shownWords positions words) := by
    rw [joinWords, Text.stripControls_intercalate (by decide) hclosed, List.map_map]
    refine congrArg joinWords (List.map_congr_left fun piece hpiece => ?_)
    exact stripControls_upperPiece hcolor piece.1 (hwords _ (mem_of_mem_markWords hpiece))
  have hlower : escape ∉ lowerLine positions words := by
    intro h
    rcases mem_lowerLine h with heq | heq <;> exact absurd heq (by decide)
  rw [pointer, Text.stripControls_append_barrier Text.isBarrier_newline, hupper]
  exact congrArg (_ ++ '\n' :: ·) (Text.stripControls_of_not_mem hlower)

theorem getElem?_shownWords (positions : List Int) (words : List Text) (i : Nat) :
    (shownWords positions words)[i]? =
      words[i]?.map fun word => shownWord (positions.contains (i : Int)) word := by
  rw [shownWords, List.getElem?_map, getElem?_markWords, Option.map_map]
  rfl

theorem shownWord_of_ne_nil {word : Text} (hne : word ≠ []) (marked : Bool) :
    shownWord marked word = word :=
  if_neg (by simp [hne])

theorem shownWords_of_forall_marked (h : ∀ i : Nat, words[i]? = some [] → (i : Int) ∈ positions) :
    shownWords positions words = words.map fun word => if word = [] then ['␣'] else word := by
  refine List.ext_getElem? fun i => ?_
  rw [getElem?_shownWords, List.getElem?_map]
  refine Option.map_congr fun word hword => ?_
  by_cases hempty : word = []
  · subst hempty
    rw [List.contains_iff_mem.mpr (h i hword)]
    rfl
  · rw [shownWord_of_ne_nil hempty, if_neg hempty]

theorem shownWords_of_forall_ne_nil (h : ∀ i : Nat, (i : Int) ∈ positions → words[i]? ≠ some []) :
    shownWords positions words = words := by
  refine List.ext_getElem? fun i => ?_
  rw [getElem?_shownWords]
  refine (Option.map_congr fun word hword => ?_).trans Option.map_id'
  cases hmarked : positions.contains (i : Int) with
  | true =>
    refine shownWord_of_ne_nil ?_ true
    rintro rfl
    exact h i (List.contains_iff_mem.mp hmarked) hword
  | false => rfl

end Lines

end Display

end ReversePolish
