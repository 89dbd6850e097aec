import ReversePolish.Proofs.Text.Words
import ReversePolish.Text.Control
import ReversePolish.Text.Quoted

/-! Texts of printable characters only. Such a text is part of a single line, and no escape
stands in it. Numbers are printable, and a printable text stays so when it is padded, cut or
joined with others. -/

namespace ReversePolish.Text

/-- Every character of the text has a shape of its own. -/
def Printable (s : Text) : Prop := ∀ c ∈ s, isPrintable c

instance (s : Text) : Decidable (Printable s) := List.decidableBAll ..

variable {s t : Text}

theorem mem_leftpad {width : Nat} {filler c : Char} (h : c ∈ s.leftpad width filler) :
    c = filler ∨ c ∈ s :=
  (List.mem_append.mp h).imp_left List.eq_of_mem_replicate

theorem mem_rightpad {width : Nat} {filler c : Char} (h : c ∈ s.rightpad width filler) :
    c = filler ∨ c ∈ s :=
  (List.mem_append.mp h).symm.imp_left List.eq_of_mem_replicate

theorem isPrintable_of_isDigit {c : Char} (h : c.isDigit) : isPrintable c := by
  obtain ⟨hlow, hhigh⟩ : 48 ≤ c.toNat ∧ c.toNat ≤ 57 := by
    simpa [Char.isDigit, UInt32.le_iff_toNat_le] using h
  have hruns : isOutside c.toNat ((0, 32) :: (95, 34) :: unprintableRuns.drop 2) := by
    simp only [isOutside, Bool.or_eq_true, Bool.and_eq_true, decide_eq_true_eq]
    omega
  exact hruns

theorem isPrintable_space : isPrintable space := rfl

namespace Printable

theorem escape_not_mem (h : Printable s) : escape ∉ s := fun hmem =>
  absurd (h escape hmem) (by decide)

theorem newline_not_mem (h : Printable s) : '\n' ∉ s := fun hmem =>
  absurd (h '\n' hmem) (by decide)

theorem nil : Printable [] := List.forall_mem_nil _

theorem cons {c : Char} (hc : isPrintable c) (h : Printable s) : Printable (c :: s) :=
  List.forall_mem_cons.mpr ⟨hc, h⟩

theorem append (hs : Printable s) (ht : Printable t) : Printable (s ++ t) :=
  List.forall_mem_append.mpr ⟨hs, ht⟩

theorem leftpad (h : Printable s) (width : Nat) {filler : Char} (hfiller : isPrintable filler) :
    Printable (s.leftpad width filler) := by
  intro c hc
  rcases mem_leftpad hc with rfl | hmem
  · exact hfiller
  · exact h c hmem

theorem padLeft (h : Printable s) (width : Nat) : Printable (padLeft width s) :=
  h.leftpad width isPrintable_space

theorem padRight (h : Printable s) (width : Nat) : Printable (padRight width s) := by
  intro c hc
  rcases mem_rightpad hc with rfl | hmem
  · exact isPrintable_space
  · exact h c hmem

theorem take (h : Printable s) (n : Nat) : Printable (s.take n) := fun c hc =>
  h c (List.mem_of_mem_take hc)

theorem drop (h : Printable s) (n : Nat) : Printable (s.drop n) := fun c hc =>
  h c (List.mem_of_mem_drop hc)

theorem takeTo (h : Printable s) (index : Int) : Printable (takeTo index s) := by
  unfold Text.takeTo
  split <;> exact h.take _

theorem dropTo (h : Printable s) (index : Int) : Printable (dropTo index s) := by
  unfold Text.dropTo
  split <;> exact h.drop _

theorem joinWords {words : List Text} (h : ∀ word ∈ words, Printable word) :
    Printable (joinWords words) := by
  intro c hc
  rcases mem_intercalate hc with rfl | ⟨word, hword, hmem⟩
  · exact isPrintable_space
  · exact h word hword c hmem

theorem grouped (h : Printable s) : Printable (grouped s) := by
  induction s using grouped.induct with
  | case1 s hshort => rwa [Text.grouped, if_pos hshort]
  | case2 s hlong ih =>
    rw [Text.grouped, if_neg hlong]
    exact (ih (h.take _)).append (cons rfl (h.drop _))

end Printable

theorem printable_literal {characters : List Char} (h : Printable characters) :
    Printable (String.ofList characters).toList := by
  rwa [String.toList_ofList]

theorem printable_ofNat (n : Nat) : Printable (ofNat n) := fun _ hc =>
  isPrintable_of_isDigit (Nat.isDigit_of_mem_toDigits (by decide) (by decide) hc)

theorem printable_ofInt (n : Int) : Printable (ofInt n) := by
  unfold ofInt
  split
  · exact (printable_ofNat _).cons rfl
  · exact printable_ofNat _

end ReversePolish.Text
