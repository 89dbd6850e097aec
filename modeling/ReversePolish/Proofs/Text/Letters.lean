import ReversePolish.Text.Letters
import Mathlib.Data.List.Forall2

/-! Comparing letters without regard to case. A letter is matched by itself and by its
capital, i by two more characters and s by one. No character matches two small letters
or other plain characters, so a word spells at most one name. -/

namespace ReversePolish.Text

/-- The small letter or other character `p`, or its capital. -/
def IsCaseOf (c p : Char) : Prop := c = p ∨ c = p.toUpper

/-- All that passes for `p` where case does not count. -/
def Matches (c p : Char) : Prop :=
  IsCaseOf c p ∨ p = 'i' ∧ (c = 'İ' ∨ c = 'ı') ∨ p = 's' ∧ c = 'ſ'

/-- A name is plain if it is written in small letters and other characters of ASCII. -/
def IsPlainName (name : Text) : Prop := ∀ p ∈ name, p.toNat < 128 ∧ p.isUpper = false

instance (name : Text) : Decidable (IsPlainName name) := List.decidableBAll _ name

theorem isUpper_eq_false_iff {c : Char} : c.isUpper = false ↔ c.toNat < 65 ∨ 90 < c.toNat := by
  have hdef : c.isUpper = true ↔ 65 ≤ c.toNat ∧ c.toNat ≤ 90 := by
    rw [show c.isUpper = decide ('A'.val ≤ c.val ∧ c.val ≤ 'Z'.val) from rfl, decide_eq_true_eq]
    simp [UInt32.le_iff_toNat_le, ← Char.toNat_val]
  rw [← Bool.not_eq_true, hdef]
  omega

theorem toNat_toLower (c : Char) :
    c.toLower.toNat = if 65 ≤ c.toNat ∧ c.toNat ≤ 90 then c.toNat + 32 else c.toNat := by
  have hiff : (c.val ≥ 'A'.val ∧ c.val ≤ 'Z'.val) ↔ 65 ≤ c.toNat ∧ c.toNat ≤ 90 := by
    simp [UInt32.le_iff_toNat_le, ← Char.toNat_val]
  unfold Char.toLower
  split_ifs with h h' h'
  · have hshift : ('a'.val - 'A'.val).toNat = 32 := by decide
    change (c.val + ('a'.val - 'A'.val)).toNat = _
    rw [UInt32.toNat_add, hshift, Char.toNat_val]
    omega
  · exact absurd (hiff.mp h) h'
  · exact absurd (hiff.mpr h') h
  · rfl

theorem toNat_toUpper (c : Char) :
    c.toUpper.toNat = if 97 ≤ c.toNat ∧ c.toNat ≤ 122 then c.toNat - 32 else c.toNat := by
  have hiff : ('a'.val ≤ c.val ∧ c.val ≤ 'z'.val) ↔ 97 ≤ c.toNat ∧ c.toNat ≤ 122 := by
    simp [UInt32.le_iff_toNat_le, ← Char.toNat_val]
  unfold Char.toUpper
  split_ifs with h h' h'
  · have hshift : ('A'.val - 'a'.val).toNat = 2 ^ 32 - 32 := by decide
    change (c.val + ('A'.val - 'a'.val)).toNat = _
    rw [UInt32.toNat_add, hshift, Char.toNat_val]
    omega
  · exact absurd (hiff.mp h) h'
  · exact absurd (hiff.mpr h') h
  · rfl

theorem toLower_eq_iff {c p : Char} (hp : p.isUpper = false) : c.toLower = p ↔ IsCaseOf c p := by
  rw [isUpper_eq_false_iff] at hp
  rw [IsCaseOf, ← Char.toNat_inj, ← Char.toNat_inj (c := c), ← Char.toNat_inj (c := c),
    toNat_toLower, toNat_toUpper]
  split_ifs <;> omega

theorem isFormOf_iff {c p : Char} (hp : p.isUpper = false) : isFormOf c p ↔ Matches c p := by
  simp [isFormOf, Matches, toLower_eq_iff hp, or_assoc]

theorem spells_iff {word name : Text} (hname : IsPlainName name) :
    word.spells name ↔ List.Forall₂ Matches word name := by
  induction word generalizing name with
  | nil => cases name <;> simp [spells]
  | cons c word ih =>
    rcases name with _ | ⟨p, name⟩
    · simp [spells]
    · have hp := isFormOf_iff (c := c) (hname p List.mem_cons_self).2
      have ih := ih fun q hq => hname q (List.mem_cons_of_mem p hq)
      rw [spells, List.isEqv_cons_cons, Bool.and_eq_true, List.forall₂_cons, hp]
      exact and_congr_right fun _ => ih

theorem Matches.unique {c p q : Char} (hp : p.toNat < 128 ∧ p.isUpper = false)
    (hq : q.toNat < 128 ∧ q.isUpper = false) (h : Matches c p) (h' : Matches c q) : p = q := by
  have hcase : ∀ {r : Char}, r.toNat < 128 ∧ r.isUpper = false → Matches c r →
      c.toLower = r ∨ r = 'i' ∧ (c = 'İ' ∨ c = 'ı') ∨ r = 's' ∧ c = 'ſ' := fun hr hm => by
    rwa [toLower_eq_iff hr.2]
  have hforeign : c = 'İ' ∨ c = 'ı' ∨ c = 'ſ' → ¬c.toLower.toNat < 128 := by
    rintro (rfl | rfl | rfl) <;> decide
  rcases hcase hp h with rfl | ⟨rfl, hi⟩ | ⟨rfl, hs⟩ <;>
    rcases hcase hq h' with rfl | ⟨rfl, hi'⟩ | ⟨rfl, hs'⟩ <;> grind

/-- A word spells one plain name at most. -/
theorem eq_of_forall₂_matches {word name name' : Text} (hname : IsPlainName name)
    (hname' : IsPlainName name') (h : List.Forall₂ Matches word name)
    (h' : List.Forall₂ Matches word name') : name = name' := by
  induction h generalizing name' with
  | nil =>
    cases h'
    rfl
  | cons hc _ ih =>
    cases h' with
    | cons hc' h' =>
      obtain ⟨hp, hname⟩ := List.forall_mem_cons.mp hname
      obtain ⟨hp', hname'⟩ := List.forall_mem_cons.mp hname'
      rw [Matches.unique hp hp' hc hc', ih hname hname' h']

theorem isCaseOf_of_matches {c p : Char} (h : Matches c p) (hc : c.toNat < 128) : IsCaseOf c p := by
  rcases h with h | ⟨-, rfl | rfl⟩ | ⟨-, rfl⟩
  · exact h
  all_goals exact absurd hc (by decide)

theorem isCaseOf_of_matches_of_ne {c p : Char} (h : Matches c p) (hp : p ≠ 'i' ∧ p ≠ 's') :
    IsCaseOf c p := by
  rcases h with h | ⟨rfl, -⟩ | ⟨rfl, -⟩
  · exact h
  · exact absurd rfl hp.1
  · exact absurd rfl hp.2

/-- A plain character is a form of nothing else. -/
theorem isFormOf_eq_false {c p : Char} (hc : c.toNat < 128 ∧ c.isUpper = false)
    (hp : p.toNat < 128 ∧ p.isUpper = false) (h : c ≠ p) : isFormOf c p = false := by
  rw [← Bool.not_eq_true, isFormOf_iff hp.2]
  intro hm
  exact h (Matches.unique hc hp (.inl (.inl rfl)) hm)

theorem plain_of_isDigit {c : Char} (h : c.isDigit) : c.toNat < 128 ∧ c.isUpper = false := by
  have hdigit : 48 ≤ c.toNat ∧ c.toNat ≤ 57 := by
    simpa [Char.isDigit, UInt32.le_iff_toNat_le, ← Char.toNat_val] using h
  rw [isUpper_eq_false_iff]
  omega

end ReversePolish.Text
