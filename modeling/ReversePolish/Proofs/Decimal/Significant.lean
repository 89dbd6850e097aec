import ReversePolish.Proofs.Decimal.Positional

/-! Significant digits. They are what is left of a number's text when all but its digits and
the zeros around these are dropped. A positional text has the digits of its decimal, and there
are no more of them than its coefficient needs. -/

namespace ReversePolish

namespace Text

/-- The digits of a number's text without the zeros before and after them. -/
def significant (text : Text) : Text :=
  ((text.filter Char.isDigit).dropWhile (· == '0')).rdropWhile (· == '0')

theorem significant_of_filter {text rest : Text} {first : Char} {before after : Nat}
    (h : text.filter Char.isDigit =
      List.replicate before '0' ++ (first :: rest ++ List.replicate after '0'))
    (hfirst : first ≠ '0') (hlast : (first :: rest).rdropWhile (· == '0') = first :: rest) :
    significant text = first :: rest := by
  have hzeros : ∀ n, ∀ c ∈ List.replicate n '0', (c == '0') = true := fun n c hc =>
    beq_iff_eq.mpr (List.eq_of_mem_replicate hc)
  rw [significant, h, List.dropWhile_append_of_pos (hzeros before), List.cons_append,
    List.dropWhile_cons_of_neg (by simpa using hfirst), ← List.cons_append, List.rdropWhile,
    List.reverse_append, List.reverse_replicate, List.dropWhile_append_of_pos (hzeros after)]
  exact hlast

end Text

namespace Decimal

variable {d : Decimal}

theorem exists_toDigits_cons {n : Nat} (hn : 0 < n) :
    ∃ first rest, Nat.toDigits 10 n = first :: rest ∧ first ≠ '0' := by
  induction n using Nat.strongRecOn with
  | ind n ih =>
    rw [Nat.toDigits_eq_if (by decide)]
    split_ifs with hlt
    · exact ⟨n.digitChar, [], rfl, by simpa using hn.ne'⟩
    · obtain ⟨first, rest, heq, hfirst⟩ := ih (n / 10) (by omega) (by omega)
      exact ⟨first, rest ++ [(n % 10).digitChar], by rw [heq, List.cons_append], hfirst⟩

/-- The digits start with one that is not zero. -/
theorem exists_digits_cons (hd : d.coefficient ≠ 0) :
    ∃ first rest, d.digits = first :: rest ∧ first ≠ '0' := by
  obtain ⟨zeros, h⟩ := d.exists_toDigits_eq
  obtain ⟨first, rest, heq, hfirst⟩ := exists_toDigits_cons (Nat.pos_of_ne_zero hd)
  rw [heq] at h
  rcases hdigits : d.digits with _ | ⟨c, cs⟩
  · rw [hdigits, List.nil_append] at h
    exact absurd (List.eq_of_mem_replicate (h ▸ List.mem_cons_self)) hfirst
  · rw [hdigits, List.cons_append] at h
    exact ⟨c, cs, rfl, (List.cons.inj h).1 ▸ hfirst⟩

theorem filter_positional (d : Decimal) :
    ∃ before after, (d.positional []).filter Char.isDigit =
      List.replicate before '0' ++ (d.digits ++ List.replicate after '0') := by
  have hfilter : ∀ {s : Text}, Text.Digits s → s.filter Char.isDigit = s := fun hs =>
    List.filter_eq_self.mpr hs
  have hdigits := d.digits_digits
  simp only [positional]
  split_ifs with hpoint hlength
  · refine ⟨d.point.natAbs + 1, 0, ?_⟩
    rw [List.filter_cons_of_pos (by decide), List.filter_cons_of_neg (by decide),
      List.filter_append, hfilter (digits_replicate_zero _), hfilter hdigits,
      List.replicate_zero, List.append_nil]
    rfl
  · refine ⟨0, d.point.toNat - d.digits.length, ?_⟩
    rw [List.append_nil, List.filter_append, hfilter hdigits, hfilter (digits_replicate_zero _)]
    rfl
  · refine ⟨0, 0, ?_⟩
    have hwhole := hfilter fun c hc => hdigits c (List.mem_of_mem_take (i := d.point.toNat) hc)
    have hfraction := hfilter fun c hc => hdigits c (List.mem_of_mem_drop (i := d.point.toNat) hc)
    rw [List.filter_append, List.filter_cons_of_neg (by decide), hwhole, hfraction,
      List.take_append_drop, List.replicate_zero, List.append_nil]
    rfl

/-- The significant digits of a positional text are those of the decimal. -/
theorem significant_positional (hd : d.coefficient ≠ 0) {sign : Text}
    (hsign : sign.filter Char.isDigit = []) :
    Text.significant (sign ++ d.positional []) = d.digits := by
  obtain ⟨first, rest, hdigits, hfirst⟩ := d.exists_digits_cons hd
  obtain ⟨before, after, hfilter⟩ := d.filter_positional
  have hlast : d.digits.rdropWhile (· == '0') = d.digits := by
    rw [digits_eq_rdropWhile, List.rdropWhile_idempotent]
  rw [hdigits] at hfilter hlast ⊢
  have hsigned : (sign ++ d.positional []).filter Char.isDigit =
      List.replicate before '0' ++ (first :: rest ++ List.replicate after '0') := by
    rw [List.filter_append, hsign, List.nil_append, hfilter]
  exact Text.significant_of_filter hsigned hfirst hlast

theorem ofDigitChars_digits_lt (d : Decimal) :
    Nat.ofDigitChars 10 d.digits 0 < 10 ^ d.digits.length := by
  obtain ⟨zeros, h⟩ := d.exists_toDigits_eq
  have hlt : d.coefficient < 10 ^ (Nat.toDigits 10 d.coefficient).length :=
    (Nat.length_toDigits_le_iff (by decide) Nat.length_toDigits_pos).mp le_rfl
  rw [h, List.length_append, List.length_replicate, Nat.pow_add,
    Nat.mul_comm (10 ^ d.digits.length)] at hlt
  have hmul := (coefficient_eq_digits h).symm.trans_lt hlt
  exact Nat.lt_of_mul_lt_mul_left hmul

/-- A power of ten has a single digit that is not dropped. -/
theorem rdropWhile_toDigits_pow (n : Nat) :
    (Nat.toDigits 10 (10 ^ n)).rdropWhile (· == '0') = ['1'] := by
  induction n with
  | zero =>
    rw [Nat.pow_zero, Nat.toDigits_of_lt_base (by decide)]
    rfl
  | succ n ih =>
    have hpow : 0 < 10 ^ n := Nat.pow_pos (by decide)
    rw [Nat.toDigits_of_base_le (by decide) (by rw [Nat.pow_succ]; omega), Nat.pow_succ,
      Nat.mul_div_cancel _ (by decide), Nat.mul_mod_left]
    exact (List.rdropWhile_concat_pos _ _ _ rfl).trans ih

/-- A coefficient up to a power of ten needs no more digits than that has zeros. -/
theorem length_digits_le_of_le_pow {n : Nat} (hn : 0 < n) (hd : d.coefficient ≤ 10 ^ n) :
    d.digits.length ≤ n := by
  rcases hd.lt_or_eq with hlt | heq
  · exact d.length_digits_le.trans ((Nat.length_toDigits_le_iff (by decide) hn).mpr hlt)
  · rw [digits_eq_rdropWhile, heq, rdropWhile_toDigits_pow]
    exact hn

end Decimal

end ReversePolish
