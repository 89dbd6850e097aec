import ReversePolish.Text.Control
import Mathlib.Data.List.Infix
import Mathlib.Data.List.TakeWhile

/-! Control sequences as a language, and texts that stripping frees from them. A text is
closed if it is decided within the text what each of its escapes starts: a control sequence
or nothing. Closed texts one after the other are closed, and stripping leaves them without
any control sequence. Of other texts this cannot be said, because what is left of them can
come together to a new sequence. But a line end is part of no sequence, so any lines can be
stripped one by one. -/

namespace ReversePolish.Text

/-- Escape and `[`, parameters, intermediates, and one final character. -/
inductive ControlSequence : Text → Prop
  | mk (parameters intermediates : Text) (final : Char)
    (hparameters : ∀ c ∈ parameters, isParameter c)
    (hintermediates : ∀ c ∈ intermediates, isIntermediate c) (hfinal : isFinal final) :
    ControlSequence (escape :: '[' :: (parameters ++ (intermediates ++ [final])))

/-- The text has a control sequence somewhere. -/
def HasControl (s : Text) : Prop := ∃ sequence, ControlSequence sequence ∧ sequence <:+: s

/-- A text made of whole control sequences, of characters other than escape, and of
escapes that are followed by a character that neither continues nor starts a sequence. -/
inductive Closed : Text → Prop
  | nil : Closed []
  | sequence {s t : Text} (hs : ControlSequence s) (ht : Closed t) : Closed (s ++ t)
  | other {c : Char} {t : Text} (hc : c ≠ escape) (ht : Closed t) : Closed (c :: t)
  | lone {c : Char} {t : Text} (hc : c ≠ escape) (hbracket : c ≠ '[') (ht : Closed t) :
    Closed (escape :: c :: t)

/-- No escape of the text starts a control sequence, whatever follows the text. -/
def Inert (s : Text) : Prop :=
  ∀ before after, s = before ++ escape :: after → ∃ c ∈ after.head?, c ≠ '['

variable {s t : Text} {c : Char}

section Classes

theorem not_isParameter_of_isIntermediate (h : isIntermediate c) : isParameter c = false := by
  simp [isIntermediate, isParameter, Char.le_def, UInt32.le_iff_toNat_le] at *
  omega

theorem not_of_isFinal (h : isFinal c) : isParameter c = false ∧ isIntermediate c = false := by
  simp [isFinal, isIntermediate, isParameter, Char.le_def, UInt32.le_iff_toNat_le] at *
  omega

theorem ne_escape_of_class (h : isParameter c ∨ isIntermediate c ∨ isFinal c) : c ≠ escape := by
  rintro rfl
  revert h
  decide

end Classes

section Scanner

/-- The scanner reads the introducer's sequence whatever follows it. -/
theorem afterIntroducer?_append {parameters intermediates : Text} {final : Char} (rest : Text)
    (hparameters : ∀ c ∈ parameters, isParameter c)
    (hintermediates : ∀ c ∈ intermediates, isIntermediate c) (hfinal : isFinal final) :
    afterIntroducer? (parameters ++ (intermediates ++ final :: rest)) = some rest := by
  have hfirst : (intermediates ++ final :: rest).dropWhile isParameter =
      intermediates ++ final :: rest := by
    rcases intermediates with _ | ⟨c, intermediates⟩
    · simp [(not_of_isFinal hfinal).1]
    · simp [not_isParameter_of_isIntermediate (hintermediates c List.mem_cons_self)]
  have hsecond : (intermediates ++ final :: rest).dropWhile isIntermediate = final :: rest := by
    rw [List.dropWhile_append_of_pos hintermediates]
    simp [(not_of_isFinal hfinal).2]
  rw [afterIntroducer?, List.dropWhile_append_of_pos hparameters, hfirst, hsecond]
  exact if_pos hfinal

theorem exists_of_afterIntroducer? {rest : Text} (h : afterIntroducer? s = some rest) :
    ∃ parameters intermediates final, (∀ c ∈ parameters, isParameter c) ∧
      (∀ c ∈ intermediates, isIntermediate c) ∧ isFinal final ∧
      s = parameters ++ (intermediates ++ final :: rest) := by
  unfold afterIntroducer? at h
  split at h
  · rename_i final tail htail
    split at h
    · rename_i hfinal
      cases h
      refine ⟨s.takeWhile isParameter, (s.dropWhile isParameter).takeWhile isIntermediate, final,
        fun c hc => List.mem_takeWhile_imp hc, fun c hc => List.mem_takeWhile_imp hc, hfinal, ?_⟩
      rw [← htail, List.takeWhile_append_dropWhile, List.takeWhile_append_dropWhile]
    · cases h
  · cases h

/-- The scanner finds a control sequence at the start exactly if there is one. -/
theorem afterControl?_eq_some_iff {rest : Text} :
    afterControl? s = some rest ↔ ∃ sequence, ControlSequence sequence ∧ s = sequence ++ rest := by
  constructor
  · intro h
    unfold afterControl? at h
    split at h
    · rename_i first second body
      split at h
      · rename_i hstart
        obtain ⟨parameters, intermediates, final, hparameters, hintermediates, hfinal, rfl⟩ :=
          exists_of_afterIntroducer? h
        rw [Bool.and_eq_true, beq_iff_eq, beq_iff_eq] at hstart
        obtain ⟨rfl, rfl⟩ := hstart
        exact ⟨_, .mk parameters intermediates final hparameters hintermediates hfinal, by simp⟩
      · cases h
    · cases h
  · rintro ⟨sequence, hsequence, rfl⟩
    cases hsequence with
    | mk parameters intermediates final hparameters hintermediates hfinal =>
      have hscan := afterIntroducer?_append rest hparameters hintermediates hfinal
      simpa [afterControl?] using hscan

end Scanner

/-- The only escape of a sequence is its first character. -/
theorem ControlSequence.exists_body (h : ControlSequence s) :
    ∃ body, s = escape :: '[' :: body ∧ escape ∉ '[' :: body := by
  cases h with
  | mk parameters intermediates final hparameters hintermediates hfinal =>
    refine ⟨_, rfl, fun hmem => ?_⟩
    simp only [List.mem_cons, List.mem_append, List.not_mem_nil, or_false] at hmem
    rcases hmem with hmem | hmem | hmem | hmem
    · cases hmem
    · exact ne_escape_of_class (.inl (hparameters _ hmem)) rfl
    · exact ne_escape_of_class (.inr (.inl (hintermediates _ hmem))) rfl
    · exact ne_escape_of_class (.inr (.inr hfinal)) hmem.symm

section Inert

theorem inert_of_not_mem (h : escape ∉ s) : Inert s := by
  rintro before after rfl
  exact absurd (List.mem_append_right _ List.mem_cons_self) h

theorem Inert.cons (hc : c = escape → ∃ d ∈ s.head?, d ≠ '[') (h : Inert s) : Inert (c :: s) := by
  intro before after heq
  rcases before with _ | ⟨d, before⟩
  · obtain ⟨rfl, rfl⟩ := List.cons.inj heq
    exact hc rfl
  · exact h before after (List.cons.inj heq).2

theorem Inert.append (hs : Inert s) (ht : Inert t) : Inert (s ++ t) := by
  intro before after heq
  rcases List.append_eq_append_iff.mp heq with ⟨middle, rfl, hmiddle⟩ | ⟨middle, hmiddle, hafter⟩
  · exact ht middle after hmiddle
  · rcases middle with _ | ⟨c, middle⟩
    · exact ht [] after hafter.symm
    · obtain ⟨rfl, rfl⟩ := List.cons.inj hafter
      obtain ⟨c, hc, hne⟩ := hs before middle hmiddle
      exact ⟨c, List.mem_head?_append_of_mem_head? hc, hne⟩

theorem Inert.not_hasControl (h : Inert s) : ¬HasControl s := by
  rintro ⟨sequence, hsequence, before, rest, rfl⟩
  obtain ⟨body, rfl, -⟩ := hsequence.exists_body
  obtain ⟨c, hc, hne⟩ := h before ('[' :: (body ++ rest)) (by simp)
  exact hne (Option.some.inj hc).symm

end Inert

section Closed

theorem closed_of_not_mem (h : escape ∉ s) : Closed s := by
  induction s with
  | nil => exact .nil
  | cons c s ih =>
    rw [List.mem_cons, not_or] at h
    exact .other (Ne.symm h.1) (ih h.2)

theorem ControlSequence.closed (h : ControlSequence s) : Closed s :=
  s.append_nil ▸ Closed.sequence h .nil

theorem controlSequence_rendition {parameters : Text} (h : parameters.all isParameter) :
    ControlSequence (rendition parameters) :=
  .mk parameters [] 'm' (List.all_eq_true.mp h) (List.forall_mem_nil _) rfl

theorem closed_rendition {parameters : Text} (h : parameters.all isParameter) :
    Closed (rendition parameters) := (controlSequence_rendition h).closed

theorem closed_plainRendition : Closed plainRendition := closed_rendition (by decide)

theorem Closed.append (hs : Closed s) (ht : Closed t) : Closed (s ++ t) := by
  induction hs with
  | nil => exact ht
  | sequence hs _ ih =>
    rw [List.append_assoc]
    exact .sequence hs ih
  | other hc _ ih => exact .other hc ih
  | lone hc hbracket _ ih => exact .lone hc hbracket ih

theorem Closed.intercalate {separator : Char} (hseparator : separator ≠ escape)
    {pieces : List Text} (h : ∀ piece ∈ pieces, Closed piece) :
    Closed ([separator].intercalate pieces) := by
  induction pieces with
  | nil => exact .nil
  | cons piece rest ih =>
    obtain ⟨hpiece, hrest⟩ := List.forall_mem_cons.mp h
    rcases rest with _ | ⟨next, rest⟩
    · rwa [List.intercalate_singleton]
    · rw [List.intercalate_cons_cons, List.append_assoc]
      exact hpiece.append (.other hseparator (ih hrest))

end Closed

section Strip

theorem stripControls_sequence_append (h : ControlSequence s) (t : Text) :
    stripControls (s ++ t) = stripControls t :=
  stripControls_of_control (afterControl?_eq_some_iff.mpr ⟨s, h, rfl⟩)

theorem afterControl?_eq_none (h : ¬[escape, '['] <+: s) : afterControl? s = none := by
  refine Option.eq_none_iff_forall_ne_some.mpr fun rest hafter => h ?_
  obtain ⟨sequence, hsequence, rfl⟩ := afterControl?_eq_some_iff.mp hafter
  obtain ⟨body, rfl, -⟩ := hsequence.exists_body
  exact List.prefix_append [escape, '['] (body ++ rest)

theorem stripControls_cons_of_ne (hc : c ≠ escape) (s : Text) :
    stripControls (c :: s) = c :: stripControls s :=
  stripControls_cons (afterControl?_eq_none fun h => hc (List.cons_prefix_cons.mp h).1.symm)

theorem stripControls_escape_cons (hc : c ≠ '[') (s : Text) :
    stripControls (escape :: c :: s) = escape :: stripControls (c :: s) := by
  refine stripControls_cons (afterControl?_eq_none fun h => hc ?_)
  exact (List.cons_prefix_cons.mp (List.cons_prefix_cons.mp h).2).1.symm

theorem stripControls_append_of_not_mem (h : escape ∉ s) (t : Text) :
    stripControls (s ++ t) = s ++ stripControls t := by
  induction s with
  | nil => rfl
  | cons c s ih =>
    rw [List.mem_cons, not_or] at h
    rw [List.cons_append, stripControls_cons_of_ne (Ne.symm h.1), ih h.2, List.cons_append]

/-- Stripping takes every control sequence out of a closed text, and brings none about. -/
theorem Closed.inert_stripControls (h : Closed s) : Inert s.stripControls := by
  induction h with
  | nil =>
    rw [stripControls_nil]
    exact inert_of_not_mem List.not_mem_nil
  | sequence hs _ ih => rwa [stripControls_sequence_append hs]
  | other hc _ ih =>
    rw [stripControls_cons_of_ne hc]
    exact ih.cons fun heq => absurd heq hc
  | lone hc hbracket _ ih =>
    -- The escape stays, and so does the character behind it.
    rw [stripControls_escape_cons hbracket, stripControls_cons_of_ne hc]
    exact (ih.cons fun heq => absurd heq hc).cons fun _ => ⟨_, rfl, hbracket⟩

/-- What follows a closed text does not change how it is stripped. -/
theorem Closed.stripControls_append (h : Closed s) (t : Text) :
    stripControls (s ++ t) = stripControls s ++ stripControls t := by
  induction h with
  | nil => rw [stripControls_nil, List.nil_append, List.nil_append]
  | sequence hs _ ih =>
    rw [List.append_assoc, stripControls_sequence_append hs, stripControls_sequence_append hs, ih]
  | other hc _ ih =>
    rw [List.cons_append, stripControls_cons_of_ne hc, stripControls_cons_of_ne hc, ih,
      List.cons_append]
  | lone hc hbracket _ ih =>
    simp only [List.cons_append, stripControls_escape_cons hbracket,
      stripControls_cons_of_ne hc, ih]

theorem stripControls_of_not_mem (h : escape ∉ s) : stripControls s = s := by
  have hnil := stripControls_append_of_not_mem h []
  rwa [List.append_nil, stripControls_nil, List.append_nil] at hnil

theorem ControlSequence.stripControls_eq_nil (h : ControlSequence s) : stripControls s = [] := by
  have hnil := stripControls_sequence_append h []
  rwa [List.append_nil, stripControls_nil] at hnil

/-- A closed text of which stripping leaves nothing, such as any colours. -/
structure Invisible (s : Text) : Prop where
  closed : Closed s
  stripped : stripControls s = []

theorem ControlSequence.invisible (h : ControlSequence s) : Invisible s :=
  ⟨h.closed, h.stripControls_eq_nil⟩

theorem Invisible.append (hs : Invisible s) (ht : Invisible t) : Invisible (s ++ t) where
  closed := hs.closed.append ht.closed
  stripped := by rw [hs.closed.stripControls_append, hs.stripped, ht.stripped, List.nil_append]

theorem Invisible.stripControls_append (h : Invisible s) (t : Text) :
    stripControls (s ++ t) = stripControls t := by
  rw [h.closed.stripControls_append, h.stripped, List.nil_append]

/-- Closed pieces are stripped one by one. -/
theorem stripControls_intercalate {separator : Char} (hseparator : separator ≠ escape)
    {pieces : List Text} (h : ∀ piece ∈ pieces, Closed piece) :
    stripControls ([separator].intercalate pieces) =
      [separator].intercalate (pieces.map stripControls) := by
  induction pieces with
  | nil => exact stripControls_nil
  | cons piece rest ih =>
    obtain ⟨hpiece, hrest⟩ := List.forall_mem_cons.mp h
    rcases rest with _ | ⟨next, rest⟩
    · rw [List.map_singleton, List.intercalate_singleton, List.intercalate_singleton]
    · rw [List.map_cons, List.map_cons, List.intercalate_cons_cons, List.intercalate_cons_cons,
        List.append_assoc, List.append_assoc, hpiece.stripControls_append, List.singleton_append,
        stripControls_cons_of_ne hseparator, ih hrest, List.map_cons]
      rfl

/-- Stripping brings about any control sequence that stood around another one. -/
theorem hasControl_stripControls_nested {before inner body : Text} (hbefore : Closed before)
    (hinner : ControlSequence inner) (houter : ControlSequence (escape :: body)) (after : Text) :
    HasControl (stripControls (before ++ escape :: (inner ++ (body ++ after)))) := by
  have hbody : escape ∉ body := by
    obtain ⟨tail, heq, htail⟩ := houter.exists_body
    rwa [(List.cons.inj heq).2]
  have hescape : stripControls (escape :: (inner ++ (body ++ after))) =
      escape :: stripControls (inner ++ (body ++ after)) := by
    obtain ⟨tail, rfl, -⟩ := hinner.exists_body
    exact stripControls_escape_cons (by decide) _
  rw [hbefore.stripControls_append, hescape, stripControls_sequence_append hinner,
    stripControls_append_of_not_mem hbody]
  exact ⟨_, houter, stripControls before, stripControls after, by simp⟩

end Strip

section Barrier

/-- A character that is part of no control sequence. -/
structure IsBarrier (c : Char) : Prop where
  ne_escape : c ≠ escape
  not_parameter : isParameter c = false
  not_intermediate : isIntermediate c = false
  not_final : isFinal c = false

theorem isBarrier_newline : IsBarrier '\n' := by
  constructor <;> decide

theorem ControlSequence.not_mem (h : ControlSequence s) (hc : IsBarrier c) : c ∉ s := by
  cases h with
  | mk parameters intermediates final hparameters hintermediates hfinal =>
    simp only [List.mem_cons, List.mem_append, List.not_mem_nil, or_false, not_or]
    refine ⟨hc.ne_escape, ?_, fun hmem => ?_, fun hmem => ?_, ?_⟩
    · rintro rfl
      cases hc.not_final
    · exact absurd (hparameters c hmem) (by simp [hc.not_parameter])
    · exact absurd (hintermediates c hmem) (by simp [hc.not_intermediate])
    · rintro rfl
      exact absurd hfinal (by simp [hc.not_final])

theorem afterControl?_append_barrier (hc : IsBarrier c) (s t : Text) :
    afterControl? (s ++ c :: t) = (afterControl? s).map (· ++ c :: t) := by
  refine Option.ext fun rest => ?_
  rw [Option.map_eq_some_iff, afterControl?_eq_some_iff]
  constructor
  · rintro ⟨sequence, hsequence, heq⟩
    rcases List.append_eq_append_iff.mp heq with ⟨middle, rfl, hrest⟩ | ⟨middle, rfl, rfl⟩
    · rcases middle with _ | ⟨d, middle⟩
      · exact ⟨[], afterControl?_eq_some_iff.mpr ⟨s, by simpa using hsequence, by simp⟩, hrest⟩
      · cases hrest
        exact absurd (List.mem_append_right _ List.mem_cons_self) (hsequence.not_mem hc)
    · exact ⟨middle, afterControl?_eq_some_iff.mpr ⟨sequence, hsequence, rfl⟩, rfl⟩
  · rintro ⟨middle, hmiddle, rfl⟩
    obtain ⟨sequence, hsequence, rfl⟩ := afterControl?_eq_some_iff.mp hmiddle
    exact ⟨sequence, hsequence, by simp⟩

/-- No control sequence goes past a barrier, so what stands on its two sides is stripped
apart. -/
theorem stripControls_append_barrier (hc : IsBarrier c) (s t : Text) :
    stripControls (s ++ c :: t) = stripControls s ++ c :: stripControls t := by
  induction s using stripControls.induct with
  | case1 s rest hcontrol ih =>
    have hafter : afterControl? (s ++ c :: t) = some (rest ++ c :: t) := by
      rw [afterControl?_append_barrier hc, hcontrol]
      rfl
    rw [stripControls_of_control hafter, stripControls_of_control hcontrol, ih]
  | case2 =>
    rw [List.nil_append, stripControls_cons_of_ne hc.ne_escape, stripControls_nil, List.nil_append]
  | case3 d rest hcontrol ih =>
    have hafter : afterControl? (d :: (rest ++ c :: t)) = none := by
      rw [← List.cons_append, afterControl?_append_barrier hc, hcontrol]
      rfl
    rw [List.cons_append, stripControls_cons hafter, stripControls_cons hcontrol, ih,
      List.cons_append]

end Barrier

end ReversePolish.Text
