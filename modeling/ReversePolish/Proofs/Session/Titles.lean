import ReversePolish.Proofs.Session.Plain

/-! The titles of reports. What goes wrong is explained under a title of its own, and no
other message has one of these titles. So the messages of an evaluation are asides that
explain nothing, followed by the result or by one explanation. -/

namespace ReversePolish

open Text (escape)

/-- The ways in which there is no result. -/
inductive Failure
  | missingOperands | unbalanced | noInput
  deriving DecidableEq

namespace Failure

def title : Failure → Text
  | missingOperands => "STACK ERROR.".toList
  | unbalanced => "UNBALANCED EXPRESSION.".toList
  | noInput => "NO INPUT.".toList

theorem title_injective : Function.Injective title := by
  intro f g h
  cases f <;> cases g <;> first | rfl | exact absurd h (by decide)

theorem escape_not_mem_title (f : Failure) : escape ∉ f.title := by
  cases f <;> decide

end Failure

def Diagnosis.failure : Diagnosis → Failure
  | missingOperands _ _ => .missingOperands
  | unbalanced _ _ => .unbalanced
  | noInput _ => .noInput

namespace Message

variable {m : Message} {title other : Text} {messages : List Message}

/-- The message reports something under the title. -/
def HasTitle (title : Text) (m : Message) : Prop :=
  m.channel = .report ∧ ∃ detail, m.text = banner title detail

/-- The message is a report that explains no failure. -/
def IsAside (m : Message) : Prop :=
  m.channel = .report ∧ ∀ f : Failure, ¬m.HasTitle f.title

/-- The title stands between the colour and the escape that ends it. -/
theorem takeWhile_banner (htitle : escape ∉ title) (detail : Text) :
    (banner title detail).tail.takeWhile (· != escape) = "[30;43m ".toList ++ (title ++ [' ']) := by
  have hsplit : (banner title detail).tail =
      ("[30;43m ".toList ++ (title ++ [' '])) ++ (Text.plainRendition ++ ' ' :: detail) := by
    simp [banner, Text.rendition]
  have hbefore : ∀ c ∈ "[30;43m ".toList ++ (title ++ [' ']), (c != escape) = true := by
    intro c hc
    rw [bne_iff_ne]
    rintro rfl
    simp only [List.mem_append, htitle, false_or] at hc
    exact absurd hc (by decide)
  rw [hsplit, List.takeWhile_append_of_pos hbefore]
  exact List.append_nil _

theorem HasTitle.unique (htitle : escape ∉ title) (hother : escape ∉ other)
    (h : m.HasTitle title) (h' : m.HasTitle other) : title = other := by
  obtain ⟨-, detail, htext⟩ := h
  obtain ⟨-, detail', htext'⟩ := h'
  have hread := takeWhile_banner htitle detail
  rw [← htext, htext', takeWhile_banner hother] at hread
  exact List.append_cancel_right (List.append_cancel_left hread).symm

/-- A title is written on a colour of its own. -/
theorem not_hasTitle (h : m.text[2]? ≠ some '3') : ¬m.HasTitle title := by
  rintro ⟨-, detail, htext⟩
  rw [htext] at h
  exact h rfl

theorem transcript_append (controls : Bool) (channel : Channel) (p q : List Message) :
    transcript controls channel (p ++ q) =
      transcript controls channel p ++ transcript controls channel q := by
  rw [transcript, List.filter_append, List.flatMap_append]
  rfl

/-- Asides are not part of what is written as the result. -/
theorem transcript_of_isAside (h : ∀ m ∈ messages, m.IsAside) (controls : Bool) :
    transcript controls .result messages = [] := by
  have hreports : messages.filter (·.channel == .result) = [] := by
    refine List.filter_eq_nil_iff.mpr fun m hm => ?_
    rw [(h m hm).1]
    decide
  rw [transcript, hreports]
  rfl

end Message

theorem Diagnosis.hasTitle_explanation (words : List Text) (d : Diagnosis) :
    Message.HasTitle d.failure.title ⟨.report, d.explanation words⟩ := by
  cases d <;> exact ⟨rfl, _, rfl⟩

namespace Session

variable (s : Session) (words : List Text) (tokens : List Token)

/-- What an evaluation writes before its result or explanation. -/
def preface : List Message :=
  s.warning words tokens ++
    (Stack.run [] s.settings.verbosity (tokens.map .token)).trace.map
      fun moment => ⟨.report, moment.display⟩

def warningTitle : Text := "WARNING.".toList

section Aside

theorem hasTitle_warning : ∀ m ∈ s.warning words tokens, m.HasTitle warningTitle := by
  intro m hm
  obtain ⟨-, hm⟩ := List.mem_ite_nil_left.mp hm
  cases List.mem_singleton.mp hm
  exact ⟨rfl, _, rfl⟩

theorem title_ne_warningTitle (f : Failure) : f.title ≠ warningTitle := by
  cases f <;> decide

theorem isAside_warning : ∀ m ∈ s.warning words tokens, m.IsAside := by
  intro m hm
  have htitle : m.HasTitle warningTitle := s.hasTitle_warning words tokens m hm
  refine ⟨htitle.1, fun f hf => ?_⟩
  exact title_ne_warningTitle f (hf.unique f.escape_not_mem_title (by decide) htitle)

theorem not_hasTitle_display (title : Text) (moment : Snapshot) :
    ¬Message.HasTitle title ⟨.report, moment.display⟩ :=
  Message.not_hasTitle fun h => absurd (Option.some.inj h) (by decide)

theorem isAside_preface : ∀ m ∈ s.preface words tokens, m.IsAside := by
  refine List.forall_mem_append.mpr ⟨s.isAside_warning words tokens, ?_⟩
  exact List.forall_mem_map.mpr fun moment _ => ⟨rfl, fun f => not_hasTitle_display _ moment⟩

theorem isAside_statistics (milliseconds : Nat) :
    ∀ m ∈ s.statistics milliseconds, m.IsAside := by
  intro m hm
  obtain ⟨-, hm⟩ := List.mem_ite_nil_right.mp hm
  simp only [List.mem_cons, List.not_mem_nil, or_false] at hm
  rcases hm with rfl | rfl | rfl
  all_goals
    refine ⟨rfl, fun f => Message.not_hasTitle fun h => ?_⟩
    exact absurd (Option.some.inj h) (by decide)

end Aside

section Evaluation

variable {s words tokens}

theorem evaluateTokens_of_ok {v : Binary32}
    (h : (Stack.run [] s.settings.verbosity (tokens.map .token)).outcome = .ok v) :
    (s.evaluateTokens words tokens).messages =
        s.preface words tokens ++ [⟨.result, NumberStyle.plain.write v⟩] ∧
      (s.evaluateTokens words tokens).session.failed = s.failed := by
  constructor
  · simp only [evaluateTokens, h]
    rfl
  · simp only [evaluateTokens, h]

theorem evaluateTokens_of_error {e : EvaluationError} {d : Diagnosis}
    (h : (Stack.run [] s.settings.verbosity (tokens.map .token)).outcome = .error e)
    (hdiagnosis : e.incident = .diagnosed d) :
    (s.evaluateTokens words tokens).messages =
        s.preface words tokens ++ [⟨.report, d.explanation words⟩] ∧
      (s.evaluateTokens words tokens).session.failed = true := by
  constructor
  · simp only [evaluateTokens, h, hdiagnosis]
    rfl
  · simp only [evaluateTokens, h, hdiagnosis, handle]

end Evaluation

end Session

end ReversePolish
