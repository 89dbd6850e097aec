import ReversePolish.Proofs.Display.Cell
import ReversePolish.Proofs.Display.Escapes
import ReversePolish.Proofs.Evaluation.Depth
import ReversePolish.Proofs.Evaluation.Verbosity
import ReversePolish.Proofs.Session.Colour
import ReversePolish.Proofs.Token.Words
import Mathlib.Data.List.Forall2

/-! The trace as a record of the run. At verbosities 1 and 2 its lines belong to known steps,
in order, and each shows what the tokens before its step have left on the stack and which
tokens are to come. Taking the record changes nothing else about the run. -/

namespace ReversePolish

open Text (escape Printable stripControls)

section Line

/-- The line of a moment without its colours: the step, the written values at the right end
of their cell, and the items to come at the left end of theirs. -/
def Snapshot.plainLine (m : Snapshot) : Text :=
  Text.padLeft 3 (Text.ofNat m.step) ++ " :  ".toList ++
    Display.rightAligned Display.cellWidth
      (Display.listed (m.stack.bottomUp.map NumberStyle.plain.write)) ++ "  <=>  ".toList ++
    Display.leftAligned Display.cellWidth (Display.listed (m.program.map Item.display))

/-- What is written is a single line, and without control sequences it is the moment's. -/
def Snapshot.IsWrittenAs (m : Snapshot) (text : Text) : Prop :=
  ∃ line, text = line ++ ['\n'] ∧ '\n' ∉ line ∧ line.stripControls = m.plainLine ∧
    m.plainLine.Printable

theorem Snapshot.plainLine_eq (m : Snapshot) :
    m.plainLine = Text.padLeft 3 (Text.ofNat m.step) ++ " :  ".toList ++
      Display.stackCell Display.cellWidth m.stack.bottomUp ++ "  <=>  ".toList ++
      Display.programCell Display.cellWidth m.program := by
  have hwidth : 3 ≤ Display.cellWidth := by decide
  rw [plainLine, Display.stackCell_eq hwidth, Display.programCell_eq hwidth,
    Display.stackText_eq_listed, Display.programText_eq_listed]

variable (step : Nat) (s : Stack) (ts : List Token)

theorem Snapshot.printable_plainLine :
    (Snapshot.plainLine ⟨step, s, ts.map .token⟩).Printable := by
  have hstep := (Text.printable_ofNat step).padLeft 3
  have hcolon : Printable " :  ".toList := Text.printable_literal (by decide)
  have harrow : Printable "  <=>  ".toList := Text.printable_literal (by decide)
  have hstack := Display.printable_stackCell Display.cellWidth s.bottomUp
  have hprogram := Display.printable_programCell Display.cellWidth ts
  rw [Snapshot.plainLine_eq]
  exact (((hstep.append hcolon).append hstack).append harrow).append hprogram

theorem Snapshot.stripControls_display :
    stripControls (Snapshot.display ⟨step, s, ts.map .token⟩) =
      Snapshot.plainLine ⟨step, s, ts.map .token⟩ := by
  have hstart : Text.ControlSequence (Text.rendition "90".toList) :=
    Text.controlSequence_rendition (by decide)
  have hreset : Text.ControlSequence Text.plainRendition :=
    Text.controlSequence_rendition (by decide)
  have hstep := ((Text.printable_ofNat step).padLeft 3).escape_not_mem
  simp only [display, List.append_assoc]
  rw [Text.stripControls_sequence_append hstart, Text.stripControls_append_of_not_mem hstep,
    Text.stripControls_append_of_not_mem (Text.escape_not_mem_literal (by decide)),
    Text.stripControls_sequence_append hreset,
    Text.stripControls_append_of_not_mem (Text.escape_not_mem_literal (by decide)),
    Display.stripControls_cells]
  simp [plainLine_eq]

theorem Snapshot.newline_not_mem_display :
    '\n' ∉ Snapshot.display ⟨step, s, ts.map .token⟩ := by
  intro h
  have hplain := (Snapshot.printable_plainLine step s ts).newline_not_mem
  obtain ⟨before, after, heq⟩ := List.append_of_mem h
  -- A line end survives stripping.
  rw [← stripControls_display, heq, Text.stripControls_append_barrier Text.isBarrier_newline]
    at hplain
  exact hplain (List.mem_append_right _ List.mem_cons_self)

theorem Snapshot.isWrittenAs (controls : Bool) :
    Snapshot.IsWrittenAs ⟨step, s, ts.map .token⟩
      (Message.written controls ⟨.report, Snapshot.display ⟨step, s, ts.map .token⟩⟩) := by
  have hplain := Snapshot.printable_plainLine step s ts
  have hstrip := Snapshot.stripControls_display step s ts
  cases controls with
  | true => exact ⟨_, rfl, Snapshot.newline_not_mem_display step s ts, hstrip, hplain⟩
  | false =>
    refine ⟨Snapshot.plainLine ⟨step, s, ts.map .token⟩, ?_, hplain.newline_not_mem,
      Text.stripControls_of_not_mem hplain.escape_not_mem, hplain⟩
    rw [Message.written_false_eq, hstrip]

end Line

namespace Run

/-- The index of the token that found too few values. -/
def stopped? (r : Run) : Option Nat :=
  match r.outcome with
  | .error (.missingOperands _ index _) => some index
  | _ => none

/-- Whether a trace has a line for the token at `i`. -/
def tracesStep (verbosity : Int) (ts : List Token) (i : Nat) : Bool :=
  verbosity == 2 || i == 0 || ts[i]?.any Token.isOperator

/-- The steps that have a line in the trace: those up to where the run stops, or those of all
tokens and the end. -/
def tracedSteps (verbosity : Int) (ts : List Token) : Option Nat → List Nat
  | some stopped => (List.range (stopped + 1)).filter (tracesStep verbosity ts)
  | none => (List.range ts.length).filter (tracesStep verbosity ts) ++ [ts.length]

/-- The run without what it shows of itself. -/
def untraced (r : Run) : Run := { r with trace := [] }

theorem untraced_after (v w : Int) (step : Nat) (s : Stack) (p : List Item) :
    (after v step s p).untraced = (after w step s p).untraced := by
  induction p generalizing step s with
  | nil => rfl
  | cons item rest ih =>
    rw [after, after]
    cases s.push item with
    | error fault => rfl
    | ok s' => exact ih (step + 1) s'

theorem untraced_run (v : Int) (s : Stack) (p : List Item) : (s.run v p).untraced = s.run 0 p := by
  have hsilent : (s.run 0 p).trace = [] := trace_of_nonpos le_rfl 0 s p
  calc (s.run v p).untraced = (s.run 0 p).untraced := untraced_after v 0 0 s p
    _ = s.run 0 p := by rw [untraced, ← hsilent]

end Run

namespace Stack

/-- The snapshot shows step `i` of the tokens: the rest of them, and the stack that those
before it have left. -/
structure Records (s : Stack) (ts : List Token) (i : Nat) (m : Snapshot) : Prop where
  step : m.step = i
  program : m.program = (ts.drop i).map .token
  stack : s.pushAll ((ts.take i).map .token) = .ok m.stack

variable {s s' : Stack} {ts p q : List Token} {t : Token} {verbosity : Int}

theorem Records.isWrittenAs {i : Nat} {m : Snapshot} (h : s.Records ts i m) (controls : Bool) :
    m.IsWrittenAs (Message.written controls ⟨.report, m.display⟩) := by
  obtain ⟨step, stack, program⟩ := m
  obtain rfl := h.program
  exact Snapshot.isWrittenAs step stack (ts.drop i) controls

theorem records_length (h : s.pushAll (p.map .token) = .ok s') (q : List Token) :
    s.Records (p ++ q) p.length ⟨p.length, s', q.map .token⟩ where
  step := rfl
  program := by rw [List.drop_left]
  stack := by rwa [List.take_left]

theorem showsItem_eq_tracesStep (hv : verbosity = 1 ∨ verbosity = 2) (p q : List Token)
    (t : Token) : Run.showsItem verbosity p.length (.token t) =
      Run.tracesStep verbosity (p ++ t :: q) p.length := by
  have ht : (p ++ t :: q)[p.length]? = some t := by simp
  rw [Run.showsItem, Run.tracesStep, ht, Option.any_some, Item.isOperator, Bool.or_comm t.isOperator]
  rcases hv with rfl | rfl <;> rfl

/-- What one token adds to the record before it is pushed. -/
theorem records_step (hv : verbosity = 1 ∨ verbosity = 2) (h : s.pushAll (p.map .token) = .ok s')
    (t : Token) (q : List Token) :
    List.Forall₂ (s.Records (p ++ t :: q))
      ([p.length].filter (Run.tracesStep verbosity (p ++ t :: q)))
      (if Run.showsItem verbosity p.length (.token t) then
        [⟨p.length, s', .token t :: q.map .token⟩] else []) := by
  rw [showsItem_eq_tracesStep hv p q t, List.filter_singleton, Bool.cond_eq_ite]
  split
  · exact .cons (records_length h (t :: q)) .nil
  · exact .nil

/-- The record of tokens that can be pushed. -/
theorem exists_records_append (hv : verbosity = 1 ∨ verbosity = 2)
    (h : s.pushAll (p.map .token) = .ok s') (q : List Token) :
    ∃ shown, s.run verbosity ((p ++ q).map .token) =
        (Run.after verbosity p.length s' (q.map .token)).withSnapshots shown ∧
      List.Forall₂ (s.Records (p ++ q))
        ((List.range p.length).filter (Run.tracesStep verbosity (p ++ q))) shown := by
  -- From the right, since a line shows all tokens that are to come.
  induction p using List.reverseRecOn generalizing q s' with
  | nil =>
    cases h
    exact ⟨[], rfl, .nil⟩
  | append_singleton p t ih =>
    rw [List.map_append] at h
    obtain ⟨s₁, hp, hlast⟩ := pushAll_append_eq_ok_iff.mp h
    obtain ⟨s₂, hpush, hnil⟩ := pushAll_cons_eq_ok_iff.mp hlast
    cases hnil
    obtain ⟨shown, hrun, hshown⟩ := ih hp (t :: q)
    rw [List.append_assoc, List.singleton_append, hrun, List.map_cons, Run.after, hpush,
      List.length_append, List.length_singleton, List.range_succ, List.filter_append]
    exact ⟨_, Run.withSnapshots_withSnapshots .., List.rel_append hshown (records_step hv hp t q)⟩

theorem stopped?_of_pushAll {items : List Item} (h : s.pushAll items = .ok s') :
    (s.run verbosity items).stopped? = none := by
  rw [Run.stopped?, (run_of_pushAll verbosity h).1, Run.atEnd]
  cases s'.takeOnly.1 <;> rfl

/-- The trace records each step that is to have a line, in order and once. -/
theorem records_trace (hv : verbosity = 1 ∨ verbosity = 2) (s : Stack) (ts : List Token) :
    List.Forall₂ (s.Records ts)
      (Run.tracedSteps verbosity ts (s.run 0 (ts.map .token)).stopped?)
      (s.run verbosity (ts.map .token)).trace := by
  rcases pushAll_cases s ts with ⟨s', h⟩ | ⟨p, t, q, s', rfl, h, ht⟩
  · obtain ⟨shown, hrun, hshown⟩ := exists_records_append hv h []
    have hend : Run.showsEnd verbosity := by
      rcases hv with rfl | rfl <;> rfl
    have hlast : (Run.atEnd verbosity ts.length s').trace = [⟨ts.length, s', []⟩] := if_pos hend
    rw [List.append_nil] at hrun hshown
    rw [stopped?_of_pushAll h, hrun]
    refine List.rel_append hshown ?_
    rw [List.map_nil, Run.after, hlast]
    have hall := records_length h []
    rw [List.append_nil] at hall
    exact .cons hall .nil
  · obtain ⟨shown, hrun, hshown⟩ := exists_records_append hv h (t :: q)
    have hstop : (s.run 0 ((p ++ t :: q).map .token)).stopped? = some p.length := by
      rw [Run.stopped?, (run_of_length_lt 0 h ht).1]
    have hitem : s'.push (.token t) = .error (.missingOperands t s'.length) :=
      pushToken_of_length_lt ht
    rw [hstop, hrun, List.map_cons, Run.after, hitem, Run.tracedSteps, List.range_succ,
      List.filter_append]
    refine List.rel_append hshown ?_
    simpa [Run.withSnapshots, Run.failed] using records_step hv h t q

/-- Verbosity 1 and 2 write exactly one line for each step that is to have one, in order. Each
line shows its step, the tokens to come and the stack that the tokens before have left; and but
for these lines the run is the one without a trace. -/
theorem run_recorded (hv : verbosity = 1 ∨ verbosity = 2) (s : Stack) (ts : List Token)
    (controls : Bool) :
    List.Forall₂ (fun i line => ∃ m, s.Records ts i m ∧ m.IsWrittenAs line)
      (Run.tracedSteps verbosity ts (s.run 0 (ts.map .token)).stopped?)
      ((s.run verbosity (ts.map .token)).traceLines controls) ∧
    (s.run verbosity (ts.map .token)).untraced = s.run 0 (ts.map .token) := by
  refine ⟨List.forall₂_map_right_iff.mpr ?_, Run.untraced_run verbosity s _⟩
  exact (records_trace hv s ts).imp fun i m hm => ⟨m, hm, hm.isWrittenAs controls⟩

/-- The second token is skipped at verbosity 1, and the sum after it stops the run. -/
theorem run_recorded_stopped :
    let ts : List Token := [.number (.ofBits 0x3f800000), .invalid, .binary .add, .constant .pi]
    ((1 : Int) = 1 ∨ (1 : Int) = 2) ∧
      List.Forall₂ (fun i line => ∃ m, Records [] ts i m ∧ m.IsWrittenAs line) [0, 2]
        ((Stack.run [] 1 (ts.map .token)).traceLines true) ∧
      (Stack.run [] 1 (ts.map .token)).untraced = Stack.run [] 0 (ts.map .token) :=
  ⟨.inl rfl, run_recorded (.inl rfl) [] _ true⟩

end Stack

end ReversePolish
