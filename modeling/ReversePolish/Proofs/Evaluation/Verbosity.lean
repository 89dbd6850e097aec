import ReversePolish.Proofs.Evaluation.Run
import ReversePolish.Session.Message
import Mathlib.Data.List.Basic

/-! What a run shows at each verbosity. Higher verbosities up to 2 show more of the same run,
and so does every one above 2 compared with the one before it. The step from 2 to 3 is the
exception: above 2 no item is shown any more, and only the end of the run is left. -/

namespace ReversePolish

namespace Run

/-- The lines that a run writes about itself, with or without control sequences. -/
def traceLines (controls : Bool) (r : Run) : List Text :=
  r.trace.map fun moment => Message.written controls ⟨.report, moment.display⟩

variable {v w : Int} {step : Nat} {s : Stack} {item : Item} {rest : List Item}

theorem trace_cons (v : Int) (step : Nat) (s : Stack) (item : Item) (rest : List Item) :
    (after v step s (item :: rest)).trace =
      (if showsItem v step item then [⟨step, s, item :: rest⟩] else []) ++
        match s.push item with
        | .error _ => []
        | .ok s' => (after v (step + 1) s' rest).trace := by
  rw [after]
  cases s.push item <;> rfl

/-- What is shown of each item and of the end is shown of the whole run. -/
theorem trace_sublist (hitem : ∀ step item, showsItem v step item → showsItem w step item)
    (hend : showsEnd v → showsEnd w) (step : Nat) (s : Stack) (p : List Item) :
    (after v step s p).trace.Sublist (after w step s p).trace := by
  induction p generalizing step s with
  | nil =>
    simp only [after, atEnd]
    split_ifs with hv hw
    · exact .refl _
    · exact absurd (hend hv) hw
    · exact List.nil_sublist _
    · exact .refl _
  | cons item rest ih =>
    rw [trace_cons, trace_cons]
    refine List.Sublist.append ?_ ?_
    · split_ifs with hv hw
      · exact .refl _
      · exact absurd (hitem step item hv) hw
      · exact List.nil_sublist _
      · exact .refl _
    · cases s.push item with
      | error fault => exact .refl _
      | ok s' => exact ih (step + 1) s'

theorem showsItem_two (step : Nat) (item : Item) : showsItem 2 step item := rfl

/-- Items are shown at no verbosity but 1 and 2. -/
theorem showsItem_eq_false (h1 : v ≠ 1) (h2 : v ≠ 2) : showsItem v step item = false := by
  simp [showsItem, h1, h2]

theorem showsItem_succ {v : Nat} (hv : v ≠ 2) (h : showsItem v step item) :
    showsItem (v + 1) step item := by
  rcases eq_or_ne v 1 with rfl | h1
  · exact showsItem_two step item
  · rw [showsItem_eq_false (by omega) (by omega)] at h
    cases h

theorem showsEnd_succ {v : Nat} : showsEnd (v + 1) := by
  simp only [showsEnd, decide_eq_true_eq]
  omega

/-- Beyond 2 a run loses a line for each item that it shows at 2. -/
theorem length_trace_three_lt (step : Nat) (s : Stack) (item : Item) (rest : List Item) :
    (after 3 step s (item :: rest)).trace.length <
      (after 2 step s (item :: rest)).trace.length := by
  rw [trace_cons, trace_cons, showsItem_two, showsItem_eq_false (by decide) (by decide)]
  cases s.push item with
  | error fault => exact Nat.zero_lt_one
  | ok s' =>
    have hrest : (after 3 (step + 1) s' rest).trace.Sublist (after 2 (step + 1) s' rest).trace :=
      trace_sublist (fun _ _ _ => rfl) (fun _ => rfl) (step + 1) s' rest
    exact Nat.lt_succ_of_le hrest.length_le

/-- A run that is asked for nothing shows nothing. -/
theorem trace_of_nonpos (hv : v ≤ 0) (step : Nat) (s : Stack) (p : List Item) :
    (after v step s p).trace = [] := by
  induction p generalizing step s with
  | nil => exact if_neg (by simpa [showsEnd] using hv)
  | cons item rest ih =>
    rw [trace_cons, showsItem_eq_false (by omega) (by omega)]
    cases s.push item with
    | error fault => rfl
    | ok s' => exact ih (step + 1) s'

@[simp] theorem length_traceLines (controls : Bool) (r : Run) :
    (r.traceLines controls).length = r.trace.length := List.length_map ..

end Run

namespace Stack

open Run

/-- A run writes all lines that it writes at the verbosity before, unless that is 2 and there
is an item to be shown. -/
theorem traceLines_sublist_succ_iff (controls : Bool) (s : Stack) (p : List Item) (v : Nat) :
    ((s.run v p).traceLines controls).Sublist ((s.run (v + 1) p).traceLines controls) ↔
      (v = 2 → p = []) := by
  constructor
  · rintro hlines rfl
    rcases p with _ | ⟨item, rest⟩
    · rfl
    · have hlength := hlines.length_le
      rw [length_traceLines, length_traceLines] at hlength
      exact absurd hlength (Nat.not_le_of_lt (length_trace_three_lt 0 s item rest))
  · intro hv
    refine List.Sublist.map _ ?_
    rcases eq_or_ne v 2 with rfl | hne
    · rw [hv rfl]
      exact .refl _
    · exact trace_sublist (fun _ _ => showsItem_succ hne) (fun _ => showsEnd_succ) 0 s p

/-- A sum of two numbers is shown in four lines at verbosity 2, and in one at 3. -/
theorem not_sublist_traceLines_sum :
    let sum : List Token :=
      [.number (.ofBits 0x3f800000), .number (.ofBits 0x40000000), .binary .add]
    ¬((Stack.run [] 2 (sum.map .token)).traceLines false).Sublist
      ((Stack.run [] 3 (sum.map .token)).traceLines false) := by
  intro sum hlines
  have hlength := hlines.length_le
  rw [length_traceLines, length_traceLines] at hlength
  exact absurd hlength (by decide)

end Stack

end ReversePolish
