import ReversePolish.Evaluation

/-! The effect of one token on a stack, and the run of a program cut in two. A token
is refused exactly if the stack holds fewer values than it takes, and then nothing has
been taken. A run whose first items can be pushed goes on as the run of the others from
the stack that the first leave, so its outcome depends only on where the pushes stop. -/

namespace ReversePolish

namespace Stack

/-- The stacks before and after a token that is not refused. -/
inductive Pushes : Stack → Token → Stack → Prop
  | number (v : Binary32) (s : Stack) : Pushes s (.number v) (v :: s)
  | constant (c : Constant) (s : Stack) : Pushes s (.constant c) (c.value :: s)
  | unary (op : UnaryOperator) (x : Binary32) (s : Stack) :
    Pushes (x :: s) (.unary op) (op.apply x :: s)
  | binary (op : BinaryOperator) (x y : Binary32) (s : Stack) :
    Pushes (y :: x :: s) (.binary op) (op.apply x y :: s)
  | invalid (s : Stack) : Pushes s .invalid s

theorem pushes_of_pushToken {s s' : Stack} {t : Token} (h : s.pushToken t = .ok s') :
    Pushes s t s' := by
  unfold pushToken at h
  split at h <;> cases h
  · exact .number _ _
  · exact .constant _ _
  · exact .unary _ _ _
  · exact .binary _ _ _ _
  · exact .invalid _

theorem pushToken_eq_ok_iff {s s' : Stack} {t : Token} : s.pushToken t = .ok s' ↔ Pushes s t s' :=
  ⟨pushes_of_pushToken, fun h => by cases h <;> rfl⟩

theorem pushToken_of_length_lt {s : Stack} {t : Token} (h : s.length < t.arity) :
    s.pushToken t = .error (.missingOperands t s.length) := by
  cases t with
  | number v => exact absurd h (Nat.not_lt_zero _)
  | constant c => exact absurd h (Nat.not_lt_zero _)
  | invalid => exact absurd h (Nat.not_lt_zero _)
  | unary op =>
    rcases s with _ | ⟨x, s⟩
    · rfl
    · simp [Token.arity] at h
  | binary op =>
    rcases s with _ | ⟨y, _ | ⟨x, s⟩⟩
    · rfl
    · rfl
    · simp only [Token.arity, List.length_cons] at h
      omega

theorem exists_pushes_of_arity_le {s : Stack} {t : Token} (h : t.arity ≤ s.length) :
    ∃ s', Pushes s t s' := by
  cases t with
  | number v => exact ⟨_, .number v s⟩
  | constant c => exact ⟨_, .constant c s⟩
  | invalid => exact ⟨_, .invalid s⟩
  | unary op =>
    rcases s with _ | ⟨x, s⟩
    · simp [Token.arity] at h
    · exact ⟨_, .unary op x s⟩
  | binary op =>
    rcases s with _ | ⟨y, _ | ⟨x, s⟩⟩
    · simp [Token.arity] at h
    · simp [Token.arity] at h
    · exact ⟨_, .binary op x y s⟩

theorem pushAll_append_eq_ok_iff {s s' : Stack} {p q : List Item} :
    s.pushAll (p ++ q) = .ok s' ↔ ∃ s₁, s.pushAll p = .ok s₁ ∧ s₁.pushAll q = .ok s' := by
  rw [pushAll_append]
  cases s.pushAll p <;> simp [Except.bind]

theorem pushAll_cons_eq_ok_iff {s s' : Stack} {item : Item} {rest : List Item} :
    s.pushAll (item :: rest) = .ok s' ↔ ∃ s₁, s.push item = .ok s₁ ∧ s₁.pushAll rest = .ok s' := by
  rw [pushAll_cons]
  cases s.push item <;> simp [Except.bind]

end Stack

namespace Run

theorem withSnapshots_withSnapshots (first second : List Snapshot) (r : Run) :
    (r.withSnapshots second).withSnapshots first = r.withSnapshots (first ++ second) := by
  simp [withSnapshots]

/-- The run after items that can be pushed, with the snapshots that they are worth. -/
theorem exists_after_append (verbosity : Int) {s s' : Stack} {p : List Item}
    (h : s.pushAll p = .ok s') (step : Nat) (q : List Item) :
    ∃ shown, after verbosity step s (p ++ q) =
      (after verbosity (step + p.length) s' q).withSnapshots shown := by
  induction p generalizing s step with
  | nil =>
    cases h
    exact ⟨[], rfl⟩
  | cons item rest ih =>
    obtain ⟨s₁, hpush, hrest⟩ := Stack.pushAll_cons_eq_ok_iff.mp h
    obtain ⟨shown, hrun⟩ := ih hrest (step + 1)
    rw [List.cons_append, after, hpush, List.length_cons, Nat.add_comm rest.length, ← Nat.add_assoc]
    simp only [hrun, withSnapshots_withSnapshots]
    exact ⟨_, rfl⟩

theorem mem_trace_withSnapshots {shows : Prop} [Decidable shows] {m first : Snapshot} {r : Run} :
    m ∈ (r.withSnapshots (if shows then [first] else [])).trace ↔
      shows ∧ m = first ∨ m ∈ r.trace := by
  simp [withSnapshots]

/-- A snapshot is taken between items that have been pushed and those to come. -/
theorem split_of_mem_trace {verbosity : Int} {step : Nat} {s : Stack} {items : List Item}
    {m : Snapshot} (h : m ∈ (after verbosity step s items).trace) :
    ∃ p, items = p ++ m.program ∧ m.step = step + p.length ∧ s.pushAll p = .ok m.stack := by
  induction items generalizing step s with
  | nil =>
    obtain ⟨-, hm⟩ := List.mem_ite_nil_right.mp h
    cases List.mem_singleton.mp hm
    exact ⟨[], rfl, rfl, rfl⟩
  | cons item rest ih =>
    rw [after] at h
    cases hpush : s.push item with
    | error fault =>
      rw [hpush] at h
      rcases mem_trace_withSnapshots.mp h with ⟨-, rfl⟩ | h
      · exact ⟨[], rfl, rfl, rfl⟩
      · cases h
    | ok s' =>
      rw [hpush] at h
      rcases mem_trace_withSnapshots.mp h with ⟨-, rfl⟩ | h
      · exact ⟨[], rfl, rfl, rfl⟩
      · obtain ⟨p, rfl, hstep, hp⟩ := ih h
        refine ⟨item :: p, rfl, ?_, ?_⟩
        · rw [hstep, List.length_cons, Nat.add_assoc, Nat.add_comm 1]
        · rw [Stack.pushAll_cons, hpush]
          exact hp

end Run

namespace Stack

variable {s s' : Stack} {p q : List Item} {item : Item} {fault : Fault} (verbosity : Int)

theorem run_of_pushAll (h : s.pushAll p = .ok s') :
    (s.run verbosity p).outcome = (Run.atEnd verbosity p.length s').outcome ∧
      (s.run verbosity p).stack = s'.takeOnly.2 ∧ (s.run verbosity p).steps = some p.length := by
  obtain ⟨shown, hrun⟩ := Run.exists_after_append verbosity h 0 []
  rw [List.append_nil, Nat.zero_add] at hrun
  rw [run, hrun]
  exact ⟨rfl, rfl, rfl⟩

/-- A run stops before the first item that cannot be pushed, with the stack as it is there. -/
theorem run_of_fault (h : s.pushAll p = .ok s') (hitem : s'.push item = .error fault) :
    (s.run verbosity (p ++ item :: q)).outcome = .error (.ofFault p.length s' fault) ∧
      (s.run verbosity (p ++ item :: q)).stack = s' ∧
      (s.run verbosity (p ++ item :: q)).steps = none := by
  obtain ⟨shown, hrun⟩ := Run.exists_after_append verbosity h 0 (item :: q)
  rw [Nat.zero_add, Run.after, hitem] at hrun
  rw [run, hrun]
  exact ⟨rfl, rfl, rfl⟩

/-- Pushes that fail do so at one item, on the stack that the items before it leave. -/
theorem exists_fault_of_pushAll (h : s.pushAll p = .error fault) :
    ∃ first item rest s', p = first ++ item :: rest ∧ s.pushAll first = .ok s' ∧
      s'.push item = .error fault := by
  induction p generalizing s with
  | nil => cases h
  | cons item rest ih =>
    rw [pushAll_cons] at h
    cases hpush : s.push item with
    | error f =>
      rw [hpush] at h
      cases h
      exact ⟨[], item, rest, s, rfl, rfl, hpush⟩
    | ok s₁ =>
      rw [hpush] at h
      obtain ⟨first, item', rest', s', rfl, hfirst, hfault⟩ := ih h
      refine ⟨item :: first, item', rest', s', rfl, ?_, hfault⟩
      rw [pushAll_cons, hpush]
      exact hfirst

theorem takeOnly_fst_eq_some_iff {s : Stack} {v : Binary32} : s.takeOnly.1 = some v ↔ s = [v] := by
  rcases s with _ | ⟨x, _ | ⟨y, s⟩⟩ <;> simp [takeOnly]

theorem run_outcome_eq_ok_iff {v : Binary32} :
    (s.run verbosity p).outcome = .ok v ↔ s.pushAll p = .ok [v] := by
  cases hpush : s.pushAll p with
  | error fault =>
    obtain ⟨first, item, rest, s', rfl, hfirst, hfault⟩ := exists_fault_of_pushAll hpush
    simp [(run_of_fault verbosity hfirst hfault).1]
  | ok s' =>
    rw [(run_of_pushAll verbosity hpush).1, Except.ok.injEq, ← takeOnly_fst_eq_some_iff]
    unfold Run.atEnd
    cases s'.takeOnly.1 <;> simp

/-- What a run shows of itself does not change how it ends. -/
theorem run_outcome_verbosity (verbosity verbosity' : Int) (s : Stack) (p : List Item) :
    (s.run verbosity p).outcome = (s.run verbosity' p).outcome := by
  cases hpush : s.pushAll p with
  | ok s' =>
    rw [(run_of_pushAll verbosity hpush).1, (run_of_pushAll verbosity' hpush).1]
    rfl
  | error fault =>
    obtain ⟨first, item, rest, s', rfl, hfirst, hfault⟩ := exists_fault_of_pushAll hpush
    rw [(run_of_fault verbosity hfirst hfault).1, (run_of_fault verbosity' hfirst hfault).1]

end Stack

end ReversePolish
