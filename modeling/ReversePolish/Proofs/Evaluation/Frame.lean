import ReversePolish.Proofs.Evaluation.Run

/-! What lies deep in the stack. A token looks only at the values that it takes, and these are
on top, so items that can be pushed can also be pushed with any other values below, which stay
where they are. Where items stop they stop no earlier on more values. A push that is carried
out step by step on one stack checks before it takes anything, so a refused one changes
nothing. -/

namespace ReversePolish.Stack

variable {s s' s₁ below : Stack} {items : List Item} {item : Item} {fault : Fault} {i j : Nat}

section Below

theorem Pushes.append_below {t : Token} (h : s.Pushes t s') (below : Stack) :
    Pushes (s ++ below) t (s' ++ below) := by
  cases h with
  | number v => exact .number v _
  | constant c => exact .constant c _
  | unary op x s => exact .unary op x _
  | binary op x y s => exact .binary op x y _
  | invalid => exact .invalid _

theorem push_append_below (h : s.push item = .ok s') (below : Stack) :
    (s ++ below).push item = .ok (s' ++ below) := by
  cases item with
  | token t => exact pushToken_eq_ok_iff.mpr ((pushes_of_pushToken h).append_below below)
  | bare text => cases h

theorem pushAll_append_below (h : s.pushAll items = .ok s') (below : Stack) :
    (s ++ below).pushAll items = .ok (s' ++ below) := by
  induction items generalizing s with
  | nil =>
    cases h
    rfl
  | cons item rest ih =>
    obtain ⟨s₁, hpush, hrest⟩ := pushAll_cons_eq_ok_iff.mp h
    exact pushAll_cons_eq_ok_iff.mpr ⟨s₁ ++ below, push_append_below hpush below, ih hrest⟩

/-- The items before the one at `i` can be pushed and leave `s'`, which refuses that one. -/
def StopsAt (s : Stack) (items : List Item) (i : Nat) (s' : Stack) (fault : Fault) : Prop :=
  s.pushAll (items.take i) = .ok s' ∧ ∃ item, items[i]? = some item ∧ s'.push item = .error fault

/-- Items do not stop among those that can be pushed. -/
theorem StopsAt.le (hstop : s.StopsAt items j s' fault) (h : s.pushAll (items.take i) = .ok s₁) :
    i ≤ j := by
  obtain ⟨hbefore, item, hitem, hfault⟩ := hstop
  refine Nat.le_of_not_lt fun hlt => ?_
  have htake : (items.take i).take (j + 1) = items.take j ++ [item] := by
    rw [List.take_take, Nat.min_eq_left hlt, List.take_add_one, hitem]
    rfl
  rw [← List.take_append_drop (j + 1) (items.take i), htake] at h
  obtain ⟨s₂, h₂, -⟩ := pushAll_append_eq_ok_iff.mp h
  obtain ⟨s₃, h₃, hlast⟩ := pushAll_append_eq_ok_iff.mp h₂
  rw [hbefore] at h₃
  cases h₃
  obtain ⟨s₄, hpush, -⟩ := pushAll_cons_eq_ok_iff.mp hlast
  rw [hfault] at hpush
  cases hpush

end Below

section InPlace

/-- Why a push that is carried out in steps breaks off. -/
inductive Break
  | refused (fault : Fault)
  /-- A value was to be taken from a stack without any. -/
  | exhausted

/-- A step on one stack. What was changed before a step breaks off stays changed. -/
abbrev Step := EStateM Break Stack

namespace Step

def require (t : Token) : Step Unit := do
  let s ← get
  if s.length < t.arity then throw (.refused (.missingOperands t s.length))

def takeTop : Step Binary32 := do
  match ← get with
  | [] => throw .exhausted
  | v :: s =>
    set s
    return v

def putOnTop (v : Binary32) : Step Unit := modify (v :: ·)

/-- The steps of a token: the check, then its operands one after the other, then its result. -/
def ofToken : Token → Step Unit
  | .number v => putOnTop v
  | .constant c => putOnTop c.value
  | .unary op => do
    require (.unary op)
    let x ← takeTop
    putOnTop (op.apply x)
  | .binary op => do
    require (.binary op)
    let y ← takeTop
    let x ← takeTop
    putOnTop (op.apply x y)
  | .invalid => return ()

def ofItem : Item → Step Unit
  | .token t => ofToken t
  | .bare text => throw (.refused (.unclassified text))

/-- What a push comes to on one stack: the fault of a refused one, beside the stack as it was. -/
def ofPush (s : Stack) : Except Fault Stack → EStateM.Result Break Stack Unit
  | .ok s' => .ok () s'
  | .error fault => .error (.refused fault) s

theorem ofToken_eq (t : Token) (s : Stack) : ofToken t s = ofPush s (s.pushToken t) := by
  cases t with
  | number v => rfl
  | constant c => rfl
  | unary op => rcases s with _ | ⟨x, s⟩ <;> rfl
  | binary op => rcases s with _ | ⟨y, _ | ⟨x, s⟩⟩ <;> rfl
  | invalid => rfl

theorem ofItem_eq (item : Item) (s : Stack) : ofItem item s = ofPush s (s.push item) := by
  cases item with
  | token t => exact ofToken_eq t s
  | bare text => rfl

theorem ofItem_eq_ok_iff : ofItem item s = .ok () s' ↔ s.push item = .ok s' := by
  rw [ofItem_eq]
  cases s.push item <;> simp [ofPush]

theorem ofItem_eq_error_iff {b : Break} : ofItem item s = .error b s' ↔
    s' = s ∧ ∃ fault, b = .refused fault ∧ s.push item = .error fault := by
  rw [ofItem_eq]
  cases s.push item <;> simp [ofPush, eq_comm, and_comm]

end Step

end InPlace

/-- Items that can be pushed leave the values below them as they are. If they stop, then on
more values they do not stop earlier, and up to there those are still below. A push in steps on
one stack comes to the same as the push at once, and if it breaks off the stack is unchanged. -/
theorem push_keeps_below (s below : Stack) (items : List Item) :
    (∀ s', s.pushAll items = .ok s' → (s ++ below).pushAll items = .ok (s' ++ below)) ∧
    (∀ i s' fault, s.StopsAt items i s' fault →
      (s ++ below).pushAll (items.take i) = .ok (s' ++ below) ∧
      ∀ j s₁ fault', (s ++ below).StopsAt items j s₁ fault' → i ≤ j) ∧
    (∀ item s', Step.ofItem item s = .ok () s' ↔ s.push item = .ok s') ∧
    ∀ item b s', Step.ofItem item s = .error b s' ↔
      s' = s ∧ ∃ fault, b = .refused fault ∧ s.push item = .error fault := by
  refine ⟨fun s' h => pushAll_append_below h below, ?_, fun item s' => Step.ofItem_eq_ok_iff,
    fun item b s' => Step.ofItem_eq_error_iff⟩
  intro i s' fault hstop
  have hbelow := pushAll_append_below hstop.1 below
  exact ⟨hbelow, fun j s₁ fault' hstop' => hstop'.le hbelow⟩

-- An operand below is all that the sum was missing.
theorem push_keeps_below_sum :
    let one : Binary32 := .ofBits 0x3f800000
    let items : List Item := [.token (.number one), .token (.binary .add)]
    StopsAt [] items 1 [one] (.missingOperands (.binary .add) 1) ∧
      pushAll [one] (items.take 1) = .ok [one, one] := by
  intro one items
  have hstop : StopsAt [] items 1 [one] (.missingOperands (.binary .add) 1) := ⟨rfl, _, rfl, rfl⟩
  exact ⟨hstop, ((push_keeps_below [] [one] items).2.1 1 [one] _ hstop).1⟩

end ReversePolish.Stack
