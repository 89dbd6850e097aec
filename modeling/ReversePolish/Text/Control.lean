import ReversePolish.Text.Basic

/-! Terminal control sequences. A sequence is escape and `[`, then parameters, then
intermediates, then one final character. The three classes share no character, so
where a sequence starts its end is determined. -/

namespace ReversePolish.Text

def escape : Char := '\x1b'

def isParameter (c : Char) : Bool := '0' ≤ c && c ≤ '?'

def isIntermediate (c : Char) : Bool := ' ' ≤ c && c ≤ '/'

def isFinal (c : Char) : Bool := '@' ≤ c && c ≤ '~'

/-- What follows the final character of a sequence whose introducer has been read. -/
def afterIntroducer? (s : Text) : Option Text :=
  match (s.dropWhile isParameter).dropWhile isIntermediate with
  | c :: rest => if isFinal c then some rest else none
  | [] => none

/-- What follows the control sequence at the start of the text, if there is one. -/
def afterControl? : Text → Option Text
  | first :: second :: rest =>
    if first == escape && second == '[' then afterIntroducer? rest else none
  | _ => none

theorem length_lt_of_afterIntroducer? {s rest : Text} (h : afterIntroducer? s = some rest) :
    rest.length < s.length := by
  unfold afterIntroducer? at h
  split at h
  · rename_i c tail heq
    have hsuffix : c :: tail <:+ s := by
      rw [← heq]
      exact (List.dropWhile_suffix _).trans (List.dropWhile_suffix _)
    split at h
    · cases h
      exact hsuffix.length_le
    · contradiction
  · contradiction

theorem length_lt_of_afterControl? {s rest : Text} (h : afterControl? s = some rest) :
    rest.length < s.length := by
  unfold afterControl? at h
  split at h
  · split at h
    · have := length_lt_of_afterIntroducer? h
      simp only [List.length_cons]
      omega
    · contradiction
  · contradiction

/-- The text without its control sequences, taken out once from left to right. -/
def stripControls (s : Text) : Text :=
  match _ : afterControl? s with
  | some rest => stripControls rest
  | none =>
    match s with
    | [] => []
    | c :: rest => c :: stripControls rest
termination_by s.length
decreasing_by
  · exact length_lt_of_afterControl? ‹_›
  · simp

@[simp] theorem stripControls_nil : stripControls [] = [] := by
  rw [stripControls]
  rfl

theorem stripControls_of_control {s rest : Text} (h : afterControl? s = some rest) :
    stripControls s = stripControls rest := by
  rw [stripControls]
  split <;> simp_all

theorem stripControls_cons {c : Char} {s : Text} (h : afterControl? (c :: s) = none) :
    stripControls (c :: s) = c :: stripControls s := by
  rw [stripControls]
  split <;> simp_all

/-- The sequence that selects a graphic rendition, such as a colour. -/
def rendition (parameters : Text) : Text := escape :: '[' :: parameters ++ ['m']

/-- The sequence that ends all renditions. -/
def plainRendition : Text := rendition "0".toList

end ReversePolish.Text
