import Mathlib.Data.List.Basic

/-!
# The lexical structure of JSON objects and arrays

What the text of one JSON object or array looks like to a reader that follows brackets and strings
only.  Every such text is `WellFormed`; not every well-formed text is JSON.

* `Lex`, `step` — where the reader stands: outside strings under some open brackets, in a string,
  after a backslash, past the end;
* `run_deeper` — from under more brackets the same bytes lead to the same place under more brackets;
* `not_wellFormed_append` — the beginning of an object and a whole object after it are not one.
-/

namespace JsonText

abbrev Bytes := List UInt8

/-- `depth` counts the open brackets but for the first one. -/
inductive Lex
  | start
  | outside (depth : ℕ)
  | inString (depth : ℕ)
  | escape (depth : ℕ)
  | closed
  | bad
deriving DecidableEq, Repr

def isSpace (b : UInt8) : Bool := b = 32 || b = 9 || b = 10 || b = 13

/-- An opening brace or bracket. -/
def isOpen (b : UInt8) : Bool := b = 123 || b = 91

def isClose (b : UInt8) : Bool := b = 125 || b = 93

/-- What may stand outside of strings besides brackets: white space, commas and colons, digits, signs,
    points, and the letters of `true`, `false`, `null` and of exponents. -/
def isPlain (b : UInt8) : Bool :=
  isSpace b || b = 44 || b = 58 || (48 ≤ b && b ≤ 57) || b = 43 || b = 45 || b = 46 ||
    b = 69 || b = 101 || b = 116 || b = 114 || b = 117 || b = 102 || b = 97 || b = 108 ||
    b = 115 || b = 110

/-- What may follow a backslash. -/
def isEscape (b : UInt8) : Bool :=
  b = 34 || b = 92 || b = 47 || b = 98 || b = 102 || b = 110 || b = 114 || b = 116 || b = 117

def step : Lex → UInt8 → Lex
  | .start, b => if isOpen b then .outside 0 else if isSpace b then .start else .bad
  | .outside depth, b =>
    if isOpen b then .outside (depth + 1)
    else if isClose b then
      match depth with
      | 0 => .closed
      | depth + 1 => .outside depth
    else if b = 34 then .inString depth
    else if isPlain b then .outside depth
    else .bad
  | .inString depth, b =>
    if b = 34 then .outside depth
    else if b = 92 then .escape depth
    else if b < 32 then .bad
    else .inString depth
  | .escape depth, b => if isEscape b then .inString depth else .bad
  | .closed, b => if isSpace b then .closed else .bad
  | .bad, _ => .bad

def run (s : Lex) (bytes : Bytes) : Lex := bytes.foldl step s

def WellFormed (bytes : Bytes) : Prop := run .start bytes = .closed

instance (bytes : Bytes) : Decidable (WellFormed bytes) := inferInstanceAs (Decidable (_ = _))

@[simp] theorem run_nil (s : Lex) : run s [] = s := rfl

@[simp] theorem run_cons (s : Lex) (b : UInt8) (bytes : Bytes) :
    run s (b :: bytes) = run (step s b) bytes := rfl

theorem run_append (s : Lex) (xs ys : Bytes) : run s (xs ++ ys) = run (run s xs) ys :=
  List.foldl_append

@[simp] theorem run_bad (bytes : Bytes) : run .bad bytes = .bad := by
  induction bytes with
  | nil => rfl
  | cons b bytes ih => exact ih

/-- Once something has been opened the start does not come again. -/
theorem step_ne_start {s : Lex} (h : s ≠ .start) (b : UInt8) : step s b ≠ .start := by
  cases s with
  | start => exact absurd rfl h
  | outside depth => cases depth <;> simp only [step] <;> (repeat' split) <;> simp
  | inString depth => simp only [step]; (repeat' split) <;> simp
  | escape depth => simp only [step]; split <;> simp
  | closed => simp only [step]; split <;> simp
  | bad => simp [step]

theorem run_ne_start {s : Lex} (h : s ≠ .start) (bytes : Bytes) : run s bytes ≠ .start := by
  induction bytes generalizing s with
  | nil => exact h
  | cons b bytes ih => exact ih (step_ne_start h b)

/-! ### Under more brackets -/

/-- The same place, under `depth + 1` more brackets. -/
def deeper (depth : ℕ) : Lex → Lex
  | .start => .outside depth
  | .outside d => .outside (d + (depth + 1))
  | .inString d => .inString (d + (depth + 1))
  | .escape d => .escape (d + (depth + 1))
  | .closed => .outside depth
  | .bad => .bad

theorem isPlain_of_isSpace {b : UInt8} (h : isSpace b) : isPlain b := by
  simp [isPlain, h]

theorem not_bracket_of_isSpace {b : UInt8} (h : isSpace b) :
    isOpen b = false ∧ isClose b = false ∧ b ≠ 34 := by
  simp only [isSpace, Bool.or_eq_true, decide_eq_true_eq] at h
  rcases h with ((rfl | rfl) | rfl) | rfl <;> decide

theorem step_deeper {s : Lex} {b : UInt8} (depth : ℕ) (h : step s b ≠ .bad) :
    step (deeper depth s) b = deeper depth (step s b) := by
  cases s with
  | start =>
    simp only [step, deeper] at h ⊢
    by_cases hopen : isOpen b
    · simp [hopen]
    · by_cases hspace : isSpace b
      · obtain ⟨-, hclose, hquote⟩ := not_bracket_of_isSpace hspace
        simp [hopen, hspace, hclose, hquote, isPlain_of_isSpace]
      · simp [hopen, hspace] at h
  | outside d =>
    simp only [step, deeper] at h ⊢
    by_cases hopen : isOpen b
    · simp [hopen]
      omega
    · by_cases hclose : isClose b
      · cases d with
        | zero => simp [hopen, hclose]
        | succ d =>
          rw [show d + 1 + (depth + 1) = (d + (depth + 1)) + 1 by omega]
          simp [hopen, hclose]
          omega
      · by_cases hquote : b = 34
        · subst hquote
          simp [hopen, hclose]
        · by_cases hplain : isPlain b
          · simp [hopen, hclose, hquote, hplain]
          · simp [hopen, hclose, hquote, hplain] at h
  | inString d =>
    simp only [step, deeper] at h ⊢
    by_cases hquote : b = 34
    · simp [hquote]
    · by_cases hslash : b = 92
      · simp [hslash]
      · by_cases hcontrol : b < 32
        · simp [hquote, hslash, hcontrol] at h
        · simp [hquote, hslash, hcontrol]
  | escape d =>
    simp only [step, deeper] at h ⊢
    by_cases hescape : isEscape b
    · simp [hescape]
    · simp [hescape] at h
  | closed =>
    simp only [step, deeper] at h ⊢
    by_cases hspace : isSpace b
    · obtain ⟨hopen, hclose, hquote⟩ := not_bracket_of_isSpace hspace
      simp [hopen, hspace, hclose, hquote, isPlain_of_isSpace]
    · simp [hspace] at h
  | bad => rfl

theorem run_deeper {s : Lex} {bytes : Bytes} (depth : ℕ) (h : run s bytes ≠ .bad) :
    run (deeper depth s) bytes = deeper depth (run s bytes) := by
  induction bytes generalizing s with
  | nil => rfl
  | cons b bytes ih =>
    have hstep : step s b ≠ .bad := by
      intro hbad
      rw [run_cons, hbad, run_bad] at h
      exact h rfl
    rw [run_cons, step_deeper depth hstep, ih h, run_cons]

/-! ### A beginning with a whole text after it -/

/-- What begins as an object is no well-formed text with a whole object after it whose first name
    begins with a letter that stands in no literal. -/
theorem not_wellFormed_append {tear rest : Bytes} {c : UInt8}
    (hc : isPlain c = false ∧ isOpen c = false ∧ isClose c = false ∧ c ≠ 34)
    (hwhole : WellFormed (123 :: 34 :: c :: rest)) :
    ¬ WellFormed (123 :: tear ++ 123 :: 34 :: c :: rest) := by
  obtain ⟨hplain, hopen, hclose, hquote⟩ := hc
  unfold WellFormed
  rw [run_append]
  have hstart : run .start (123 :: tear) ≠ .start := run_ne_start (s := step .start 123) (by decide) tear
  cases hs : run .start (123 :: tear) with
  | start => exact absurd hs hstart
  | outside depth =>
    -- The object is read under the brackets still open, and leaves them open.
    have hclosed : run .start (123 :: 34 :: c :: rest) = .closed := hwhole
    have hdeep := @run_deeper .start (123 :: 34 :: c :: rest) depth (by rw [hclosed]; simp)
    rw [hclosed] at hdeep
    rw [show Lex.outside depth = deeper depth .start from rfl, hdeep]
    simp [deeper]
  | inString depth =>
    -- Its first quote ends the string, and its name stands outside.
    have hbad : step (.outside depth) c = .bad := by
      simp [step, hplain, hopen, hclose, hquote]
    rw [run_cons, run_cons, run_cons, show step (.inString depth) 123 = .inString depth from rfl,
      show step (.inString depth) 34 = .outside depth from rfl, hbad, run_bad]
    simp
  | escape depth =>
    rw [run_cons, show step (.escape depth) 123 = .bad from rfl, run_bad]
    simp
  | closed =>
    rw [run_cons, show step .closed 123 = .bad from rfl, run_bad]
    simp
  | bad =>
    rw [run_bad]
    simp

end JsonText
