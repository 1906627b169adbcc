import Mathlib.Data.Nat.Digits.Defs
import Mathlib.Tactic.IntervalCases
import Mathlib.Tactic.Linarith
import Squaero.Lib.JsNumber

/-!
# Instants of the Gregorian calendar

The calendar extended to all years, the year 0 included, and the instants that ISO 8601 texts in UTC stand for, in
milliseconds since 1970.
-/

namespace Squaero.Lib.Calendar

/-! ## Days -/

def IsLeap (year : ℤ) : Prop := year % 4 = 0 ∧ (year % 100 ≠ 0 ∨ year % 400 = 0)

instance (year : ℤ) : Decidable (IsLeap year) := inferInstanceAs (Decidable (_ ∧ _))

def monthLength (year : ℤ) (month : ℕ) : ℕ :=
  if month = 2 then (if IsLeap year then 29 else 28)
  else if month ∈ [4, 6, 9, 11] then 30
  else 31

/-- The days from 1 January to the first of a month. -/
def daysBeforeMonth (year : ℤ) (month : ℕ) : ℕ := ((List.range (month - 1)).map fun i ↦ monthLength year (i + 1)).sum

/-- The days from 1 January of the year 0 to that of a year. -/
def daysBeforeYear (year : ℤ) : ℤ := 365 * year + (year + 3) / 4 - (year + 99) / 100 + (year + 399) / 400

/-- A day of the calendar and a time of it. -/
structure DateTime where
  year : ℤ
  month : ℕ
  day : ℕ
  hour : ℕ
  minute : ℕ
  second : ℕ
  milli : ℕ
  deriving DecidableEq, Repr

/-- Days since 1 January 1970. -/
def DateTime.dayNumber (t : DateTime) : ℤ :=
  daysBeforeYear t.year + daysBeforeMonth t.year t.month + t.day - 1 - 719528

/-- Milliseconds since 1970. -/
def DateTime.millis (t : DateTime) : ℤ :=
  (((t.dayNumber * 24 + t.hour) * 60 + t.minute) * 60 + t.second) * 1000 + t.milli

structure DateTime.Valid (t : DateTime) : Prop where
  month : 1 ≤ t.month ∧ t.month ≤ 12
  day : 1 ≤ t.day ∧ t.day ≤ monthLength t.year t.month
  hour : t.hour < 24
  minute : t.minute < 60
  second : t.second < 60
  milli : t.milli < 1000

instance (t : DateTime) : Decidable t.Valid :=
  decidable_of_iff ((1 ≤ t.month ∧ t.month ≤ 12) ∧ (1 ≤ t.day ∧ t.day ≤ monthLength t.year t.month) ∧
      t.hour < 24 ∧ t.minute < 60 ∧ t.second < 60 ∧ t.milli < 1000)
    ⟨fun h ↦ ⟨h.1, h.2.1, h.2.2.1, h.2.2.2.1, h.2.2.2.2.1, h.2.2.2.2.2⟩,
      fun h ↦ ⟨h.month, h.day, h.hour, h.minute, h.second, h.milli⟩⟩

/-! ## Texts -/

/-- A number filled up with noughts to a width. -/
def pad (width n : ℕ) : Text :=
  List.replicate (width - (Nat.toDigits 10 n).length) '0' ++ Nat.toDigits 10 n

/-- The instant of a text `YYYY-MM-DDThh:mm:ss.fffZ`. -/
def isoMillis (text : Text) : Option ℤ :=
  match text with
  | [y1, y2, y3, y4, '-', m1, m2, '-', d1, d2, 'T', h1, h2, ':', n1, n2, ':', s1, s2, '.', f1, f2, f3, 'Z'] =>
    let t : DateTime :=
      { year := Json.natOfDigits [y1, y2, y3, y4]
        month := Json.natOfDigits [m1, m2]
        day := Json.natOfDigits [d1, d2]
        hour := Json.natOfDigits [h1, h2]
        minute := Json.natOfDigits [n1, n2]
        second := Json.natOfDigits [s1, s2]
        milli := Json.natOfDigits [f1, f2, f3] }
    if [y1, y2, y3, y4, m1, m2, d1, d2, h1, h2, n1, n2, s1, s2, f1, f2, f3].all Char.isDigit ∧ t.Valid then
      some t.millis
    else none
  | _ => none

/-- The instant of a text as `isoMillis` has it, whatever the year: any number of digits, and a minus before those of a
year before the year 0. -/
def anyYearMillis (text : Text) : Option ℤ :=
  let unsigned := if text.head? = some '-' then text.tail else text
  let digits := unsigned.takeWhile Char.isDigit
  match unsigned.dropWhile Char.isDigit with
  | ['-', m1, m2, '-', d1, d2, 'T', h1, h2, ':', n1, n2, ':', s1, s2, '.', f1, f2, f3, 'Z'] =>
    let year : ℤ := Json.natOfDigits digits
    let t : DateTime :=
      { year := if text.head? = some '-' then -year else year
        month := Json.natOfDigits [m1, m2]
        day := Json.natOfDigits [d1, d2]
        hour := Json.natOfDigits [h1, h2]
        minute := Json.natOfDigits [n1, n2]
        second := Json.natOfDigits [s1, s2]
        milli := Json.natOfDigits [f1, f2, f3] }
    if digits ≠ [] ∧ [m1, m2, d1, d2, h1, h2, n1, n2, s1, s2, f1, f2, f3].all Char.isDigit ∧ t.Valid then
      some t.millis
    else none
  | _ => none

/-- However many digits there are, they write the number. -/
theorem pad_digits (width n : ℕ) :
    pad width n ≠ [] ∧ (∀ c ∈ pad width n, c.isDigit = true) ∧ Json.natOfDigits (pad width n) = n := by
  have hdigits := Json.digits_toDigits n
  unfold pad
  refine ⟨?_, fun c hc ↦ ?_, ?_⟩
  · exact List.append_ne_nil_of_right_ne_nil _ hdigits.1
  · rcases List.mem_append.mp hc with hzero | hmem
    · rw [List.eq_of_mem_replicate hzero]
      decide
    · exact hdigits.2 c hmem
  · rw [natOfDigits_append, natOfDigits_replicate, Json.natOfDigits_toDigits, Nat.zero_mul, Nat.zero_add]

theorem length_pad (width n : ℕ) : (pad width n).length = max width (Nat.toDigits 10 n).length := by
  rw [pad, List.length_append, List.length_replicate]
  omega

/-- A number of no more digits than the width is written in as many, and is the number they write. -/
theorem pad_spec {width n : ℕ} (hwidth : 0 < width) (h : n < 10 ^ width) :
    (pad width n).length = width ∧ (∀ c ∈ pad width n, c.isDigit = true) ∧ Json.natOfDigits (pad width n) = n := by
  have hle : (Nat.toDigits 10 n).length ≤ width := Nat.toDigits_length 10 n width hwidth h
  obtain ⟨-, hdigit, hvalue⟩ := pad_digits width n
  exact ⟨by rw [length_pad, max_eq_left hle], hdigit, hvalue⟩

theorem pad_two {n : ℕ} (h : n < 100) :
    ∃ a b, pad 2 n = [a, b] ∧ a.isDigit = true ∧ b.isDigit = true ∧ Json.natOfDigits [a, b] = n := by
  obtain ⟨hlength, hdigit, hvalue⟩ := pad_spec (by norm_num : 0 < 2) (n := n) (by omega)
  obtain ⟨a, b, hpad⟩ := List.length_eq_two.mp hlength
  rw [hpad] at hdigit hvalue
  exact ⟨a, b, hpad, hdigit a (by simp), hdigit b (by simp), hvalue⟩

theorem pad_three {n : ℕ} (h : n < 1000) :
    ∃ a b c, pad 3 n = [a, b, c] ∧ (∀ x ∈ [a, b, c], x.isDigit = true) ∧ Json.natOfDigits [a, b, c] = n := by
  obtain ⟨hlength, hdigit, hvalue⟩ := pad_spec (by norm_num : 0 < 3) (n := n) (by omega)
  obtain ⟨a, b, c, hpad⟩ := List.length_eq_three.mp hlength
  rw [hpad] at hdigit hvalue
  exact ⟨a, b, c, hpad, hdigit, hvalue⟩

theorem pad_four {n : ℕ} (h : n < 10000) :
    ∃ a b c d, pad 4 n = [a, b, c, d] ∧ (∀ x ∈ [a, b, c, d], x.isDigit = true) ∧
      Json.natOfDigits [a, b, c, d] = n := by
  obtain ⟨hlength, hdigit, hvalue⟩ := pad_spec (by norm_num : 0 < 4) (n := n) (by omega)
  match hpad : pad 4 n, hlength with
  | [a, b, c, d], _ =>
    rw [hpad] at hdigit hvalue
    exact ⟨a, b, c, d, rfl, hdigit, hvalue⟩

end Squaero.Lib.Calendar
