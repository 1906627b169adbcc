import Mathlib.Data.List.Basic
import Mathlib.Algebra.Order.Group.Unbundled.Int
import Mathlib.Tactic.IntervalCases
import Squaero.Lib.Text

/-!
# DATETIME literals of Informix

`informix_fit_datetime` of `utils/dml.c`: the text of a DATETIME value cut or padded to the qualifier of its
column. The result of a call is `none` where the behaviour of C is undefined: a table read or a buffer written
outside its bounds. The qualifier is packed into the low byte of `collength`, and `k_index` is guarded from
above only: a negative remainder reads what lies before the table.
-/

namespace Squaero.Drivers.Informix

open Squaero.Lib

/-- `take_digits`: `n` digits at `p`, and what is after them. -/
def takeDigits : ℕ → Text → Option (Text × Text)
  | 0, p => some ([], p)
  | n + 1, c :: p => if c.isDigit then (takeDigits n p).map fun r ↦ (c :: r.1, r.2) else none
  | _ + 1, [] => none

/-- `*p++ != c` gives up, what is after the character otherwise. -/
def takeChar (c : Char) : Text → Option Text
  | d :: p => if d = c then some p else none
  | [] => none

/-- The digits of the fraction while `n < 7`, `room` of them left. -/
def takeFraction : ℕ → Text → Text
  | room + 1, c :: p => if c.isDigit then c :: takeFraction room p else []
  | _, _ => []

/-- The fields read so far by their index (0 year, 1 month, 2 day, 3 hour, 4 minute, 5 second, 6 fraction),
the first and the last one that the value has, and where the reading stands. -/
structure Scan where
  f : List Text
  first : ℕ
  last : ℕ
  p : Text
  deriving DecidableEq, Repr

/-- The date and the hour after it, or the hour alone. Digits that a failed first attempt leaves in the
buffer of the year are never read: no field before `first` is. -/
def scanStart (val : Text) : Option Scan :=
  match takeDigits 4 val with
  | some (year, '-' :: p) => do
    let (month, p) ← takeDigits 2 p
    let p ← takeChar '-' p
    let (day, p) ← takeDigits 2 p
    match p with
    | ' ' :: p => do
      let (hour, p) ← takeDigits 2 p
      some ⟨[year, month, day, hour], 0, 3, p⟩
    | p => some ⟨[year, month, day], 0, 2, p⟩
  | _ => do
    let (hour, p) ← takeDigits 2 val
    some ⟨[[], [], [], hour], 3, 3, p⟩

/-- What follows an hour. -/
def scanClock (s : Scan) : Option Scan :=
  if s.last = 3 then do
    let p ← takeChar ':' s.p
    let (minute, p) ← takeDigits 2 p
    let p ← takeChar ':' p
    let (second, p) ← takeDigits 2 p
    match p with
    | '.' :: p =>
      let fraction := takeFraction 7 p
      if fraction = [] then none
      else some ⟨s.f ++ [minute, second, fraction], s.first, 6, p.drop fraction.length⟩
    | p => some ⟨s.f ++ [minute, second], s.first, 5, p⟩
  else some s

def kIndex : List ℤ := [0, -1, 1, -1, 2, -1, 3, -1, 4, -1, 5, 6, 6, 6, 6, 6]

/-- `code <= 15 ? k_index[code] : -1`. A read outside the table is undefined. -/
def fieldIndex (code : ℤ) : Option ℤ :=
  if code ≤ 15 then (if 0 ≤ code then kIndex[code.toNat]? else none) else some (-1)

def kSep : Text := ['\x00', '-', '-', ' ', ':', ':', '.']

/-- `memcpy` to an offset of a buffer, undefined where it would run past its end. -/
def store (buffer : Text) (offset : ℕ) (bytes : Text) : Option Text :=
  if offset + bytes.length ≤ buffer.length then
    some (buffer.take offset ++ bytes ++ buffer.drop (offset + bytes.length))
  else none

/-- The string that is written to `char field[8]`. -/
def fieldText (f : List Text) (scale i : ℕ) : Option Text :=
  let field :=
    if i = 6 then (List.range scale).map fun k ↦ if k < (f.getD 6 []).length then (f.getD 6 []).getD k '0' else '0'
    else f.getD i []
  if field.length < 8 then some field else none

/-- The loop over the fields of the qualifier, the ones still to write listed: the result and `out`. -/
def fitFields (f : List Text) (scale start : ℕ) : List ℕ → ℕ → Text → Option (Bool × Text)
  | [], len, out => do
    let out ← store out len ['\x00']
    some (true, out)
  | i :: rest, len, out => do
    let field ← fieldText f scale i
    let sep := if start < i then [kSep.getD i '\x00'] else []
    if out.length < len + (field.length + sep.length) + 1 then some (false, out)
    else do
      let out ← store out len sep
      let out ← store out (len + sep.length) field
      fitFields f scale start rest (len + sep.length + field.length) out

/-- `informix_fit_datetime` from the qualifier on. -/
def fitQualifier (s : Scan) (collength : ℤ) (out : Text) : Option (Bool × Text) := do
  let largest := (collength.tmod 256).tdiv 16
  let smallest := collength.tmod 16
  let start ← fieldIndex largest
  let stop ← fieldIndex smallest
  let scale := if 11 ≤ smallest then smallest - 10 else 0
  if start < 0 ∨ stop < 0 ∨ stop < start ∨ start < s.first ∨ (s.last : ℤ) < (if stop = 6 then 5 else stop) then
    some (false, out)
  else
    fitFields s.f scale.toNat start.toNat (List.range' start.toNat (stop.toNat + 1 - start.toNat)) 0 out

/-- `informix_fit_datetime`, a `NULL` pointer being `none`: what it returns and what it leaves in `out`, whose
length is `cap`. -/
def informixFitDatetime (val : Option Text) (collength : ℤ) (out : Option Text) :
    Option (Bool × Option Text) :=
  match val, out with
  | some val, some out =>
    match (scanStart val).bind scanClock with
    | some s =>
      if s.p = [] then (fitQualifier s collength out).map fun r ↦ (r.1, some r.2)
      else some (false, some out)
    | none => some (false, some out)
  | _, out => some (false, out)

/-! ## Values and qualifiers -/

/-- A run of `n` decimal digits. -/
abbrev Digits (n : ℕ) := {t : Text // t.length = n ∧ ∀ c ∈ t, c.isDigit = true}

/-- The digits after the point, which the buffer of a field has to hold. -/
abbrev Fraction := {t : Text // t ≠ [] ∧ t.length ≤ 7 ∧ ∀ c ∈ t, c.isDigit = true}

structure Day where
  year : Digits 4
  month : Digits 2
  day : Digits 2

structure Clock where
  hour : Digits 2
  minute : Digits 2
  second : Digits 2
  fraction : Option Fraction

/-- A value of the grammar: `YYYY-MM-DD`, `YYYY-MM-DD HH:MM:SS[.f]` or `HH:MM:SS[.f]`. -/
inductive Datetime
  | date (day : Day)
  | full (day : Day) (clock : Clock)
  | time (clock : Clock)

def Day.fields (d : Day) : List Text := [d.year.1, d.month.1, d.day.1]

def Day.text (d : Day) : Text := d.year.1 ++ '-' :: (d.month.1 ++ '-' :: d.day.1)

def fractionText : Option Fraction → Text
  | none => []
  | some digits => '.' :: digits.1

def Clock.fields (c : Clock) : List Text :=
  [c.hour.1, c.minute.1, c.second.1] ++ (c.fraction.map fun digits ↦ digits.1).toList

def Clock.text (c : Clock) : Text :=
  c.hour.1 ++ ':' :: (c.minute.1 ++ ':' :: (c.second.1 ++ fractionText c.fraction))

def Clock.last (c : Clock) : ℕ := if c.fraction.isSome then 6 else 5

namespace Datetime

def text : Datetime → Text
  | date d => d.text
  | full d c => d.text ++ ' ' :: c.text
  | time c => c.text

def fields : Datetime → List Text
  | date d => d.fields
  | full d c => d.fields ++ c.fields
  | time c => [[], [], []] ++ c.fields

def first : Datetime → ℕ
  | date _ => 0
  | full _ _ => 0
  | time _ => 3

def last : Datetime → ℕ
  | date _ => 2
  | full _ c => c.last
  | time c => c.last

end Datetime

/-- `FROM TO`: the first and the last field kept, and the digits of a fraction. -/
structure Qualifier where
  start : ℕ
  stop : ℕ
  scale : ℕ
  ordered : start ≤ stop

/-- YEAR 0, MONTH 2, DAY 4, HOUR 6, MINUTE 8, SECOND 10, FRACTION(n) 10 + n. -/
def fieldOfCode (code : ℕ) : Option ℕ :=
  if code ≤ 10 then (if code % 2 = 0 then some (code / 2) else none)
  else if code ≤ 15 then some 6
  else none

/-- The low byte of `collength` is largest field * 16 + smallest. -/
def Qualifier.EncodedBy (q : Qualifier) (collength : ℤ) : Prop :=
  let low := (collength % 256).toNat
  fieldOfCode (low / 16) = some q.start ∧ fieldOfCode (low % 16) = some q.stop ∧ q.scale = low % 16 - 10

namespace Datetime

/-- The value has the fields of the qualifier. A fraction is supplied when the seconds are. -/
def Covers (v : Datetime) (q : Qualifier) : Prop :=
  v.first ≤ q.start ∧ (q.stop ≤ v.last ∨ q.stop = 6 ∧ v.last = 5)

/-- One field as the qualifier wants it, the fraction cut or padded to the scale. -/
def fieldIn (v : Datetime) (q : Qualifier) (i : ℕ) : Text :=
  if i = 6 then (v.fields.getD 6 [] ++ List.replicate q.scale '0').take q.scale else v.fields.getD i []

/-- The separator before a field. -/
def separator (i : ℕ) : Char :=
  if i ≤ 2 then '-' else if i = 3 then ' ' else if i ≤ 5 then ':' else '.'

/-- The fields of the qualifier in order, with the separators between them. -/
def fitted (v : Datetime) (q : Qualifier) : Text :=
  (List.range' q.start (q.stop + 1 - q.start)).flatMap fun i ↦
    (if q.start < i then [separator i] else []) ++ v.fieldIn q i

end Datetime

/-- `text` is what `val` becomes under the qualifier, in a buffer of `cap` bytes. -/
def Fits (val : Text) (collength : ℤ) (cap : ℕ) (text : Text) : Prop :=
  ∃ (v : Datetime) (q : Qualifier), v.text = val ∧ q.EncodedBy collength ∧ v.Covers q ∧ text = v.fitted q ∧
    text.length < cap

/-- The call is defined, stays in `out`, succeeds exactly when there is a fitted text, and leaves that text. -/
def FitsExactly (val : Text) (collength : ℤ) (out : Text) : Prop :=
  ∃ ret out', informixFitDatetime (some val) collength (some out) = some (ret, some out') ∧
    out'.length = out.length ∧
    (ret = true ↔ ∃ text, Fits val collength out.length text) ∧
    ∀ text, Fits val collength out.length text → out' = text ++ '\x00' :: out.drop (text.length + 1)

/-! ## The grammar -/

theorem takeDigits_eq_some {n : ℕ} {p d rest : Text} :
    takeDigits n p = some (d, rest) ↔ (d.length = n ∧ ∀ c ∈ d, c.isDigit = true) ∧ p = d ++ rest := by
  induction n generalizing p d with
  | zero =>
    have hnil : d.length = 0 ↔ d = [] := List.length_eq_zero_iff
    simp only [takeDigits, Option.some.injEq, Prod.mk.injEq, hnil]
    constructor
    · rintro ⟨rfl, rfl⟩
      simp
    · rintro ⟨⟨rfl, -⟩, rfl⟩
      simp
  | succ n ih =>
    cases p with
    | nil =>
      constructor
      · intro h
        simp [takeDigits] at h
      · rintro ⟨⟨hlength, -⟩, h⟩
        have hd : d = [] := (List.append_eq_nil_iff.mp h.symm).1
        simp [hd] at hlength
    | cons c p =>
      by_cases hc : c.isDigit = true
      · simp only [takeDigits, hc, if_true, Option.map_eq_some_iff, Prod.mk.injEq, Prod.exists]
        constructor
        · rintro ⟨d', rest', h, rfl, rfl⟩
          obtain ⟨⟨hlength, hdigits⟩, rfl⟩ := ih.mp h
          exact ⟨⟨by rw [List.length_cons, hlength], List.forall_mem_cons.mpr ⟨hc, hdigits⟩⟩, rfl⟩
        · rintro ⟨⟨hlength, hdigits⟩, h⟩
          obtain ⟨c', d', rfl⟩ := List.exists_cons_of_length_eq_add_one hlength
          obtain ⟨rfl, rfl⟩ := List.cons.inj h
          have hd' : d'.length = n := by simpa using hlength
          exact ⟨d', rest, ih.mpr ⟨⟨hd', fun x hx ↦ hdigits x (List.mem_cons_of_mem _ hx)⟩, rfl⟩, rfl, rfl⟩
      · rw [takeDigits, if_neg hc]
        constructor
        · intro h
          cases h
        · rintro ⟨⟨hlength, hdigits⟩, h⟩
          obtain ⟨c', d', rfl⟩ := List.exists_cons_of_length_eq_add_one hlength
          obtain ⟨rfl, -⟩ := List.cons.inj h
          exact absurd (hdigits c List.mem_cons_self) hc

@[simp]
theorem takeDigits_append {n : ℕ} (d : Digits n) (rest : Text) :
    takeDigits n (d.1 ++ rest) = some (d.1, rest) :=
  takeDigits_eq_some.mpr ⟨d.2, rfl⟩

theorem takeChar_eq_some {c : Char} {p rest : Text} : takeChar c p = some rest ↔ p = c :: rest := by
  cases p with
  | nil => simp [takeChar]
  | cons d p => by_cases h : d = c <;> simp [takeChar, h]

theorem takeFraction_prefix (room : ℕ) (p : Text) :
    takeFraction room p ++ p.drop (takeFraction room p).length = p := by
  fun_induction takeFraction room p with
  | case1 room c p hc ih => simpa using ih
  | case2 => rfl
  | case3 => rfl

theorem takeFraction_digits (room : ℕ) (p : Text) :
    (takeFraction room p).length ≤ room ∧ ∀ c ∈ takeFraction room p, c.isDigit = true := by
  fun_induction takeFraction room p with
  | case1 room c p hc ih =>
    exact ⟨Nat.succ_le_succ ih.1, List.forall_mem_cons.mpr ⟨hc, ih.2⟩⟩
  | case2 => simp
  | case3 => simp

theorem takeFraction_of_digits {room : ℕ} {p : Text} (hroom : p.length ≤ room)
    (hp : ∀ c ∈ p, c.isDigit = true) : takeFraction room p = p := by
  fun_induction takeFraction room p with
  | case1 room c p hc ih =>
    rw [ih (Nat.le_of_succ_le_succ hroom) fun x hx ↦ hp x (List.mem_cons_of_mem _ hx)]
  | case2 room c p hc => exact absurd (hp c List.mem_cons_self) hc
  | case3 room p hp' =>
    cases p with
    | nil => rfl
    | cons c p =>
      cases room with
      | zero => simp at hroom
      | succ room => exact absurd rfl (hp' room c p rfl)

/-- What `scanClock` makes of a scan that stands at the colon after the hour. -/
theorem scanClock_eq_some {f : List Text} {first : ℕ} {p : Text} {t : Scan} :
    (scanClock ⟨f, first, 3, p⟩ = some t ∧ t.p = []) ↔
      ∃ (minute second : Digits 2) (fraction : Option Fraction),
        p = ':' :: (minute.1 ++ ':' :: (second.1 ++ fractionText fraction)) ∧
        t = ⟨f ++ ([minute.1, second.1] ++ (fraction.map fun digits ↦ digits.1).toList), first,
          if fraction.isSome then 6 else 5, []⟩ := by
  constructor
  · rintro ⟨h, hend⟩
    simp only [scanClock, if_true, Option.bind_eq_bind, Option.bind_eq_some_iff, takeChar_eq_some, Prod.exists,
      takeDigits_eq_some] at h
    obtain ⟨p1, rfl, minute, p2, ⟨hminute, rfl⟩, p3, rfl, second, p4, ⟨hsecond, rfl⟩, h⟩ := h
    split at h
    · next p5 =>
      split at h
      · cases h
      · next hne =>
        cases h
        have hall : takeFraction 7 p5 = p5 := by
          have hsplit := takeFraction_prefix 7 p5
          have hrest : p5.drop (takeFraction 7 p5).length = [] := hend
          rwa [hrest, List.append_nil] at hsplit
        have hdigits := takeFraction_digits 7 p5
        rw [hall] at hne hdigits ⊢
        refine ⟨⟨minute, hminute⟩, ⟨second, hsecond⟩, some ⟨p5, hne, hdigits.1, hdigits.2⟩, rfl, ?_⟩
        simp
    · cases h
      subst hend
      exact ⟨⟨minute, hminute⟩, ⟨second, hsecond⟩, none, by simp [fractionText], by simp⟩
  · rintro ⟨minute, second, fraction, rfl, rfl⟩
    cases fraction with
    | none => simp [scanClock, takeChar, fractionText, takeDigits_eq_some.mpr ⟨second.2, (List.append_nil _).symm⟩]
    | some digits =>
      have hall := takeFraction_of_digits digits.2.2.1 digits.2.2.2
      simp [scanClock, takeChar, fractionText, hall, digits.2.1]

/-- Where a scan may stand after the date and the hour. -/
theorem scanStart_eq_some {val : Text} {s : Scan} (h : scanStart val = some s) :
    (∃ (d : Day), val = d.text ++ s.p ∧ s = ⟨d.fields, 0, 2, s.p⟩) ∨
    (∃ (d : Day) (hour : Digits 2), val = d.text ++ ' ' :: (hour.1 ++ s.p) ∧
      s = ⟨d.fields ++ [hour.1], 0, 3, s.p⟩) ∨
    (∃ hour : Digits 2, val = hour.1 ++ s.p ∧ s = ⟨[[], [], [], hour.1], 3, 3, s.p⟩) := by
  unfold scanStart at h
  split at h
  · next year p hyear =>
    simp only [Option.bind_eq_bind, Option.bind_eq_some_iff, takeChar_eq_some, Prod.exists,
      takeDigits_eq_some] at h
    obtain ⟨month, p1, ⟨hmonth, rfl⟩, p2, rfl, day, p3, ⟨hday, rfl⟩, h⟩ := h
    obtain ⟨hdigits, rfl⟩ := takeDigits_eq_some.mp hyear
    let d : Day := ⟨⟨year, hdigits⟩, ⟨month, hmonth⟩, ⟨day, hday⟩⟩
    split at h
    · next p4 =>
      simp only [Option.bind_eq_some_iff, Prod.exists, takeDigits_eq_some] at h
      obtain ⟨hour, p5, ⟨hhour, rfl⟩, h⟩ := h
      cases h
      exact .inr (.inl ⟨d, ⟨hour, hhour⟩, by simp [d, Day.text], rfl⟩)
    · cases h
      exact .inl ⟨d, by simp [d, Day.text], rfl⟩
  · simp only [Option.bind_eq_bind, Option.bind_eq_some_iff, Prod.exists, takeDigits_eq_some] at h
    obtain ⟨hour, p, ⟨hhour, rfl⟩, h⟩ := h
    cases h
    exact .inr (.inr ⟨⟨hour, hhour⟩, rfl, rfl⟩)

theorem scanStart_date (d : Day) : scanStart d.text = some ⟨d.fields, 0, 2, []⟩ := by
  have hday : takeDigits 2 d.day.1 = some (d.day.1, []) :=
    takeDigits_eq_some.mpr ⟨d.day.2, (List.append_nil _).symm⟩
  simp [scanStart, Day.text, takeChar, hday, Day.fields]

theorem scanStart_full (d : Day) (hour : Digits 2) (p : Text) :
    scanStart (d.text ++ ' ' :: (hour.1 ++ p)) = some ⟨d.fields ++ [hour.1], 0, 3, p⟩ := by
  simp [scanStart, Day.text, takeChar, Day.fields]

/-- The third character of a time keeps it from being read as a year. -/
theorem scanStart_time (hour : Digits 2) (p : Text) :
    scanStart (hour.1 ++ ':' :: p) = some ⟨[[], [], [], hour.1], 3, 3, ':' :: p⟩ := by
  have hyear : takeDigits 4 (hour.1 ++ ':' :: p) = none := by
    by_contra hsome
    obtain ⟨⟨year, rest⟩, h⟩ := Option.ne_none_iff_exists'.mp hsome
    obtain ⟨⟨hlength, hdigits⟩, hsplit⟩ := takeDigits_eq_some.mp h
    obtain ⟨a, b, hour_eq⟩ := List.length_eq_two.mp hour.2.1
    obtain ⟨a', b', c', d', rfl⟩ : ∃ a' b' c' d', year = [a', b', c', d'] := by
      match year, hlength with
      | [a', b', c', d'], _ => exact ⟨a', b', c', d', rfl⟩
    rw [hour_eq] at hsplit
    simp only [List.cons_append, List.nil_append, List.cons.injEq] at hsplit
    have hc : c'.isDigit = true := hdigits c' (by simp)
    rw [← hsplit.2.2.1] at hc
    exact absurd hc (by decide)
  simp [scanStart, hyear]

theorem scanClock_clock (f : List Text) (first : ℕ) (c : Clock) :
    scanClock ⟨f ++ [c.hour.1], first, 3, ':' :: (c.minute.1 ++ ':' :: (c.second.1 ++ fractionText c.fraction))⟩ =
      some ⟨f ++ c.fields, first, c.last, []⟩ := by
  have h := (@scanClock_eq_some (f ++ [c.hour.1]) first _ _).mpr ⟨c.minute, c.second, c.fraction, rfl, rfl⟩
  simpa [Clock.fields, Clock.last] using h.1

/-- A scan succeeds on the texts of the grammar and on no other, with the fields of the value. -/
theorem scan_eq_some {val : Text} {s : Scan} :
    ((scanStart val).bind scanClock = some s ∧ s.p = []) ↔
      ∃ v : Datetime, v.text = val ∧ s = ⟨v.fields, v.first, v.last, []⟩ := by
  constructor
  · rintro ⟨h, hend⟩
    obtain ⟨s0, h0, h1⟩ := Option.bind_eq_some_iff.mp h
    obtain ⟨d, hval, hs0⟩ | ⟨d, hour, hval, hs0⟩ | ⟨hour, hval, hs0⟩ := scanStart_eq_some h0
    · rw [hs0, scanClock, if_neg (show ¬(2 : ℕ) = 3 by decide)] at h1
      cases h1
      have hp : s0.p = [] := hend
      rw [hp] at hval ⊢
      exact ⟨.date d, by simp [hval, Datetime.text], rfl⟩
    · rw [hs0] at h1
      obtain ⟨minute, second, fraction, hp, rfl⟩ := scanClock_eq_some.mp ⟨h1, hend⟩
      rw [hp] at hval
      exact ⟨.full d ⟨hour, minute, second, fraction⟩, by simp [hval, Datetime.text, Clock.text],
        by simp [Datetime.fields, Datetime.first, Datetime.last, Clock.fields, Clock.last]⟩
    · rw [hs0] at h1
      obtain ⟨minute, second, fraction, hp, rfl⟩ := scanClock_eq_some.mp ⟨h1, hend⟩
      rw [hp] at hval
      exact ⟨.time ⟨hour, minute, second, fraction⟩, by simp [hval, Datetime.text, Clock.text],
        by simp [Datetime.fields, Datetime.first, Datetime.last, Clock.fields, Clock.last]⟩
  · rintro ⟨v, rfl, rfl⟩
    cases v with
    | date d => exact ⟨by rw [Datetime.text, scanStart_date]; rfl, rfl⟩
    | full d c =>
      refine ⟨?_, rfl⟩
      rw [Datetime.text, Clock.text, scanStart_full, Option.bind_some, scanClock_clock]
      rfl
    | time c =>
      refine ⟨?_, rfl⟩
      rw [Datetime.text, Clock.text, scanStart_time, Option.bind_some]
      exact scanClock_clock [[], [], []] 3 c

/-! ## The buffers -/

/-- A write behind what is already written. -/
theorem store_append {written rest bytes : Text} (h : bytes.length ≤ rest.length) :
    store (written ++ rest) written.length bytes = some (written ++ bytes ++ rest.drop bytes.length) := by
  have hroom : written.length + bytes.length ≤ (written ++ rest).length := by
    rw [List.length_append]
    exact Nat.add_le_add_left h _
  rw [store, if_pos hroom, List.take_left', List.drop_append, List.drop_eq_nil_of_le (by omega)]
  · simp
  · rfl

/-- What the fields still to write come to. -/
def rendered (f : ℕ → Text) (start : ℕ) (fields : List ℕ) : Text :=
  fields.flatMap fun i ↦ (if start < i then [Datetime.separator i] else []) ++ f i

theorem kSep_getD {i : ℕ} (hpos : 0 < i) (hle : i ≤ 6) : kSep.getD i '\x00' = Datetime.separator i := by
  interval_cases i <;> rfl

theorem rendered_cons (f : ℕ → Text) (start i : ℕ) (rest : List ℕ) :
    rendered f start (i :: rest) =
      (if start < i then [Datetime.separator i] else []) ++ f i ++ rendered f start rest := by
  rw [rendered, List.flatMap_cons]
  rfl

/-- The loop writes the fields one after another and a NUL behind the last when all of it has room, and gives
up inside the buffer otherwise. -/
theorem fitFields_eq {f : List Text} {g : ℕ → Text} {scale start : ℕ} (fields : List ℕ) {written rest : Text}
    (hfield : ∀ i ∈ fields, fieldText f scale i = some (g i)) (hbound : ∀ i ∈ fields, i ≤ 6)
    (hroom : fields = [] → rest ≠ []) :
    if (rendered g start fields).length < rest.length then
      fitFields f scale start fields written.length (written ++ rest) =
        some (true, written ++ rendered g start fields ++
          '\x00' :: rest.drop ((rendered g start fields).length + 1))
    else ∃ out', fitFields f scale start fields written.length (written ++ rest) = some (false, out') ∧
      out'.length = (written ++ rest).length := by
  induction fields generalizing written rest with
  | nil =>
    have hpos : 0 < rest.length := List.length_pos_of_ne_nil (hroom rfl)
    have hstore := @store_append written rest ['\x00'] hpos
    rw [if_pos (by simpa [rendered] using hpos)]
    simp [fitFields, hstore, rendered]
  | cons i more ih =>
    have hi := hfield i List.mem_cons_self
    let sep : Text := if start < i then [Datetime.separator i] else []
    have hsep : (if start < i then [kSep.getD i '\x00'] else []) = sep := by
      by_cases h : start < i
      · rw [if_pos h, kSep_getD (Nat.zero_lt_of_lt h) (hbound i List.mem_cons_self)]
        exact (if_pos h).symm
      · rw [if_neg h]
        exact (if_neg h).symm
    have hlength : (rendered g start (i :: more)).length =
        sep.length + (g i).length + (rendered g start more).length := by
      rw [rendered_cons, List.length_append, List.length_append]
    rw [fitFields, hi]
    simp only [Option.bind_eq_bind, Option.bind_some, hsep]
    by_cases hfits : (written ++ rest).length < written.length + ((g i).length + sep.length) + 1
    · rw [if_pos hfits, if_neg]
      · exact ⟨_, rfl, rfl⟩
      · rw [List.length_append] at hfits
        omega
    · have hlt : (sep ++ g i).length < rest.length := by
        rw [List.length_append] at hfits ⊢
        omega
      have hstore₁ : store (written ++ rest) written.length sep = some (written ++ sep ++ rest.drop sep.length) :=
        store_append (by rw [List.length_append] at hlt; omega)
      have hstore₂ : store (written ++ sep ++ rest.drop sep.length) (written.length + sep.length) (g i) =
          some (written ++ sep ++ g i ++ rest.drop (sep.length + (g i).length)) := by
        rw [← List.length_append, store_append (by simp only [List.length_append, List.length_drop] at hlt ⊢; omega),
          List.drop_drop]
      rw [if_neg hfits, hstore₁, Option.bind_some, hstore₂, Option.bind_some]
      have hrest : rest.drop (sep.length + (g i).length) ≠ [] := by
        rw [Ne, List.drop_eq_nil_iff, ← List.length_append]
        omega
      have hih := @ih (written ++ sep ++ g i) (rest.drop (sep.length + (g i).length))
        (fun j hj ↦ hfield j (List.mem_cons_of_mem _ hj)) (fun j hj ↦ hbound j (List.mem_cons_of_mem _ hj))
        fun _ ↦ hrest
      have hwritten : (written ++ sep ++ g i).length = written.length + sep.length + (g i).length := by
        rw [List.length_append, List.length_append]
      have hlengths : (rendered g start (i :: more)).length < rest.length ↔
          (rendered g start more).length < (rest.drop (sep.length + (g i).length)).length := by
        rw [hlength, List.length_drop, List.length_append] at *
        omega
      rw [hwritten] at hih
      by_cases hall : (rendered g start (i :: more)).length < rest.length
      · rw [if_pos (hlengths.mp hall)] at hih
        rw [if_pos hall, hih, rendered_cons, List.drop_drop]
        have hdrop : sep.length + (g i).length + ((rendered g start more).length + 1) =
            (sep ++ g i ++ rendered g start more).length + 1 := by
          simp only [List.length_append]
          omega
        rw [hdrop]
        simp [sep]
      · rw [if_neg (mt hlengths.mpr hall)] at hih
        obtain ⟨out', hout, hout'⟩ := hih
        rw [if_neg hall]
        refine ⟨out', hout, hout'.trans ?_⟩
        simp only [List.length_append, List.length_drop] at hlt ⊢
        omega

theorem length_fields_le (v : Datetime) : ∀ t ∈ v.fields, t.length ≤ 7 := by
  have hday (d : Day) : ∀ t ∈ d.fields, t.length ≤ 7 := by
    simp [Day.fields, d.year.2.1, d.month.2.1, d.day.2.1]
  have hclock (c : Clock) : ∀ t ∈ c.fields, t.length ≤ 7 := by
    intro t ht
    rw [Clock.fields, List.mem_append] at ht
    obtain ht | ht := ht
    · revert t
      simp [c.hour.2.1, c.minute.2.1, c.second.2.1]
    · cases hfraction : c.fraction with
      | none => simp [hfraction] at ht
      | some digits =>
        have ht' : t = digits.1 := by simpa [hfraction] using ht
        exact ht' ▸ digits.2.2.1
  cases v with
  | date d => exact hday d
  | full d c => exact List.forall_mem_append.mpr ⟨hday d, hclock c⟩
  | time c => exact List.forall_mem_append.mpr ⟨by simp, hclock c⟩

theorem cut_or_padded (digits : Text) (scale : ℕ) :
    (List.range scale).map (fun k ↦ if k < digits.length then digits.getD k '0' else '0') =
      (digits ++ List.replicate scale '0').take scale := by
  apply List.ext_getElem
  · simp
  · intro k hk _
    have hscale : k < scale := by simpa using hk
    by_cases h : k < digits.length
    · simp [h, List.getElem_append_left]
    · simp [h, List.getElem_append_right (Nat.le_of_not_lt h)]

/-- No field of a value runs over its buffer, the fraction of a qualifier neither. -/
theorem fieldText_eq (v : Datetime) {q : Qualifier} (hscale : q.scale ≤ 5) (i : ℕ) :
    fieldText v.fields q.scale i = some (v.fieldIn q i) := by
  unfold fieldText Datetime.fieldIn
  by_cases hi : i = 6
  · simp only [if_pos hi, cut_or_padded]
    rw [if_pos]
    rw [List.length_take]
    omega
  · simp only [if_neg hi]
    rw [if_pos]
    rw [List.getD_eq_getElem?_getD]
    cases h : v.fields[i]? with
    | none => decide
    | some t => exact Nat.lt_succ_of_le (length_fields_le v t (List.mem_of_getElem? h))

/-! ## The qualifier -/

theorem fieldIndex_of_neg {code : ℤ} (h : code < 0) : fieldIndex code = none := by
  rw [fieldIndex, if_pos (by omega), if_neg (not_le.mpr h)]

theorem fieldIndex_natCast {code : ℕ} (h : code < 16) :
    fieldIndex code = some ((fieldOfCode code).elim (-1) Nat.cast) := by
  interval_cases code <;> rfl

theorem fieldOfCode_le {code i : ℕ} (h : fieldOfCode code = some i) : i ≤ 6 := by
  unfold fieldOfCode at h
  split at h
  · split at h
    · cases h
      omega
    · cases h
  · split at h
    · cases h
      exact le_rfl
    · cases h

/-- The remainders of C against the low byte: they are its two halves, or one of them is negative. -/
theorem tmod_low (collength : ℤ) (h : 0 ≤ collength ∨ 256 ∣ collength) :
    (collength.tmod 256).tdiv 16 = ((collength % 256).toNat / 16 : ℕ) ∧
      collength.tmod 16 = ((collength % 256).toNat % 16 : ℕ) := by
  have hlow : collength.tmod 256 = collength % 256 ∧ collength.tmod 16 = collength % 16 := by
    obtain h | ⟨k, rfl⟩ := h
    · exact ⟨Int.tmod_eq_emod_of_nonneg h, Int.tmod_eq_emod_of_nonneg h⟩
    · have h16 : (256 * k).tmod 16 = 0 := Int.tmod_eq_zero_of_dvd ⟨16 * k, by omega⟩
      have h256 : (256 * k).tmod 256 = 0 := Int.tmod_eq_zero_of_dvd ⟨k, rfl⟩
      omega
  rw [hlow.1, hlow.2, Int.tdiv_eq_ediv_of_nonneg (by omega)]
  omega

/-- Elsewhere one of the two reads of the table is a read before its start. -/
theorem fitQualifier_undefined (s : Scan) {collength : ℤ} (h : ¬(0 ≤ collength ∨ 256 ∣ collength)) (out : Text) :
    fitQualifier s collength out = none := by
  obtain ⟨hneg, hdvd⟩ := not_or.mp h
  obtain ⟨c, rfl⟩ : ∃ c : ℤ, collength = -c := ⟨-collength, (neg_neg collength).symm⟩
  have hmod (n : ℤ) : (-c).tmod n = -(c % n) := by
    rw [Int.neg_tmod, Int.tmod_eq_emod_of_nonneg (by omega)]
  have hdiv : (-(c % 256)).tdiv 16 = -(c % 256 / 16) := by
    rw [Int.neg_tdiv, Int.tdiv_eq_ediv_of_nonneg (by omega)]
  have hne : c % 256 ≠ 0 := fun hzero ↦ hdvd (Int.dvd_neg.mpr (Int.dvd_of_emod_eq_zero hzero))
  unfold fitQualifier
  rw [hmod, hmod, hdiv]
  by_cases hlargest : c % 256 / 16 = 0
  · have hsmallest : -(c % 16) < 0 := by omega
    simp only [fieldIndex_of_neg hsmallest, Option.bind_eq_bind, Option.bind_none, Option.bind_fun_none]
  · have hstart : -(c % 256 / 16) < 0 := by omega
    simp only [fieldIndex_of_neg hstart, Option.bind_eq_bind, Option.bind_none]

theorem Qualifier.EncodedBy.unique {q q' : Qualifier} {collength : ℤ} (h : q.EncodedBy collength)
    (h' : q'.EncodedBy collength) : q = q' := by
  obtain ⟨start, stop, scale, ordered⟩ := q
  obtain ⟨start', stop', scale', ordered'⟩ := q'
  obtain ⟨h1, h2, h3⟩ := h
  obtain ⟨h1', h2', h3'⟩ := h'
  have hstart : start = start' := Option.some.inj (h1.symm.trans h1')
  have hstop : stop = stop' := Option.some.inj (h2.symm.trans h2')
  have hscale : scale = scale' := h3.trans h3'.symm
  subst hstart hstop hscale
  rfl

theorem Datetime.last_le (v : Datetime) : v.last ≤ 6 := by
  have hclock (c : Clock) : c.last ≤ 6 := by
    unfold Clock.last
    split <;> omega
  cases v with
  | date d => exact show 2 ≤ 6 by decide
  | full d c => exact hclock c
  | time c => exact hclock c

/-- The test of the source on two fields that the table knows. -/
theorem refuses_iff {start stop first last : ℕ} (hlast : last ≤ 6) :
    ((start : ℤ) < 0 ∨ (stop : ℤ) < 0 ∨ (stop : ℤ) < start ∨ (start : ℤ) < first ∨
        (last : ℤ) < (if (stop : ℤ) = 6 then (5 : ℤ) else (stop : ℤ))) ↔
      ¬(start ≤ stop ∧ first ≤ start ∧ (stop ≤ last ∨ stop = 6 ∧ last = 5)) := by
  by_cases hsix : (stop : ℤ) = 6
  · rw [if_pos hsix]
    omega
  · rw [if_neg hsix]
    omega

/-- What is left to the call once the qualifier is known: it takes the qualifier or refuses it. -/
theorem fitQualifier_of_encodes (v : Datetime) {collength : ℤ} (h : 0 ≤ collength ∨ 256 ∣ collength) (out : Text) :
    fitQualifier ⟨v.fields, v.first, v.last, []⟩ collength out = some (false, out) ∧
        (∀ q : Qualifier, q.EncodedBy collength → ¬v.Covers q) ∨
      ∃ q : Qualifier, q.EncodedBy collength ∧ v.Covers q ∧
        fitQualifier ⟨v.fields, v.first, v.last, []⟩ collength out =
          fitFields v.fields q.scale q.start (List.range' q.start (q.stop + 1 - q.start)) 0 out := by
  obtain ⟨hlargest, hsmallest⟩ := tmod_low collength h
  have hlow : (collength % 256).toNat < 256 := by omega
  unfold fitQualifier
  rw [hlargest, hsmallest]
  have hstarts := @fieldIndex_natCast ((collength % 256).toNat / 16) (by omega)
  have hstops := @fieldIndex_natCast ((collength % 256).toNat % 16) (by omega)
  simp only [hstarts, hstops, Option.bind_eq_bind, Option.bind_some]
  have hscale : (if (11 : ℤ) ≤ (((collength % 256).toNat % 16 : ℕ) : ℤ) then
      (((collength % 256).toNat % 16 : ℕ) : ℤ) - 10 else 0).toNat = (collength % 256).toNat % 16 - 10 := by
    split <;> omega
  cases hstart : fieldOfCode ((collength % 256).toNat / 16) with
  | none =>
    refine .inl ⟨if_pos (.inl (by decide)), fun q hq _ ↦ ?_⟩
    cases hstart.symm.trans hq.1
  | some start =>
    cases hstop : fieldOfCode ((collength % 256).toNat % 16) with
    | none =>
      refine .inl ⟨if_pos (.inr (.inl (by decide))), fun q hq _ ↦ ?_⟩
      cases hstop.symm.trans hq.2.1
    | some stop =>
      have hlast := v.last_le
      by_cases hgood : start ≤ stop ∧ v.first ≤ start ∧ (stop ≤ v.last ∨ stop = 6 ∧ v.last = 5)
      · refine .inr ⟨⟨start, stop, (collength % 256).toNat % 16 - 10, hgood.1⟩, ⟨hstart, hstop, rfl⟩, hgood.2, ?_⟩
        rw [hscale]
        exact if_neg fun hrefuses ↦ (refuses_iff hlast).mp hrefuses hgood
      · refine .inl ⟨if_pos ((refuses_iff hlast).mpr hgood), fun q hq hcovers ↦ hgood ?_⟩
        have hq1 : q.start = start := Option.some.inj (hq.1.symm.trans hstart)
        have hq2 : q.stop = stop := Option.some.inj (hq.2.1.symm.trans hstop)
        subst hq1 hq2
        exact ⟨q.ordered, hcovers⟩

theorem Qualifier.EncodedBy.bounds {q : Qualifier} {collength : ℤ} (h : q.EncodedBy collength) :
    q.stop ≤ 6 ∧ q.scale ≤ 5 := by
  refine ⟨fieldOfCode_le h.2.1, ?_⟩
  have hscale : q.scale = (collength % 256).toNat % 16 - 10 := h.2.2
  omega

theorem rendered_eq_fitted (v : Datetime) (q : Qualifier) :
    rendered (v.fieldIn q) q.start (List.range' q.start (q.stop + 1 - q.start)) = v.fitted q :=
  rfl

/-- On a value of the grammar, wherever the table is read inside its bounds. -/
theorem fitQualifier_eq (v : Datetime) {collength : ℤ} (h : 0 ≤ collength ∨ 256 ∣ collength) (out : Text) :
    ∃ ret out', fitQualifier ⟨v.fields, v.first, v.last, []⟩ collength out = some (ret, out') ∧
      out'.length = out.length ∧
      (ret = true ↔ ∃ q : Qualifier, q.EncodedBy collength ∧ v.Covers q ∧ (v.fitted q).length < out.length) ∧
      ∀ q : Qualifier, q.EncodedBy collength → v.Covers q → (v.fitted q).length < out.length →
        out' = v.fitted q ++ '\x00' :: out.drop ((v.fitted q).length + 1) := by
  obtain ⟨heq, hnone⟩ | ⟨q, hq, hcovers, heq⟩ := fitQualifier_of_encodes v h out
  · refine ⟨false, out, heq, rfl, iff_of_false Bool.false_ne_true ?_, fun q hq hcovers ↦ absurd hcovers (hnone q hq)⟩
    rintro ⟨q, hq, hcovers, -⟩
    exact hnone q hq hcovers
  · have hne : List.range' q.start (q.stop + 1 - q.start) ≠ [] := by
      have hordered := q.ordered
      rw [Ne, List.range'_eq_nil_iff]
      omega
    have hbound : ∀ i ∈ List.range' q.start (q.stop + 1 - q.start), i ≤ 6 := by
      intro i hi
      have hstop := hq.bounds.1
      rw [List.mem_range'_1] at hi
      omega
    have hloop := @fitFields_eq v.fields (v.fieldIn q) q.scale q.start _ [] out
      (fun i _ ↦ fieldText_eq v hq.bounds.2 i) hbound fun hnil ↦ absurd hnil hne
    rw [rendered_eq_fitted, List.nil_append, List.length_nil, ← heq] at hloop
    split at hloop
    · next hfits =>
      have hlength : (v.fitted q ++ '\x00' :: out.drop ((v.fitted q).length + 1)).length = out.length := by
        simp only [List.length_append, List.length_cons, List.length_drop]
        omega
      refine ⟨true, _, hloop, hlength, iff_of_true rfl ⟨q, hq, hcovers, hfits⟩, fun q' hq' _ _ ↦ ?_⟩
      rw [hq'.unique hq]
      rfl
    · next hfits =>
      obtain ⟨out', hout, hlength⟩ := hloop
      have hnone (q' : Qualifier) (hq' : q'.EncodedBy collength) : ¬(v.fitted q').length < out.length := by
        rwa [hq'.unique hq]
      refine ⟨false, out', hout, hlength, iff_of_false Bool.false_ne_true ?_,
        fun q' hq' _ hfits' ↦ absurd hfits' (hnone q' hq')⟩
      rintro ⟨q', hq', -, hfits'⟩
      exact hnone q' hq' hfits'

/-- Two values of one text have the same fields, so a text stands for one value of them. -/
theorem Datetime.fields_eq_of_text {v w : Datetime} (h : v.text = w.text) :
    v.fields = w.fields ∧ v.first = w.first ∧ v.last = w.last := by
  obtain ⟨hv, -⟩ := scan_eq_some.mpr ⟨v, rfl, rfl⟩
  obtain ⟨hw, -⟩ := scan_eq_some.mpr ⟨w, rfl, rfl⟩
  rw [h] at hv
  have heq := Option.some.inj (hv.symm.trans hw)
  simpa using heq

theorem informixFitDatetime_of_text (v : Datetime) (collength : ℤ) (out : Text) :
    informixFitDatetime (some v.text) collength (some out) =
      (fitQualifier ⟨v.fields, v.first, v.last, []⟩ collength out).map fun r ↦ (r.1, some r.2) := by
  obtain ⟨hv, -⟩ := scan_eq_some.mpr ⟨v, rfl, rfl⟩
  simp only [informixFitDatetime, hv, if_true]

theorem informixFitDatetime_of_no_text {val : Text} (h : ¬∃ v : Datetime, v.text = val) (collength : ℤ)
    (out : Text) : informixFitDatetime (some val) collength (some out) = some (false, some out) := by
  cases hscan : (scanStart val).bind scanClock with
  | none => simp only [informixFitDatetime, hscan]
  | some s =>
    have hend : s.p ≠ [] := fun hend ↦ h (by
      obtain ⟨v, hv, -⟩ := scan_eq_some.mp ⟨hscan, hend⟩
      exact ⟨v, hv⟩)
    simp only [informixFitDatetime, hscan, if_neg hend]

theorem Datetime.covers_and_fitted {v w : Datetime} (h : v.text = w.text) (q : Qualifier) :
    (v.Covers q ↔ w.Covers q) ∧ v.fitted q = w.fitted q := by
  obtain ⟨hfields, hfirst, hlast⟩ := fields_eq_of_text h
  unfold Covers fitted fieldIn
  rw [hfields, hfirst, hlast]
  exact ⟨Iff.rfl, rfl⟩

/-- The call does what it promises unless it reads `k_index` before its start, which it does on every value of
the grammar under a negative `collength` with a low byte other than zero. -/
theorem informixFitDatetime_exact (val : Text) (collength : ℤ) (out : Text) :
    FitsExactly val collength out ↔
      0 ≤ collength ∨ 256 ∣ collength ∨ ¬∃ v : Datetime, v.text = val := by
  by_cases hval : ∃ v : Datetime, v.text = val
  · obtain ⟨v, rfl⟩ := hval
    have hfits (text : Text) : Fits v.text collength out.length text ↔
        ∃ q : Qualifier, q.EncodedBy collength ∧ v.Covers q ∧ (v.fitted q).length < out.length ∧
          text = v.fitted q := by
      constructor
      · rintro ⟨w, q, hw, hq, hcovers, rfl, hlt⟩
        obtain ⟨hiff, heq⟩ := Datetime.covers_and_fitted hw q
        exact ⟨q, hq, hiff.mp hcovers, heq ▸ hlt, heq⟩
      · rintro ⟨q, hq, hcovers, hlt, rfl⟩
        exact ⟨v, q, rfl, hq, hcovers, rfl, hlt⟩
    unfold FitsExactly
    rw [informixFitDatetime_of_text]
    constructor
    · rintro ⟨ret, out', h, -⟩
      by_contra hnot
      have hcond : ¬(0 ≤ collength ∨ 256 ∣ collength) := by tauto
      rw [fitQualifier_undefined _ hcond] at h
      cases h
    · intro h
      have hcond : 0 ≤ collength ∨ 256 ∣ collength := by
        obtain h | h | h := h
        · exact .inl h
        · exact .inr h
        · exact absurd ⟨v, rfl⟩ h
      obtain ⟨ret, out', heq, hlength, hret, hout⟩ := fitQualifier_eq v hcond out
      refine ⟨ret, out', by rw [heq]; rfl, hlength, hret.trans ?_, ?_⟩
      · simp only [hfits]
        constructor
        · rintro ⟨q, hq, hcovers, hlt⟩
          exact ⟨_, q, hq, hcovers, hlt, rfl⟩
        · rintro ⟨-, q, hq, hcovers, hlt, -⟩
          exact ⟨q, hq, hcovers, hlt⟩
      · intro text htext
        obtain ⟨q, hq, hcovers, hlt, rfl⟩ := (hfits text).mp htext
        exact hout q hq hcovers hlt
  · refine iff_of_true ⟨false, out, informixFitDatetime_of_no_text hval collength out, rfl,
      iff_of_false Bool.false_ne_true ?_, ?_⟩ (.inr (.inr hval))
    · rintro ⟨text, v, q, hv, -⟩
      exact hval ⟨v, hv⟩
    · rintro text ⟨v, q, hv, -⟩
      exact absurd ⟨v, hv⟩ hval

/-- A date under `collength` −1 reads `k_index[-15]`. -/
theorem informixFitDatetime_reads_outside : ¬FitsExactly "2026-09-23".toList (-1) (List.replicate 40 '?') := by
  rintro ⟨ret, out', h, -⟩
  have hundefined : informixFitDatetime (some "2026-09-23".toList) (-1) (some (List.replicate 40 '?')) = none := by
    decide
  rw [hundefined] at h
  cases h

end Squaero.Drivers.Informix
