import Squaero.Mongo.Bson
import Squaero.Mongo.Dml

/-!
# The text of a date

`mongo_format_datetime` of `drivers/mongodb/src/utils/value_fmt.c` on the machine: no value between overflows its type,
the text stands for the instant whatever its year, and `is_iso_date` of `dml.c` knows it in the years of four digits.
-/

namespace Squaero.Mongo

open Squaero.Lib Squaero.Lib.Calendar Squaero.Core

/-! ## The types of C -/

/-- A value as long as its type has it. -/
def fitting (low high value : ℤ) : Option ℤ := if low ≤ value ∧ value ≤ high then some value else none

/-- `int64_t` -/
def int64 : ℤ → Option ℤ := fitting (-2 ^ 63) (2 ^ 63 - 1)

/-- `int` -/
def int32 : ℤ → Option ℤ := fitting (-2 ^ 31) (2 ^ 31 - 1)

/-- `unsigned` -/
def uint32 : ℤ → Option ℤ := fitting 0 (2 ^ 32 - 1)

section Fitting

variable {value : ℤ} {β : Type} {f : ℤ → Option β}

theorem fitting_bind {low high : ℤ} (h : low ≤ value ∧ value ≤ high) :
    (fitting low high value >>= f) = f value := by
  rw [fitting, if_pos h]
  rfl

theorem int64_bind (h : -2 ^ 63 ≤ value ∧ value ≤ 2 ^ 63 - 1) : (int64 value >>= f) = f value :=
  fitting_bind h

theorem uint32_bind (h : 0 ≤ value ∧ value ≤ 2 ^ 32 - 1) : (uint32 value >>= f) = f value :=
  fitting_bind h

end Fitting

/-! ## Step by step -/

/-- `floorSplit`, the remainder in a type of its own. -/
def floorSplitChecked (fit : ℤ → Option ℤ) (n d : ℤ) : Option (ℤ × ℤ) := do
  let q ← int64 (n.tdiv d)
  let r ← fit (n.tmod d)
  if r < 0 then
    let r ← fit (r + d)
    let q ← int64 (q - 1)
    return (q, r)
  else return (q, r)

def civilFromDaysChecked (days : ℤ) : Option (ℤ × ℤ × ℤ) := do
  let z ← int64 (days + 719468)
  let shifted ← int64 (if 0 ≤ z then z else z - 146096)
  let era ← int64 (shifted.tdiv 146097)
  let eraDays ← int64 (era * 146097)
  let doe ← int64 (z - eraDays)
  let doe ← uint32 doe
  let corrected ← uint32 (doe - doe / 1460)
  let corrected ← uint32 (corrected + doe / 36524)
  let corrected ← uint32 (corrected - doe / 146096)
  let yoe ← uint32 (corrected / 365)
  let eraYears ← int64 (era * 400)
  let y ← int64 (yoe + eraYears)
  let yearDays ← uint32 (365 * yoe)
  let yearDays ← uint32 (yearDays + yoe / 4)
  let yearDays ← uint32 (yearDays - yoe / 100)
  let doy ← uint32 (doe - yearDays)
  let mp ← uint32 (5 * doy)
  let mp ← uint32 (mp + 2)
  let mp ← uint32 (mp / 153)
  let monthDays ← uint32 (153 * mp)
  let monthDays ← uint32 (monthDays + 2)
  let d ← uint32 (doy - monthDays / 5)
  let d ← uint32 (d + 1)
  let m ← uint32 (if mp < 10 then mp + 3 else mp - 9)
  let y ← int64 (if m ≤ 2 then y + 1 else y)
  return (y, m, d)

/-- The fields that are printed; none where a value overflows on the way. -/
def civilOfChecked (millis : ℤ) : Option DateTime := do
  let (secs, ms) ← floorSplitChecked int32 millis 1000
  let (days, tod) ← floorSplitChecked int64 secs 86400
  let hh ← int32 (tod / 3600)
  let mm ← int32 (tod % 3600 / 60)
  let ss ← int32 (tod % 60)
  let (y, m, d) ← civilFromDaysChecked days
  let m ← int32 m
  let d ← int32 d
  return { year := y, month := m.toNat, day := d.toNat, hour := hh.toNat, minute := mm.toNat, second := ss.toNat,
           milli := ms.toNat }

theorem floorSplitChecked_eq {fit : ℤ → Option ℤ} {n d : ℤ} (hn : -2 ^ 63 ≤ n ∧ n ≤ 2 ^ 63 - 1) (hd : 2 ≤ d)
    (hfit : ∀ r, -d < r → r < d → fit r = some r) : floorSplitChecked fit n d = some (floorSplit n d) := by
  have hsplit := Int.mul_tdiv_add_tmod n d
  have hlow := Int.lt_tmod_of_pos n (by omega : 0 < d)
  have hhigh := Int.tmod_lt_of_pos n (by omega : 0 < d)
  have hquotient : -2 ^ 62 ≤ n.tdiv d ∧ n.tdiv d ≤ 2 ^ 62 := by
    constructor <;> nlinarith
  unfold floorSplitChecked floorSplit
  rw [int64_bind (by omega), hfit _ hlow hhigh]
  dsimp only [Option.bind_eq_bind, Option.bind_some]
  split_ifs with hneg
  · rw [hfit _ (by omega) (by omega)]
    dsimp only [Option.bind_eq_bind, Option.bind_some]
    exact int64_bind (by omega)
  · rfl

/-- No value overflows in a range of days that holds all of those of `int64_t` milliseconds. -/
theorem civilFromDaysChecked_eq {days : ℤ} (hlow : -2 ^ 40 ≤ days) (hhigh : days ≤ 2 ^ 40) :
    civilFromDaysChecked days = some (civilFromDays days) := by
  have hdoe : 0 ≤ days + 719468 - (days + 719468) / 146097 * 146097 ∧
      days + 719468 - (days + 719468) / 146097 * 146097 ≤ 146096 := by
    omega
  have hera : -2 ^ 40 ≤ (days + 719468) / 146097 ∧ (days + 719468) / 146097 ≤ 2 ^ 40 := by
    omega
  obtain ⟨hyoe0, hyoe1, hstart, hend, -⟩ := day_of_yearOfEra hdoe.1 hdoe.2
  have hyoe (doe : ℤ) : (doe - doe / 1460 + doe / 36524 - doe / 146096) / 365 = yearOfEra doe := rfl
  unfold civilFromDaysChecked civilFromDays
  rw [int64_bind (by omega), int64_bind (by split_ifs <;> omega), era_eq]
  dsimp only
  rw [int64_bind (by omega), int64_bind (by omega), int64_bind (by omega)]
  rw [era_eq]
  generalize hdoeEq : days + 719468 - (days + 719468) / 146097 * 146097 = doe at *
  generalize (days + 719468) / 146097 = era at *
  rw [uint32_bind (by omega), uint32_bind (by omega), uint32_bind (by omega), uint32_bind (by omega), hyoe,
    uint32_bind (by omega)]
  unfold daysBeforeEraYear at hstart hend
  generalize yearOfEra doe = yoe at *
  rw [int64_bind (by omega), int64_bind (by omega), uint32_bind (by omega), uint32_bind (by omega),
    uint32_bind (by omega), uint32_bind (by omega)]
  generalize hdoy : doe - (365 * yoe + yoe / 4 - yoe / 100) = doy at *
  rw [uint32_bind (by omega), uint32_bind (by omega), uint32_bind (by omega)]
  generalize hmp : (5 * doy + 2) / 153 = mp at *
  rw [uint32_bind (by omega), uint32_bind (by omega), uint32_bind (by omega), uint32_bind (by omega)]
  rw [uint32_bind (by split_ifs <;> omega), int64_bind (by split_ifs <;> omega)]
  rfl

theorem civilFromDays_year_le {days : ℤ} (hlow : -2 ^ 38 ≤ days) (hhigh : days ≤ 2 ^ 38) :
    (civilFromDays days).1.natAbs < 10 ^ 9 := by
  have hdoe : 0 ≤ days + 719468 - (days + 719468) / 146097 * 146097 ∧
      days + 719468 - (days + 719468) / 146097 * 146097 ≤ 146096 := by
    omega
  obtain ⟨hyoe0, hyoe1, -⟩ := day_of_yearOfEra hdoe.1 hdoe.2
  unfold yearOfEra at hyoe0 hyoe1
  unfold civilFromDays
  dsimp only
  rw [era_eq]
  split_ifs <;> omega

/-- What is printed of an instant of `int64_t` comes about without an overflow, and in nine digits of a year. -/
theorem civilOfChecked_eq {millis : ℤ} (h : -2 ^ 63 ≤ millis ∧ millis ≤ 2 ^ 63 - 1) :
    civilOfChecked millis = some (civilOf millis) ∧ (civilOf millis).year.natAbs < 10 ^ 9 := by
  have hsmall : ∀ r : ℤ, -1000 < r → r < 1000 → int32 r = some r := fun r hlow hhigh ↦ if_pos (by omega)
  have hlarge : ∀ r : ℤ, -86400 < r → r < 86400 → int64 r = some r := fun r hlow hhigh ↦ if_pos (by omega)
  obtain ⟨hvalid, -⟩ := civilOf_spec millis
  unfold civilOfChecked
  rw [floorSplitChecked_eq h (by norm_num) hsmall]
  unfold civilOf at hvalid ⊢
  rw [floorSplit_eq millis (by norm_num)] at hvalid ⊢
  dsimp only [Option.bind_eq_bind, Option.bind_some] at hvalid ⊢
  rw [floorSplit_eq (millis / 1000) (by norm_num)] at hvalid
  rw [floorSplitChecked_eq (by omega) (by norm_num) hlarge, floorSplit_eq (millis / 1000) (by norm_num)]
  dsimp only [Option.bind_eq_bind, Option.bind_some] at hvalid ⊢
  have hdays : -2 ^ 38 ≤ millis / 1000 / 86400 ∧ millis / 1000 / 86400 ≤ 2 ^ 38 := by omega
  have hyear := civilFromDays_year_le hdays.1 hdays.2
  have hcivil := civilFromDaysChecked_eq (by omega) (by omega : millis / 1000 / 86400 ≤ 2 ^ 40)
  have hfits {v : ℤ} (hv : 0 ≤ v ∧ v < 86400) : int32 v = some v := if_pos (by omega)
  rw [hfits (by omega), Option.bind_some, hfits (by omega), Option.bind_some, hfits (by omega), Option.bind_some,
    hcivil, Option.bind_some]
  generalize hparts : civilFromDays (millis / 1000 / 86400) = civil at *
  obtain ⟨y, m, d⟩ := civil
  obtain ⟨hm, hd, -⟩ := civilFromDays_spec _ hparts
  have hday : monthLength y m.toNat ≤ 31 := by
    unfold monthLength
    split_ifs <;> norm_num
  dsimp only
  rw [hfits (by omega), Option.bind_some, hfits (by omega), Option.bind_some]
  exact ⟨rfl, hyear⟩

/-! ## The text -/

theorem yearText_head (y : ℤ) : (yearText y).head? = some '-' ↔ y < 0 := by
  unfold yearText
  split_ifs with hneg
  · exact iff_of_true rfl hneg
  · obtain ⟨hne, hdigit, -⟩ := pad_digits 4 y.natAbs
    refine iff_of_false (fun hhead ↦ ?_) hneg
    have hminus := hdigit '-' (List.mem_of_head? hhead)
    exact absurd hminus (by decide)

/-- The text stands for the instant, whatever the year. -/
theorem anyYearMillis_mongoFormatDatetime (millis : ℤ) : anyYearMillis (mongoFormatDatetime millis) = some millis := by
  obtain ⟨hvalid, hmillis⟩ := civilOf_spec millis
  obtain ⟨c, hc, htext⟩ := exists_tailDigits millis
  obtain ⟨digits, hunsigned, hdigits, hyear⟩ : ∃ digits : Text,
      (if (mongoFormatDatetime millis).head? = some '-' then (mongoFormatDatetime millis).tail
        else mongoFormatDatetime millis) = digits ++ c.text ∧
      (digits ≠ [] ∧ ∀ x ∈ digits, x.isDigit = true) ∧
      (if (mongoFormatDatetime millis).head? = some '-' then -((Json.natOfDigits digits : ℕ) : ℤ)
        else Json.natOfDigits digits) = (civilOf millis).year := by
    have hhead : (mongoFormatDatetime millis).head? = some '-' ↔ (civilOf millis).year < 0 := by
      rw [htext, ← yearText_head, List.head?_append_of_ne_nil]
      unfold yearText
      split_ifs
      · exact List.cons_ne_nil _ _
      · exact (pad_digits _ _).1
    rw [htext] at hhead ⊢
    by_cases hneg : (civilOf millis).year < 0
    · obtain ⟨hne, hdigit, hvalue⟩ := pad_digits 3 (civilOf millis).year.natAbs
      refine ⟨pad 3 (civilOf millis).year.natAbs, ?_, ⟨hne, hdigit⟩, ?_⟩
      · rw [if_pos (hhead.2 hneg), yearText, if_pos hneg]
        rfl
      · rw [if_pos (hhead.2 hneg), hvalue]
        omega
    · obtain ⟨hne, hdigit, hvalue⟩ := pad_digits 4 (civilOf millis).year.natAbs
      have hplain : ¬ (yearText (civilOf millis).year ++ c.text).head? = some '-' := fun h ↦ hneg (hhead.1 h)
      refine ⟨pad 4 (civilOf millis).year.natAbs, ?_, ⟨hne, hdigit⟩, ?_⟩
      · rw [if_neg hplain, yearText, if_neg hneg]
      · rw [if_neg hplain, hvalue]
        omega
  have htake : (digits ++ c.text).takeWhile Char.isDigit = digits := by
    rw [List.takeWhile_append_of_pos hdigits.2, TailDigits.text, List.takeWhile_cons_of_neg (by decide),
      List.append_nil]
  have hdrop : (digits ++ c.text).dropWhile Char.isDigit = c.text := by
    rw [List.dropWhile_append_of_pos hdigits.2, TailDigits.text, List.dropWhile_cons_of_neg (by decide)]
  have hall : [c.m1, c.m2, c.d1, c.d2, c.h1, c.h2, c.n1, c.n2, c.s1, c.s2, c.f1, c.f2, c.f3].all Char.isDigit =
      true := List.all_eq_true.2 hc.digits
  unfold anyYearMillis
  dsimp only
  rw [hunsigned, htake, hdrop]
  simp only [TailDigits.text]
  rw [hyear, hc.month, hc.day, hc.hour, hc.minute, hc.second, hc.milli]
  exact (if_pos ⟨hdigits.1, hall, hvalid⟩).trans (congrArg some hmillis)

theorem length_mongoFormatDatetime {millis : ℤ} (hyear : (civilOf millis).year.natAbs < 10 ^ 9) :
    (mongoFormatDatetime millis).length ≤ 30 := by
  obtain ⟨c, -, htext⟩ := exists_tailDigits millis
  have hdigits := Nat.toDigits_length 10 (civilOf millis).year.natAbs 9 (by norm_num) hyear
  rw [htext, List.length_append, TailDigits.text]
  unfold yearText
  split_ifs
  · rw [List.length_cons, length_pad]
    simp only [List.length_cons, List.length_nil]
    omega
  · rw [length_pad]
    simp only [List.length_cons, List.length_nil]
    omega

/-! ## Four digits -/

theorem fitsShape_digit {shape s : Text} {c : Char} (hc : c.isDigit = true) :
    fitsShape ('d' :: shape) (c :: s) = fitsShape shape s := by
  rw [fitsShape, if_pos rfl, if_pos hc]

theorem fitsShape_same {shape s : Text} {c : Char} (hc : c ≠ 'd') :
    fitsShape (c :: shape) (c :: s) = fitsShape shape s := by
  rw [fitsShape, if_neg hc, if_pos (decide_eq_true rfl)]

theorem fitsShape_none {shape s : Text} {c d : Char} (hd : d = 'd' → c.isDigit = false) (hc : d ≠ 'd' → c ≠ d) :
    fitsShape (d :: shape) (c :: s) = none := by
  rw [fitsShape]
  by_cases h : d = 'd'
  · rw [if_pos h, hd h, if_neg Bool.false_ne_true]
  · rw [if_neg h, decide_eq_false (hc h), if_neg Bool.false_ne_true]

/-- Behind four digits the shape goes on as the text does. -/
theorem fitsShape_tail {c : TailDigits} {t : DateTime} (hc : c.Writes t) :
    fitsShape "-dd-ddTdd:dd:dd".toList c.text = some ['.', c.f1, c.f2, c.f3, 'Z'] := by
  have hdigits := hc.digits
  simp only [List.forall_mem_cons] at hdigits
  obtain ⟨hm1, hm2, hd1, hd2, hh1, hh2, hn1, hn2, hs1, hs2, -⟩ := hdigits
  change fitsShape ['-', 'd', 'd', '-', 'd', 'd', 'T', 'd', 'd', ':', 'd', 'd', ':', 'd', 'd'] c.text = _
  rw [TailDigits.text, fitsShape_same (by decide), fitsShape_digit hm1, fitsShape_digit hm2,
    fitsShape_same (by decide), fitsShape_digit hd1, fitsShape_digit hd2, fitsShape_same (by decide),
    fitsShape_digit hh1, fitsShape_digit hh2, fitsShape_same (by decide), fitsShape_digit hn1, fitsShape_digit hn2,
    fitsShape_same (by decide), fitsShape_digit hs1, fitsShape_digit hs2]
  rfl

/-- Only years of four digits have the shape. -/
theorem isIsoDate_mongoFormatDatetime (millis : ℤ) :
    isIsoDate (mongoFormatDatetime millis) = true ↔ 0 ≤ (civilOf millis).year ∧ (civilOf millis).year ≤ 9999 := by
  obtain ⟨c, hc, htext⟩ := exists_tailDigits millis
  have hshape : "dddd-dd-ddTdd:dd:dd".toList = 'd' :: 'd' :: 'd' :: 'd' :: "-dd-ddTdd:dd:dd".toList := rfl
  by_cases hneg : (civilOf millis).year < 0
  · refine iff_of_false ?_ (by omega)
    rw [isIsoDate, htext, yearText, if_pos hneg, hshape, List.cons_append,
      fitsShape_none (fun _ ↦ by decide) (fun h ↦ absurd rfl h)]
    exact Bool.false_ne_true
  rw [yearText_of_nonneg (by omega)] at htext
  by_cases hlarge : 9999 < (civilOf millis).year
  · refine iff_of_false ?_ (by omega)
    obtain ⟨hne, hdigit, hvalue⟩ := pad_digits 4 (civilOf millis).year.natAbs
    have hlong : 5 ≤ (pad 4 (civilOf millis).year.natAbs).length := by
      by_contra hshort
      have hlt := natOfDigits_lt hdigit
      rw [hvalue] at hlt
      have hpow : 10 ^ (pad 4 (civilOf millis).year.natAbs).length ≤ 10 ^ 4 :=
        Nat.pow_le_pow_right (by norm_num) (by omega)
      omega
    obtain ⟨y1, y2, y3, y4, y5, rest, hpad⟩ : ∃ y1 y2 y3 y4 y5 rest,
        pad 4 (civilOf millis).year.natAbs = y1 :: y2 :: y3 :: y4 :: y5 :: rest := by
      generalize pad 4 (civilOf millis).year.natAbs = digits at hlong ⊢
      rcases digits with _ | ⟨y1, _ | ⟨y2, _ | ⟨y3, _ | ⟨y4, _ | ⟨y5, rest⟩⟩⟩⟩⟩ <;>
        first | exact ⟨_, _, _, _, _, _, rfl⟩ | exact absurd hlong (by simp)
    rw [hpad] at htext hdigit
    simp only [List.forall_mem_cons] at hdigit
    obtain ⟨hy1, hy2, hy3, hy4, hy5, -⟩ := hdigit
    have hfifth : y5 ≠ '-' := by
      rintro rfl
      exact absurd hy5 (by decide)
    have hnone : fitsShape "dddd-dd-ddTdd:dd:dd".toList (mongoFormatDatetime millis) = none := by
      rw [htext, hshape]
      change fitsShape _ (y1 :: y2 :: y3 :: y4 :: y5 :: (rest ++ c.text)) = none
      rw [fitsShape_digit hy1, fitsShape_digit hy2, fitsShape_digit hy3, fitsShape_digit hy4]
      exact fitsShape_none (fun h ↦ absurd h (by decide)) fun _ ↦ hfifth
    rw [isIsoDate, hnone]
    exact Bool.false_ne_true
  · refine iff_of_true ?_ (by omega)
    obtain ⟨y1, y2, y3, y4, hy, hyd, -⟩ := pad_four (n := (civilOf millis).year.natAbs) (by omega)
    simp only [List.forall_mem_cons] at hyd
    have hfits : fitsShape "dddd-dd-ddTdd:dd:dd".toList (mongoFormatDatetime millis) =
        some ['.', c.f1, c.f2, c.f3, 'Z'] := by
      rw [htext, hy, hshape]
      change fitsShape _ (y1 :: y2 :: y3 :: y4 :: c.text) = _
      rw [fitsShape_digit hyd.1, fitsShape_digit hyd.2.1, fitsShape_digit hyd.2.2.1, fitsShape_digit hyd.2.2.2.1,
        fitsShape_tail hc]
    have hfraction := hc.digits
    simp only [List.forall_mem_cons] at hfraction
    obtain ⟨-, -, -, -, -, -, -, -, -, -, hf1, hf2, hf3, -⟩ := hfraction
    unfold isIsoDate
    rw [hfits]
    simp [hf1, hf2, hf3]

/-! ## Dates -/

/-- libbson reads a date of Extended JSON as the instant of its text. -/
def LibBson.ReadsDates (lib : LibBson) : Prop :=
  ∀ text millis, isoMillis text = some millis → lib.value (extended "\"$date\": " text) = some (.dateTime millis)

/-- How a date of `int64_t` milliseconds is shown, and written back. -/
structure FormatsExactly (lib : LibBson) (millis : ℤ) : Prop where
  /-- No value on the way overflows its type. -/
  checked : civilOfChecked millis = some (civilOf millis)
  valid : (civilOf millis).Valid
  /-- The text and its NUL fit the buffer of 32 bytes that is always enough. -/
  fits : (mongoFormatDatetime millis).length + 1 ≤ 32
  denotes : anyYearMillis (mongoFormatDatetime millis) = some millis
  injective : ∀ other, mongoFormatDatetime other = mongoFormatDatetime millis → other = millis
  isIso : isIsoDate (mongoFormatDatetime millis) = true ↔ 0 ≤ (civilOf millis).year ∧ (civilOf millis).year ≤ 9999
  writesBack : 0 ≤ (civilOf millis).year → (civilOf millis).year ≤ 9999 → ∀ type ∈ [DbcType.date, .timestamp],
    ∀ col, ∃ value, renderValue col type (some (mongoFormatDatetime millis)) = .ok value ∧
      lib.value value = some (.dateTime millis)

theorem mongoFormatDatetime_exact {lib : LibBson} (hlib : lib.ReadsDates) {millis : ℤ}
    (h : -2 ^ 63 ≤ millis ∧ millis ≤ 2 ^ 63 - 1) : FormatsExactly lib millis := by
  obtain ⟨hchecked, hyear⟩ := civilOfChecked_eq h
  have hlength := length_mongoFormatDatetime hyear
  have hdenotes := anyYearMillis_mongoFormatDatetime millis
  refine ⟨hchecked, (civilOf_spec millis).1, by omega, hdenotes, fun other hother ↦ ?_,
    isIsoDate_mongoFormatDatetime millis, fun hlow hhigh type htype col ↦ ?_⟩
  · have hsame := anyYearMillis_mongoFormatDatetime other
    rw [hother, hdenotes] at hsame
    exact (Option.some.inj hsame).symm
  · have hiso := (isIsoDate_mongoFormatDatetime millis).2 ⟨hlow, hhigh⟩
    have hrender : renderValue col type (some (mongoFormatDatetime millis)) =
        .ok (extended "\"$date\": " (mongoFormatDatetime millis)) := by
      simp only [List.mem_cons, List.not_mem_nil, or_false] at htype
      rcases htype with rfl | rfl
      · simp only [renderValue, if_pos hiso]
      · simp only [renderValue, if_pos hiso]
    exact ⟨_, hrender, hlib _ _ (isoMillis_mongoFormatDatetime hlow hhigh)⟩

/-- A libbson that knows dates alone. -/
def dateLib : LibBson where
  relaxedJson _ := none
  value text :=
    match Json.read text with
    | some (.obj [(key, .str date)]) => if key = "$date".toList then (isoMillis date).map .dateTime else none
    | _ => none

theorem dateLib_readsDates : dateLib.ReadsDates := by
  intro text millis htext
  have hread : Json.read (extended "\"$date\": " text) = some (extendedOf "$date" text) :=
    Json.read_of_spells (spells_extended (by decide) text).toPadded
  simp only [dateLib, hread, extendedOf]
  rw [if_pos trivial, htext]
  rfl

theorem mongoFormatDatetime_epochEve : FormatsExactly dateLib (-1) :=
  mongoFormatDatetime_exact dateLib_readsDates (by norm_num)

example : mongoFormatDatetime (-1) = "1969-12-31T23:59:59.999Z".toList := by decide +kernel

end Squaero.Mongo
