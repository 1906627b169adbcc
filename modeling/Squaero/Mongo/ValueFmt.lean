import Squaero.Lib.Calendar

/-!
# Dates of the MongoDB driver

`drivers/mongodb/src/utils/value_fmt.c`: the instant of a BSON date as an ISO 8601 text in UTC, computed from the
days since 1 March of the year 0. The text stands for the instant again.
-/

namespace Squaero.Mongo

open Squaero.Lib Squaero.Lib.Calendar

/-- Quotient and remainder of C, the remainder then moved up from below nought. -/
def floorSplit (n d : ℤ) : ℤ × ℤ :=
  let q := n.tdiv d
  let r := n.tmod d
  if r < 0 then (q - 1, r + d) else (q, r)

/-- The day of the calendar of a number of days since 1970: year, month and day. -/
def civilFromDays (days : ℤ) : ℤ × ℤ × ℤ :=
  let z := days + 719468
  let era := (if 0 ≤ z then z else z - 146096).tdiv 146097
  let doe := z - era * 146097
  let yoe := (doe - doe / 1460 + doe / 36524 - doe / 146096) / 365
  let y := yoe + era * 400
  let doy := doe - (365 * yoe + yoe / 4 - yoe / 100)
  let mp := (5 * doy + 2) / 153
  let d := doy - (153 * mp + 2) / 5 + 1
  let m := if mp < 10 then mp + 3 else mp - 9
  (if m ≤ 2 then y + 1 else y, m, d)

/-- The fields that are printed. -/
def civilOf (millis : ℤ) : DateTime :=
  let (secs, ms) := floorSplit millis 1000
  let (days, tod) := floorSplit secs 86400
  let (y, m, d) := civilFromDays days
  { year := y
    month := m.toNat
    day := d.toNat
    hour := (tod / 3600).toNat
    minute := (tod % 3600 / 60).toNat
    second := (tod % 60).toNat
    milli := ms.toNat }

/-- `%04lld` -/
def yearText (y : ℤ) : Text := if y < 0 then '-' :: pad 3 y.natAbs else pad 4 y.natAbs

/-- `mongo_format_datetime` -/
def mongoFormatDatetime (millis : ℤ) : Text :=
  let t := civilOf millis
  yearText t.year ++ '-' :: (pad 2 t.month ++ '-' :: (pad 2 t.day ++ 'T' :: (pad 2 t.hour ++ ':' ::
    (pad 2 t.minute ++ ':' :: (pad 2 t.second ++ '.' :: (pad 3 t.milli ++ ['Z']))))))

/-! ## The calendar -/

theorem floorSplit_eq (n : ℤ) {d : ℤ} (hd : 0 < d) : floorSplit n d = (n / d, n % d) := by
  have hsplit := Int.mul_tdiv_add_tmod n d
  have hlow := Int.lt_tmod_of_pos n hd
  have hhigh := Int.tmod_lt_of_pos n hd
  unfold floorSplit
  dsimp only
  split_ifs with hneg
  · obtain ⟨hdiv, hmod⟩ := (Int.ediv_emod_unique hd (a := n) (q := n.tdiv d - 1) (r := n.tmod d + d)).mpr
      ⟨by rw [mul_sub, mul_one]; omega, by omega, by omega⟩
    rw [hdiv, hmod]
  · obtain ⟨hdiv, hmod⟩ := (Int.ediv_emod_unique hd (a := n) (q := n.tdiv d) (r := n.tmod d)).mpr
      ⟨by omega, by omega, by omega⟩
    rw [hdiv, hmod]

theorem era_eq (z : ℤ) : (if 0 ≤ z then z else z - 146096).tdiv 146097 = z / 146097 := by
  have hsplit := Int.mul_tdiv_add_tmod (if 0 ≤ z then z else z - 146096) 146097
  have hlow := Int.lt_tmod_of_pos (if 0 ≤ z then z else z - 146096) (b := 146097) (by norm_num)
  have hhigh := Int.tmod_lt_of_pos (if 0 ≤ z then z else z - 146096) (b := 146097) (by norm_num)
  split_ifs at hsplit hlow hhigh ⊢ with hz
  · have hnonneg := Int.tmod_nonneg 146097 hz
    omega
  · have hnonpos : (z - 146096).tmod 146097 ≤ 0 := by
      have hneg := Int.tmod_nonneg 146097 (a := -(z - 146096)) (by omega)
      rw [Int.neg_tmod] at hneg
      omega
    omega

/-- The year of the era by the day of the era. -/
def yearOfEra (doe : ℤ) : ℤ := (doe - doe / 1460 + doe / 36524 - doe / 146096) / 365

/-- The days of the era before a year of it. -/
def daysBeforeEraYear (yoe : ℤ) : ℤ := 365 * yoe + yoe / 4 - yoe / 100

theorem yearOfEra_mono {doe doe' : ℤ} (h : doe ≤ doe') : yearOfEra doe ≤ yearOfEra doe' := by
  unfold yearOfEra
  apply Int.ediv_le_ediv (by norm_num)
  omega

/-- On the last day of a year of the era and on the first of the next one. -/
theorem yearOfEra_turn : ∀ n < 400, yearOfEra (daysBeforeEraYear (n + 1 : ℕ) - 1) ≤ n ∧
    (n < 399 → ((n + 1 : ℕ) : ℤ) ≤ yearOfEra (daysBeforeEraYear (n + 1 : ℕ))) := by
  decide +kernel

/-- A day of the era is one of the year that it is given. -/
theorem day_of_yearOfEra {doe : ℤ} (h0 : 0 ≤ doe) (h1 : doe ≤ 146096) :
    0 ≤ yearOfEra doe ∧ yearOfEra doe ≤ 399 ∧ daysBeforeEraYear (yearOfEra doe) ≤ doe ∧
      doe ≤ daysBeforeEraYear (yearOfEra doe) + 365 ∧
      (yearOfEra doe < 399 → doe < daysBeforeEraYear (yearOfEra doe + 1)) := by
  have hlow : 0 ≤ yearOfEra doe := by
    unfold yearOfEra
    omega
  have hhigh : yearOfEra doe ≤ 399 := by
    unfold yearOfEra
    omega
  obtain ⟨n, hn⟩ := Int.eq_ofNat_of_zero_le hlow
  have hstart : daysBeforeEraYear (yearOfEra doe) ≤ doe := by
    rw [hn]
    by_contra hlt
    push Not at hlt
    cases n with
    | zero =>
      unfold daysBeforeEraYear at hlt
      omega
    | succ n =>
      have hmono := yearOfEra_mono (by omega : doe ≤ daysBeforeEraYear (n + 1 : ℕ) - 1)
      have hturn := (yearOfEra_turn n (by omega)).1
      omega
  have hend : yearOfEra doe < 399 → doe < daysBeforeEraYear (yearOfEra doe + 1) := by
    intro hlast
    rw [hn] at hlast ⊢
    by_contra hge
    push Not at hge
    have hmono := yearOfEra_mono hge
    have hturn := (yearOfEra_turn n (by omega)).2 (by omega)
    push_cast at hturn
    omega
  refine ⟨hlow, hhigh, hstart, ?_, hend⟩
  unfold daysBeforeEraYear at *
  omega

theorem daysBeforeMonth_table (year : ℤ) :
    daysBeforeMonth year 1 = 0 ∧ daysBeforeMonth year 2 = 31 ∧
      ∀ m < 10, daysBeforeMonth year (m + 3) =
        (153 * m + 2) / 5 + (if IsLeap year then 60 else 59) := by
  refine ⟨rfl, rfl, fun m hm ↦ ?_⟩
  unfold daysBeforeMonth monthLength
  by_cases hleap : IsLeap year
  · simp only [hleap, if_true]
    interval_cases m <;> decide
  · simp only [hleap, if_false]
    interval_cases m <;> decide

/-- The first of January by the first of March before it. -/
theorem daysBeforeYear_era {yoe : ℤ} (hlow : 0 ≤ yoe) (hhigh : yoe ≤ 399) (era : ℤ) :
    daysBeforeYear (yoe + era * 400) + (if IsLeap (yoe + era * 400) then 60 else 59) =
        era * 146097 + daysBeforeEraYear yoe + 60 ∧
      daysBeforeYear (yoe + era * 400 + 1) = era * 146097 + daysBeforeEraYear yoe + 366 := by
  unfold daysBeforeYear daysBeforeEraYear IsLeap
  constructor
  · split_ifs <;> omega
  · omega

/-- The last day of a year of 366 days from March on is in a leap year. -/
theorem isLeap_of_last {doe : ℤ} (h0 : 0 ≤ doe) (h1 : doe ≤ 146096)
    (hlast : doe - daysBeforeEraYear (yearOfEra doe) = 365) (era : ℤ) :
    IsLeap (yearOfEra doe + era * 400 + 1) := by
  obtain ⟨hlow, hhigh, -, -, hend⟩ := day_of_yearOfEra h0 h1
  unfold daysBeforeEraYear at *
  generalize yearOfEra doe = yoe at *
  have hyear : (yoe + 1) % 4 = 0 ∧ ((yoe + 1) % 100 ≠ 0 ∨ yoe = 399) := by
    obtain hbefore | hlastYear : yoe < 399 ∨ yoe = 399 := by omega
    · have hnext := hend hbefore
      by_cases hhundred : (yoe + 1) % 100 = 0
      · have hcentury : (yoe + 1) / 100 = yoe / 100 + 1 := by omega
        have hfour : (yoe + 1) / 4 = yoe / 4 + 1 := by omega
        omega
      · have hcentury : (yoe + 1) / 100 = yoe / 100 := by omega
        exact ⟨by omega, .inl hhundred⟩
    · omega
  unfold IsLeap
  omega

/-- The year, month and day are those of the calendar. -/
theorem civilFromDays_spec (days : ℤ) {y m d : ℤ} (h : civilFromDays days = (y, m, d)) :
    (1 ≤ m ∧ m ≤ 12) ∧ (1 ≤ d ∧ d ≤ monthLength y m.toNat) ∧
      daysBeforeYear y + daysBeforeMonth y m.toNat + d - 1 - 719528 = days := by
  have hera := Int.mul_ediv_add_emod (days + 719468) 146097
  have h0 := Int.emod_nonneg (days + 719468) (b := 146097) (by norm_num)
  have h1 := Int.emod_lt_of_pos (days + 719468) (b := 146097) (by norm_num)
  have hdoe : days + 719468 - (days + 719468) / 146097 * 146097 = (days + 719468) % 146097 := by omega
  unfold civilFromDays at h
  dsimp only at h
  rw [era_eq, hdoe] at h
  generalize (days + 719468) / 146097 = era at h hera
  generalize (days + 719468) % 146097 = doe at h hera h0 h1
  obtain ⟨hlow, hhigh, hstart, hyear, -⟩ := day_of_yearOfEra h0 (by omega)
  obtain ⟨hmarch, hjanuary⟩ := daysBeforeYear_era hlow hhigh era
  have hleap := isLeap_of_last h0 (by omega : doe ≤ 146096)
  have hdoy : ∃ doy, doy = doe - daysBeforeEraYear (yearOfEra doe) := ⟨_, rfl⟩
  obtain ⟨doy, hdoy⟩ := hdoy
  have hyoe : (doe - doe / 1460 + doe / 36524 - doe / 146096) / 365 = yearOfEra doe := rfl
  have hsub : doe - (365 * yearOfEra doe + yearOfEra doe / 4 - yearOfEra doe / 100) = doy := hdoy.symm
  rw [hyoe, hsub] at h
  rw [← hdoy] at hleap
  have hbounds : 0 ≤ doy ∧ doy ≤ 365 := by omega
  have hmp : 0 ≤ (5 * doy + 2) / 153 ∧ (5 * doy + 2) / 153 ≤ 11 := by omega
  obtain ⟨mp, hmpEq⟩ := Int.eq_ofNat_of_zero_le hmp.1
  rw [hmpEq] at h hmp
  obtain hspring | hwinter : mp < 10 ∨ mp = 10 ∨ mp = 11 := by omega
  · -- March to December
    rw [if_pos (by omega : (mp : ℤ) < 10), if_neg (by omega)] at h
    obtain ⟨rfl, rfl, rfl⟩ := h
    have hmonth : ((mp : ℤ) + 3).toNat = mp + 3 := by omega
    have htable := (daysBeforeMonth_table (yearOfEra doe + era * 400)).2.2 mp hspring
    rw [hmonth, htable]
    refine ⟨by omega, ⟨by omega, ?_⟩, ?_⟩
    · have hlength : (monthLength (yearOfEra doe + era * 400) (mp + 3) : ℤ) =
          (153 * (mp + 1) + 2) / 5 - (153 * mp + 2) / 5 := by
        unfold monthLength
        interval_cases mp <;> rfl
      rw [hlength]
      omega
    · push_cast
      split_ifs at hmarch ⊢ <;> omega
  · -- January and February of the next year
    have hlate : ¬ (mp : ℤ) < 10 := by omega
    rw [if_neg hlate, if_pos (by omega)] at h
    obtain ⟨rfl, rfl, rfl⟩ := h
    rcases hwinter with rfl | rfl
    · have htable := (daysBeforeMonth_table (yearOfEra doe + era * 400 + 1)).1
      have hlength : monthLength (yearOfEra doe + era * 400 + 1) 1 = 31 := rfl
      refine ⟨by norm_num, ⟨by omega, ?_⟩, ?_⟩
      · change _ ≤ ((monthLength (yearOfEra doe + era * 400 + 1) 1 : ℕ) : ℤ)
        rw [hlength]
        omega
      · change _ + ((daysBeforeMonth (yearOfEra doe + era * 400 + 1) 1 : ℕ) : ℤ) + _ - 1 - 719528 = days
        rw [htable]
        omega
    · have htable := (daysBeforeMonth_table (yearOfEra doe + era * 400 + 1)).2.1
      have hlength : doy - 337 + 1 ≤ monthLength (yearOfEra doe + era * 400 + 1) 2 := by
        rw [monthLength, if_pos rfl]
        by_cases hlast : doy = 365
        · rw [if_pos (hleap hlast era)]
          omega
        · split_ifs <;> push_cast <;> omega
      refine ⟨by norm_num, ⟨by omega, ?_⟩, ?_⟩
      · change _ ≤ ((monthLength (yearOfEra doe + era * 400 + 1) 2 : ℕ) : ℤ)
        omega
      · change _ + ((daysBeforeMonth (yearOfEra doe + era * 400 + 1) 2 : ℕ) : ℤ) + _ - 1 - 719528 = days
        rw [htable]
        omega

/-- The fields that are printed are a time of the calendar, and its instant is the one printed. -/
theorem civilOf_spec (millis : ℤ) : (civilOf millis).Valid ∧ (civilOf millis).millis = millis := by
  unfold civilOf
  rw [floorSplit_eq millis (by norm_num)]
  dsimp only
  rw [floorSplit_eq (millis / 1000) (by norm_num)]
  dsimp only
  generalize hcivil : civilFromDays (millis / 1000 / 86400) = civil
  obtain ⟨y, m, d⟩ := civil
  obtain ⟨hm, hd, hnumber⟩ := civilFromDays_spec _ hcivil
  constructor
  · refine ⟨⟨?_, ?_⟩, ⟨?_, ?_⟩, ?_, ?_, ?_, ?_⟩ <;> dsimp only <;> omega
  · unfold DateTime.millis DateTime.dayNumber
    dsimp only
    omega

theorem yearText_of_nonneg {y : ℤ} (hlow : 0 ≤ y) : yearText y = pad 4 y.natAbs := by
  rw [yearText, if_neg (by omega)]

/-- The digits behind the year. -/
structure TailDigits where
  (m1 m2 d1 d2 h1 h2 n1 n2 s1 s2 f1 f2 f3 : Char)

def TailDigits.text (c : TailDigits) : Text :=
  ['-', c.m1, c.m2, '-', c.d1, c.d2, 'T', c.h1, c.h2, ':', c.n1, c.n2, ':', c.s1, c.s2, '.', c.f1, c.f2, c.f3, 'Z']

structure TailDigits.Writes (c : TailDigits) (t : DateTime) : Prop where
  digits : ∀ x ∈ [c.m1, c.m2, c.d1, c.d2, c.h1, c.h2, c.n1, c.n2, c.s1, c.s2, c.f1, c.f2, c.f3], x.isDigit = true
  month : Json.natOfDigits [c.m1, c.m2] = t.month
  day : Json.natOfDigits [c.d1, c.d2] = t.day
  hour : Json.natOfDigits [c.h1, c.h2] = t.hour
  minute : Json.natOfDigits [c.n1, c.n2] = t.minute
  second : Json.natOfDigits [c.s1, c.s2] = t.second
  milli : Json.natOfDigits [c.f1, c.f2, c.f3] = t.milli

theorem exists_tailDigits (millis : ℤ) :
    ∃ c : TailDigits, c.Writes (civilOf millis) ∧
      mongoFormatDatetime millis = yearText (civilOf millis).year ++ c.text := by
  obtain ⟨hvalid, -⟩ := civilOf_spec millis
  have hdaysInMonth : monthLength (civilOf millis).year (civilOf millis).month ≤ 31 := by
    unfold monthLength
    split_ifs <;> norm_num
  have hmonth := hvalid.month
  have hday := hvalid.day
  have hhour := hvalid.hour
  have hminute := hvalid.minute
  have hsecond := hvalid.second
  obtain ⟨m1, m2, hm, hm1, hm2, hmv⟩ := pad_two (n := (civilOf millis).month) (by omega)
  obtain ⟨d1, d2, hd, hd1, hd2, hdv⟩ := pad_two (n := (civilOf millis).day) (by omega)
  obtain ⟨h1, h2, hh, hh1, hh2, hhv⟩ := pad_two (n := (civilOf millis).hour) (by omega)
  obtain ⟨n1, n2, hn, hn1, hn2, hnv⟩ := pad_two (n := (civilOf millis).minute) (by omega)
  obtain ⟨s1, s2, hs, hs1, hs2, hsv⟩ := pad_two (n := (civilOf millis).second) (by omega)
  obtain ⟨f1, f2, f3, hf, hfd, hfv⟩ := pad_three hvalid.milli
  refine ⟨⟨m1, m2, d1, d2, h1, h2, n1, n2, s1, s2, f1, f2, f3⟩, ⟨?_, hmv, hdv, hhv, hnv, hsv, hfv⟩, ?_⟩
  · simp only [List.forall_mem_cons] at hfd ⊢
    exact ⟨hm1, hm2, hd1, hd2, hh1, hh2, hn1, hn2, hs1, hs2, hfd⟩
  · unfold mongoFormatDatetime
    dsimp only
    rw [hm, hd, hh, hn, hs, hf]
    rfl

/-- The text of an instant of the years 0 to 9999 stands for it. -/
theorem isoMillis_mongoFormatDatetime {millis : ℤ} (hlow : 0 ≤ (civilOf millis).year)
    (hhigh : (civilOf millis).year ≤ 9999) : isoMillis (mongoFormatDatetime millis) = some millis := by
  obtain ⟨hvalid, hmillis⟩ := civilOf_spec millis
  obtain ⟨c, hc, htext⟩ := exists_tailDigits millis
  obtain ⟨y1, y2, y3, y4, hy, hyd, hyv⟩ := pad_four (n := (civilOf millis).year.natAbs) (by omega)
  have hyear : ((Json.natOfDigits [y1, y2, y3, y4] : ℕ) : ℤ) = (civilOf millis).year := by omega
  have hall : [y1, y2, y3, y4, c.m1, c.m2, c.d1, c.d2, c.h1, c.h2, c.n1, c.n2, c.s1, c.s2, c.f1, c.f2,
      c.f3].all Char.isDigit = true := by
    have hdigits := hc.digits
    simp only [List.forall_mem_cons] at hyd hdigits
    simp [hyd, hdigits]
  rw [htext, yearText_of_nonneg hlow, hy]
  simp only [TailDigits.text, List.cons_append, List.nil_append, isoMillis]
  rw [hyear, hc.month, hc.day, hc.hour, hc.minute, hc.second, hc.milli]
  exact (if_pos ⟨hall, hvalid⟩).trans (congrArg some hmillis)

end Squaero.Mongo
