import Mathlib.Algebra.Order.Round
import Mathlib.Data.Int.Log
import Mathlib.Data.Rat.Floor
import Mathlib.Tactic.Linarith
import Mathlib.Tactic.NormNum
import Mathlib.Tactic.Positivity
import Mathlib.Tactic.FieldSimp
import Mathlib.Algebra.Order.Field.Power
import Squaero.Lib.JsonPrint

/-!
# Double-precision numbers as text

A number of a double is a rational that rounding to 53 bits leaves as it is, and its text is the shortest decimal
that rounds to it. The text is read back as the number, since the shortest is looked for among those that do.
-/

namespace Squaero.Lib.Binary64

/-! ## Rounding -/

/-- The nearest whole number, of two the even one. -/
def roundEven (q : ℚ) : ℤ :=
  let rest := q - ⌊q⌋
  if rest < 1 / 2 then ⌊q⌋
  else if 1 / 2 < rest then ⌊q⌋ + 1
  else if ⌊q⌋ % 2 = 0 then ⌊q⌋
  else ⌊q⌋ + 1

theorem roundEven_intCast (n : ℤ) : roundEven n = n := by
  simp [roundEven]

theorem roundEven_le {q : ℚ} {n : ℤ} (h : q < n) : roundEven q ≤ n := by
  have hfloor : ⌊q⌋ < n := Int.floor_lt.mpr h
  unfold roundEven
  dsimp only
  split_ifs <;> omega

theorem roundEven_nonneg {q : ℚ} (h : 0 ≤ q) : 0 ≤ roundEven q := by
  have hfloor : 0 ≤ ⌊q⌋ := Int.floor_nonneg.mpr h
  unfold roundEven
  dsimp only
  split_ifs <;> omega

/-- The exponent of the last of 53 bits. -/
def lastPlace (q : ℚ) : ℤ := max (Int.log 2 q - 52) (-1074)

/-- The double that a number that is not negative is rounded to, if there is one so large. -/
def toDouble (q : ℚ) : Option ℚ :=
  let x := roundEven (q / 2 ^ lastPlace q) * (2 : ℚ) ^ lastPlace q
  if x < 2 ^ 1024 then some x else none

theorem lt_of_lastPlace {q : ℚ} (e : ℤ) (h : lastPlace q ≤ e) : q < 2 ^ (e + 53) := by
  have hlog : Int.log 2 q + 1 ≤ e + 53 := by
    have hle := (le_max_left _ _).trans h
    omega
  have hpow := Int.lt_zpow_succ_log_self (b := 2) (by norm_num) q
  exact hpow.trans_le (zpow_le_zpow_right₀ (by norm_num) (by exact_mod_cast hlog))

/-- At most 2^53 last places are a whole number of their own last places. -/
theorem exists_lastPlaces {m e : ℤ} (hm : 0 ≤ m) (hle : m ≤ 2 ^ 53) (he : -1074 ≤ e) :
    ∃ m' : ℤ, (m : ℚ) * 2 ^ e / 2 ^ lastPlace ((m : ℚ) * 2 ^ e) = m' := by
  have htwo : (2 : ℚ) ≠ 0 := by norm_num
  have hpow : (0 : ℚ) < 2 ^ e := by positivity
  obtain rfl | hpos := hm.eq_or_lt
  · exact ⟨0, by simp⟩
  have hx : (0 : ℚ) < m * 2 ^ e := mul_pos (by exact_mod_cast hpos) hpow
  obtain hlt | rfl := hle.lt_or_eq
  · -- as many places, or more
    have hsmall : (m : ℚ) * 2 ^ e < ((2 : ℕ) : ℚ) ^ (e + 53) := by
      have hcast : (m : ℚ) < 2 ^ 53 := by exact_mod_cast hlt
      calc
        (m : ℚ) * 2 ^ e < 2 ^ 53 * 2 ^ e := mul_lt_mul_of_pos_right hcast hpow
        _ = ((2 : ℕ) : ℚ) ^ (e + 53) := by
          push_cast
          rw [zpow_add₀ htwo, mul_comm]
          norm_cast
    have hlog := (Int.lt_zpow_iff_log_lt (by norm_num) hx).mp hsmall
    have hplace : lastPlace (m * 2 ^ e) ≤ e := max_le (by omega) he
    obtain ⟨k, hk⟩ := Int.eq_ofNat_of_zero_le (sub_nonneg.mpr hplace)
    refine ⟨m * 2 ^ k, ?_⟩
    rw [mul_div_assoc, ← zpow_sub₀ htwo, hk]
    push_cast
    rfl
  · -- one place fewer, and an even number of them
    have hvalue : ((2 ^ 53 : ℤ) : ℚ) * 2 ^ e = ((2 : ℕ) : ℚ) ^ (e + 53) := by
      push_cast
      rw [zpow_add₀ htwo, mul_comm]
      norm_cast
    have hplace : lastPlace (((2 ^ 53 : ℤ) : ℚ) * 2 ^ e) = e + 1 := by
      rw [hvalue, lastPlace, Int.log_zpow (by norm_num)]
      omega
    refine ⟨2 ^ 52, ?_⟩
    rw [hplace, zpow_add₀ htwo, zpow_one]
    field_simp
    norm_num

theorem toDouble_of_toDouble {q x : ℚ} (hq : 0 ≤ q) (h : toDouble q = some x) : 0 ≤ x ∧ toDouble x = some x := by
  unfold toDouble at h
  dsimp only at h
  split_ifs at h with hrange
  have hpow : (0 : ℚ) < 2 ^ lastPlace q := by positivity
  have hscaled : q / 2 ^ lastPlace q < ((2 ^ 53 : ℤ) : ℚ) := by
    rw [div_lt_iff₀ hpow]
    have hlt := lt_of_lastPlace (lastPlace q) le_rfl
    rw [zpow_add₀ (by norm_num), mul_comm] at hlt
    exact_mod_cast hlt
  have hle := roundEven_le hscaled
  have hnonneg := roundEven_nonneg (div_nonneg hq hpow.le)
  obtain ⟨m', hm'⟩ := exists_lastPlaces (e := lastPlace q) hnonneg hle (le_max_right _ _)
  rw [Option.some.inj h] at hm' hrange
  refine ⟨?_, ?_⟩
  · rw [← Option.some.inj h]
    exact mul_nonneg (by exact_mod_cast hnonneg) hpow.le
  · have hback : (m' : ℚ) * 2 ^ lastPlace x = x := by
      rw [← hm', div_mul_cancel₀]
      positivity
    unfold toDouble
    dsimp only
    rw [hm', roundEven_intCast, hback, if_pos hrange]

/-- What is less than half of the smallest double is rounded to nought. -/
theorem toDouble_of_small {q : ℚ} (hq : 0 < q) (h : q < 2 ^ (-1075 : ℤ)) : toDouble q = some 0 := by
  have hlog : Int.log 2 q < -1075 := by
    refine (Int.lt_zpow_iff_log_lt (by norm_num) hq).mp ?_
    exact_mod_cast h
  have hplace : lastPlace q = -1074 := max_eq_right (by omega)
  have hpow : (0 : ℚ) < 2 ^ (-1074 : ℤ) := by positivity
  have hhalf : q / 2 ^ (-1074 : ℤ) < 1 / 2 := by
    rw [div_lt_iff₀ hpow]
    calc
      q < 2 ^ (-1075 : ℤ) := h
      _ = 1 / 2 * 2 ^ (-1074 : ℤ) := by
        have hsplit : (-1075 : ℤ) = -1 + -1074 := by norm_num
        rw [hsplit, zpow_add₀ (by norm_num), zpow_neg_one, one_div]
  have hfloor : ⌊q / (2 : ℚ) ^ (-1074 : ℤ)⌋ = 0 := by
    rw [Int.floor_eq_zero_iff]
    exact ⟨by positivity, hhalf.trans (by norm_num)⟩
  have hround : roundEven (q / 2 ^ (-1074 : ℤ)) = 0 := by
    unfold roundEven
    dsimp only
    rw [hfloor, Int.cast_zero, sub_zero, if_pos hhalf]
  unfold toDouble
  dsimp only
  rw [hplace, hround, Int.cast_zero, zero_mul, if_pos (by positivity)]

/-- The size of a double. -/
structure Magnitude where
  value : ℚ
  nonneg : 0 ≤ value
  isDouble : toDouble value = some value

def Magnitude.zero : Magnitude where
  value := 0
  nonneg := le_rfl
  isDouble := by
    have hround := roundEven_intCast 0
    rw [Int.cast_zero] at hround
    simp [toDouble, hround]

/-- A number that is not negative, rounded, unless it is too large. -/
def Magnitude.round (q : ℚ) (hq : 0 ≤ q) : Option Magnitude :=
  match h : toDouble q with
  | none => none
  | some x => some ⟨x, (toDouble_of_toDouble hq h).1, (toDouble_of_toDouble hq h).2⟩

theorem Magnitude.round_eq {m : Magnitude} {q : ℚ} (hq : 0 ≤ q) (h : toDouble q = some m.value) :
    Magnitude.round q hq = some m := by
  obtain ⟨value, nonneg, isDouble⟩ := m
  unfold Magnitude.round
  split
  next hnone =>
    rw [hnone] at h
    cases h
  next x hsome =>
    rw [hsome] at h
    cases h
    rfl

/-! ## Shortest decimals -/

/-- `s * 10 ^ e` is read as `x`. -/
def reads (x : ℚ) (s : ℕ) (e : ℤ) : Bool := toDouble (s * 10 ^ e) = some x

/-- The power of ten behind the last number of `k` digits has `k` digits with the next exponent. -/
def carry (k s : ℕ) (e : ℤ) : ℕ × ℤ := if s = 10 ^ k then (10 ^ (k - 1), e + 1) else (s, e)

/-- The whole numbers next to `q`, the nearer one first. -/
def neighbours (q : ℚ) : ℕ × ℕ :=
  let low := ⌊q⌋₊
  if q - low < 1 / 2 ∨ q - low = 1 / 2 ∧ low % 2 = 0 then (low, low + 1) else (low + 1, low)

theorem neighbours_natCast (n : ℕ) : neighbours n = (n, n + 1) := by
  unfold neighbours
  simp

/-- A decimal of `k` digits that is read as `x`, of two the nearer one. -/
def pick (x : ℚ) (k : ℕ) : Option (ℕ × ℤ) :=
  let e := Int.log 10 x + 1 - k
  let near := neighbours (x / 10 ^ e)
  if reads x near.1 e then some (carry k near.1 e)
  else if reads x near.2 e then some (carry k near.2 e)
  else none

theorem carry_value {k s : ℕ} (hk : 1 ≤ k) (e : ℤ) : ((carry k s e).1 : ℚ) * 10 ^ (carry k s e).2 = s * 10 ^ e := by
  unfold carry
  split_ifs with hpower
  · obtain ⟨k, rfl⟩ := Nat.exists_eq_add_of_le' hk
    rw [hpower, zpow_add₀ (by norm_num), zpow_one, Nat.add_sub_cancel]
    push_cast
    ring
  · rfl

theorem reads_of_pick {x : ℚ} {k : ℕ} {d : ℕ × ℤ} (hk : 1 ≤ k) (h : pick x k = some d) :
    reads x d.1 d.2 = true := by
  have hcarry {s : ℕ} {e : ℤ} (hread : reads x s e = true) : reads x (carry k s e).1 (carry k s e).2 = true := by
    unfold reads
    rw [carry_value hk]
    exact hread
  unfold pick at h
  dsimp only at h
  split_ifs at h with hfirst hsecond
  · exact Option.some.inj h ▸ hcarry hfirst
  · exact Option.some.inj h ▸ hcarry hsecond

/-- A double has few enough digits behind its point. -/
theorem exists_scaled {x : ℚ} (hx : 0 ≤ x) (hdouble : toDouble x = some x) {j : ℕ} (hj : 1074 ≤ j) :
    ∃ n : ℕ, x * 10 ^ j = n := by
  unfold toDouble at hdouble
  dsimp only at hdouble
  split_ifs at hdouble
  have hround := roundEven_nonneg (div_nonneg hx (by positivity : (0 : ℚ) ≤ 2 ^ lastPlace x))
  obtain ⟨m, hm⟩ := Int.eq_ofNat_of_zero_le hround
  have hvalue := Option.some.inj hdouble
  have hplace : -1074 ≤ lastPlace x := le_max_right _ _
  obtain ⟨i, hi⟩ := Int.eq_ofNat_of_zero_le (by omega : 0 ≤ lastPlace x + j)
  refine ⟨m * (2 ^ i * 5 ^ j), ?_⟩
  have hten : (10 : ℚ) ^ j = 2 ^ (j : ℤ) * 5 ^ j := by
    rw [zpow_natCast, ← mul_pow]
    norm_num
  rw [← hvalue, hm, hten, mul_assoc, ← mul_assoc (2 ^ lastPlace x), ← zpow_add₀ (by norm_num), hi]
  push_cast
  rfl

theorem exists_pick {x : ℚ} (hx : 0 < x) (hdouble : toDouble x = some x) : ∃ k, (pick x (k + 1)).isSome = true := by
  refine ⟨(Int.log 10 x + 1074).toNat, ?_⟩
  have hlarge : Int.log 10 x + 1074 ≤ ((Int.log 10 x + 1074).toNat : ℤ) := Int.self_le_toNat _
  generalize (Int.log 10 x + 1074).toNat = k at hlarge
  obtain ⟨j, hj⟩ := Int.eq_ofNat_of_zero_le (by omega : 0 ≤ -(Int.log 10 x + 1 - ((k + 1 : ℕ) : ℤ)))
  have he : Int.log 10 x + 1 - ((k + 1 : ℕ) : ℤ) = -(j : ℤ) := by omega
  obtain ⟨n, hn⟩ := exists_scaled hx.le hdouble (j := j) (by omega)
  have hscaled : x / 10 ^ (-(j : ℤ)) = n := by
    rw [zpow_neg, zpow_natCast, div_inv_eq_mul, hn]
  have hreads : reads x n (-(j : ℤ)) = true := by
    have hback : (n : ℚ) * 10 ^ (-(j : ℤ)) = x := by
      rw [← hscaled, div_mul_cancel₀]
      positivity
    unfold reads
    rw [hback]
    exact decide_eq_true hdouble
  unfold pick
  simp only [he, hscaled, neighbours_natCast, hreads, if_true, Option.isSome_some]

/-- The digits and the exponent of the shortest decimal that is read as the number. -/
def Magnitude.shortest (m : Magnitude) (h : 0 < m.value) : ℕ × ℤ :=
  (pick m.value (Nat.find (exists_pick h m.isDouble) + 1)).get (Nat.find_spec (exists_pick h m.isDouble))

theorem Magnitude.reads_shortest (m : Magnitude) (h : 0 < m.value) :
    reads m.value (m.shortest h).1 (m.shortest h).2 = true :=
  reads_of_pick (Nat.le_add_left 1 _) (Option.some_get _).symm

end Squaero.Lib.Binary64
