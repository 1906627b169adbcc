import Squaero.Lib.Binary64

/-!
# Which numbers are doubles

What a number near a double is rounded to, and which whole numbers are doubles.
-/

namespace Squaero.Lib.Binary64

theorem floor_le_roundEven (q : ℚ) : ⌊q⌋ ≤ roundEven q := by
  unfold roundEven
  dsimp only
  split_ifs <;> omega

theorem abs_roundEven_sub_le (q : ℚ) : |(roundEven q : ℚ) - q| ≤ 1 / 2 := by
  have hfloor := Int.floor_le q
  have hlt := Int.lt_floor_add_one q
  unfold roundEven
  dsimp only
  rw [abs_le]
  split_ifs <;> push_cast <;> constructor <;> linarith

theorem roundEven_of_near {q : ℚ} {n : ℤ} (h : |q - n| < 1 / 2) : roundEven q = n := by
  rw [abs_lt] at h
  obtain hge | hlt := le_or_gt (n : ℚ) q
  · have hfloor : ⌊q⌋ = n := Int.floor_eq_iff.mpr ⟨hge, by linarith⟩
    unfold roundEven
    dsimp only
    rw [hfloor, if_pos (by linarith)]
  · have hfloor : ⌊q⌋ = n - 1 := by
      rw [Int.floor_eq_iff]
      push_cast
      exact ⟨by linarith, by linarith⟩
    unfold roundEven
    dsimp only
    rw [hfloor]
    push_cast
    rw [if_neg (by linarith), if_pos (by linarith)]
    omega

theorem le_of_lastPlace {q : ℚ} (hq : 0 < q) {e : ℤ} (hmin : -1074 < e) (h : e ≤ lastPlace q) : 2 ^ (e + 52) ≤ q := by
  have hlog : e + 52 ≤ Int.log 2 q := by
    unfold lastPlace at h
    omega
  calc
    (2 : ℚ) ^ (e + 52) ≤ 2 ^ Int.log 2 q := zpow_le_zpow_right₀ (by norm_num) hlog
    _ ≤ q := by exact_mod_cast Int.zpow_log_le_self (b := 2) (by norm_num) hq

/-- A double is a whole number of its last places, and of smaller ones, below 2^53 of the former. -/
theorem Magnitude.exists_places (m : Magnitude) :
    ∃ k : ℤ, m.value = k * 2 ^ lastPlace m.value ∧ k ≤ 2 ^ 53 - 1 := by
  have hdouble := m.isDouble
  unfold toDouble at hdouble
  dsimp only at hdouble
  split_ifs at hdouble
  have hvalue := Option.some.inj hdouble
  refine ⟨_, hvalue.symm, ?_⟩
  have hlt := lt_of_lastPlace (lastPlace m.value) le_rfl
  have hpow : (0 : ℚ) < 2 ^ lastPlace m.value := by positivity
  have hpower : (2 : ℚ) ^ (53 : ℤ) = ((2 ^ 53 : ℤ) : ℚ) := by norm_num
  rw [zpow_add₀ (by norm_num), mul_comm, hpower] at hlt
  nth_rewrite 1 [← hvalue] at hlt
  have hsmall : (roundEven (m.value / 2 ^ lastPlace m.value) : ℚ) < ((2 ^ 53 : ℤ) : ℚ) :=
    lt_of_mul_lt_mul_right hlt hpow.le
  have hint : roundEven (m.value / 2 ^ lastPlace m.value) < 2 ^ 53 := by exact_mod_cast hsmall
  omega

/-- What differs from a double by no more than seventeen digits can hide is rounded to it. -/
theorem Magnitude.toDouble_of_near (m : Magnitude) (hpos : 0 < m.value) {q : ℚ}
    (h : |q - m.value| ≤ m.value / (2 * 10 ^ 16)) : toDouble q = some m.value := by
  obtain ⟨k, hk, hmax⟩ := m.exists_places
  have habs := abs_le.mp h
  have hq : 0 < q := by
    have hsmall : m.value / (2 * 10 ^ 16) < m.value := div_lt_self hpos (by norm_num)
    linarith
  have hkmax : (k : ℚ) ≤ 2 ^ 53 - 1 := by exact_mod_cast hmax
  have hplace : lastPlace q ≤ lastPlace m.value := by
    by_contra hlt
    push Not at hlt
    have hmin : -1074 ≤ lastPlace m.value := le_max_right _ _
    have hlarge := le_of_lastPlace hq (e := lastPlace m.value + 1) (by omega) (by omega)
    have hpow : (0 : ℚ) < 2 ^ lastPlace m.value := by positivity
    have hexp : (2 : ℚ) ^ (lastPlace m.value + 1 + 52) = 2 ^ 53 * 2 ^ lastPlace m.value := by
      rw [add_assoc, zpow_add₀ (by norm_num), mul_comm]
      norm_num
    rw [hexp] at hlarge
    have hvalue : m.value ≤ (2 ^ 53 - 1) * 2 ^ lastPlace m.value := by
      calc
        m.value = k * 2 ^ lastPlace m.value := hk
        _ ≤ (2 ^ 53 - 1) * 2 ^ lastPlace m.value := mul_le_mul_of_nonneg_right hkmax hpow.le
    linarith
  have hpow : (0 : ℚ) < 2 ^ lastPlace q := by positivity
  -- the double is a whole number of the last places of `q`, and less than half a place away
  obtain ⟨j, hj⟩ := Int.eq_ofNat_of_zero_le (sub_nonneg.mpr hplace)
  have hwhole : m.value = ((k * 2 ^ j : ℤ) : ℚ) * 2 ^ lastPlace q := by
    have hsplit : lastPlace m.value = j + lastPlace q := by omega
    rw [hsplit, zpow_add₀ (by norm_num), ← mul_assoc, zpow_natCast] at hk
    rw [hk]
    push_cast
    rfl
  have hbelow : q < 2 ^ 53 * 2 ^ lastPlace q := by
    have hlt := lt_of_lastPlace (lastPlace q) le_rfl
    rw [zpow_add₀ (by norm_num), mul_comm] at hlt
    exact_mod_cast hlt
  have hnear : |q / 2 ^ lastPlace q - ((k * 2 ^ j : ℤ) : ℚ)| < 1 / 2 := by
    have hscaled : q / 2 ^ lastPlace q - ((k * 2 ^ j : ℤ) : ℚ) = (q - m.value) / 2 ^ lastPlace q := by
      rw [sub_div, hwhole, mul_div_cancel_right₀ _ hpow.ne']
    rw [hscaled, abs_div, abs_of_pos hpow, div_lt_iff₀ hpow]
    linarith
  unfold toDouble
  dsimp only
  rw [roundEven_of_near hnear, ← hwhole, if_pos]
  have hdouble := m.isDouble
  unfold toDouble at hdouble
  dsimp only at hdouble
  split_ifs at hdouble with hrange
  rwa [Option.some.inj hdouble] at hrange

theorem toDouble_mul_pow {n e : ℕ} (h : n ≤ 2 ^ 53) (he : e ≤ 970) :
    toDouble (n * 2 ^ e : ℚ) = some (n * 2 ^ e : ℚ) := by
  obtain ⟨k, hk⟩ := exists_lastPlaces (m := n) (e := e) (Int.natCast_nonneg n) (by exact_mod_cast h) (by omega)
  rw [zpow_natCast, Int.cast_natCast] at hk
  have hback : (k : ℚ) * 2 ^ lastPlace (n * 2 ^ e : ℚ) = n * 2 ^ e := by
    rw [← hk, div_mul_cancel₀]
    positivity
  have hrange : (n * 2 ^ e : ℚ) < 2 ^ 1024 := by
    calc
      (n * 2 ^ e : ℚ) ≤ 2 ^ 53 * 2 ^ 970 := by
        refine mul_le_mul ?_ (pow_le_pow_right₀ (by norm_num) he) (by positivity) (by positivity)
        exact_mod_cast h
      _ = 2 ^ 1023 := (pow_add 2 53 970).symm
      _ < 2 ^ 1024 := pow_lt_pow_right₀ (by norm_num) (by norm_num)
  unfold toDouble
  dsimp only
  rw [hk, roundEven_intCast, hback, if_pos hrange]

theorem toDouble_natCast {n : ℕ} (h : n ≤ 2 ^ 53) : toDouble (n : ℚ) = some (n : ℚ) := by
  simpa using toDouble_mul_pow h (Nat.zero_le 970)

/-- From 2^52 on all doubles are whole. -/
theorem Magnitude.exists_whole (m : Magnitude) (h : 2 ^ 52 ≤ m.value) : ∃ n : ℕ, m.value = n := by
  have hpos : 0 < m.value := lt_of_lt_of_le (by norm_num) h
  have hplace : 0 ≤ lastPlace m.value := by
    have hlog : (52 : ℤ) ≤ Int.log 2 m.value := by
      refine (Int.zpow_le_iff_le_log (by norm_num) hpos).mp ?_
      norm_num
      linarith
    unfold lastPlace
    omega
  obtain ⟨k, hk, -⟩ := m.exists_places
  obtain ⟨j, hj⟩ := Int.eq_ofNat_of_zero_le hplace
  have hwhole : m.value = ((k * 2 ^ j : ℤ) : ℚ) := by
    rw [hk, hj, zpow_natCast]
    push_cast
    rfl
  have hnonneg : 0 ≤ k * 2 ^ j := by
    rw [hwhole] at hpos
    exact_mod_cast hpos.le
  obtain ⟨n, hn⟩ := Int.eq_ofNat_of_zero_le hnonneg
  exact ⟨n, by rw [hwhole, hn, Int.cast_natCast]⟩

/-- What lies above a double is rounded to no less than it. -/
theorem Magnitude.le_toDouble (m : Magnitude) {q x : ℚ} (h : m.value ≤ q) (hx : toDouble q = some x) :
    m.value ≤ x := by
  obtain hzero | hpos := m.nonneg.eq_or_lt
  · rw [← hzero]
    exact (toDouble_of_toDouble (m.nonneg.trans h) hx).1
  have hq : 0 < q := hpos.trans_le h
  have hpow : (0 : ℚ) < 2 ^ lastPlace q := by positivity
  unfold toDouble at hx
  dsimp only at hx
  split_ifs at hx
  obtain ⟨k, hk, hmax⟩ := m.exists_places
  -- a whole number of last places below the quotient is below what it is rounded to
  have hbelow {n : ℤ} (hn : (n : ℚ) * 2 ^ lastPlace q ≤ q) : (n : ℚ) * 2 ^ lastPlace q ≤ x := by
    have hfloor : n ≤ ⌊q / 2 ^ lastPlace q⌋ := Int.le_floor.mpr ((le_div_iff₀ hpow).mpr hn)
    have hround : (n : ℚ) ≤ roundEven (q / 2 ^ lastPlace q) := by
      exact_mod_cast hfloor.trans (floor_le_roundEven _)
    rw [← Option.some.inj hx]
    exact mul_le_mul_of_nonneg_right hround hpow.le
  obtain hle | hlt := le_or_gt (lastPlace q) (lastPlace m.value)
  · obtain ⟨j, hj⟩ := Int.eq_ofNat_of_zero_le (sub_nonneg.mpr hle)
    have hwhole : m.value = ((k * 2 ^ j : ℤ) : ℚ) * 2 ^ lastPlace q := by
      have hsplit : lastPlace m.value = j + lastPlace q := by omega
      rw [hsplit, zpow_add₀ (by norm_num), ← mul_assoc, zpow_natCast] at hk
      rw [hk]
      push_cast
      rfl
    rw [hwhole] at h ⊢
    exact hbelow h
  · have hmin : -1074 ≤ lastPlace m.value := le_max_right _ _
    have hlarge := le_of_lastPlace hq (by omega : -1074 < lastPlace q) le_rfl
    have hsmall := lt_of_lastPlace (lastPlace q - 1) (by omega : lastPlace m.value ≤ lastPlace q - 1)
    have hexp : (2 : ℚ) ^ (lastPlace q + 52) = ((2 ^ 52 : ℤ) : ℚ) * 2 ^ lastPlace q := by
      rw [zpow_add₀ (by norm_num), mul_comm]
      norm_num
    have hsame : lastPlace q - 1 + 53 = lastPlace q + 52 := by omega
    rw [hexp] at hlarge
    rw [hsame, hexp] at hsmall
    exact hsmall.le.trans (hbelow hlarge)

/-- What lies below a double is rounded to no more than it. -/
theorem Magnitude.toDouble_le (m : Magnitude) {q x : ℚ} (hq : 0 < q) (h : q ≤ m.value) (hx : toDouble q = some x) :
    x ≤ m.value := by
  have hpow : (0 : ℚ) < 2 ^ lastPlace q := by positivity
  have hplace : lastPlace q ≤ lastPlace m.value := by
    have hlog := Int.log_mono_right (b := 2) hq h
    unfold lastPlace
    omega
  unfold toDouble at hx
  dsimp only at hx
  split_ifs at hx
  obtain ⟨k, hk, -⟩ := m.exists_places
  obtain ⟨j, hj⟩ := Int.eq_ofNat_of_zero_le (sub_nonneg.mpr hplace)
  have hwhole : m.value = ((k * 2 ^ j : ℤ) : ℚ) * 2 ^ lastPlace q := by
    have hsplit : lastPlace m.value = j + lastPlace q := by omega
    rw [hsplit, zpow_add₀ (by norm_num), ← mul_assoc, zpow_natCast] at hk
    rw [hk]
    push_cast
    rfl
  rw [hwhole] at h ⊢
  have hround : roundEven (q / 2 ^ lastPlace q) ≤ k * 2 ^ j := by
    obtain heq | hlt := ((div_le_iff₀ hpow).mpr h).eq_or_lt
    · rw [heq, roundEven_intCast]
    · exact roundEven_le hlt
  rw [← Option.some.inj hx]
  exact mul_le_mul_of_nonneg_right (by exact_mod_cast hround) hpow.le

/-- What is less than 2^1023 is rounded to a double. -/
theorem exists_toDouble {q : ℚ} (hq : 0 < q) (h : q < 2 ^ 1023) : ∃ x, toDouble q = some x := by
  have hpow : (0 : ℚ) < 2 ^ lastPlace q := by positivity
  have hlog : Int.log 2 q < 1023 := by
    refine (Int.lt_zpow_iff_log_lt (by norm_num) hq).mp ?_
    exact_mod_cast h
  have hplace : lastPlace q ≤ 970 := max_le (by omega) (by norm_num)
  have hround : roundEven (q / 2 ^ lastPlace q) ≤ 2 ^ 53 := by
    apply roundEven_le
    rw [div_lt_iff₀ hpow]
    have hlt := lt_of_lastPlace (lastPlace q) le_rfl
    rw [zpow_add₀ (by norm_num), mul_comm] at hlt
    exact_mod_cast hlt
  have hrange : (roundEven (q / 2 ^ lastPlace q) : ℚ) * 2 ^ lastPlace q < 2 ^ 1024 := by
    calc
      (roundEven (q / 2 ^ lastPlace q) : ℚ) * 2 ^ lastPlace q ≤ 2 ^ (53 : ℤ) * 2 ^ (970 : ℤ) := by
        refine mul_le_mul ?_ (zpow_le_zpow_right₀ (by norm_num) hplace) hpow.le (by positivity)
        exact_mod_cast hround
      _ = 2 ^ (1023 : ℤ) := by rw [← zpow_add₀ (by norm_num)]; norm_num
      _ < 2 ^ (1024 : ℤ) := zpow_lt_zpow_right₀ (by norm_num) (by norm_num)
      _ = 2 ^ 1024 := zpow_ofNat 2 1024
  unfold toDouble
  dsimp only
  exact ⟨_, if_pos hrange⟩

end Squaero.Lib.Binary64
