import Squaero.Lib.Doubles
import Squaero.Lib.JsNumber

/-!
# Seventeen significant digits

A double printed with `%.17g`. Seventeen digits are enough: the decimal is so near that it is rounded to the double
it was made of.
-/

namespace Squaero.Lib

namespace Binary64

/-! ## Digits -/

/-- The number nearest to it of seventeen digits and a power of ten. -/
def Magnitude.digits17 (m : Magnitude) : ℕ × ℤ :=
  let e := Int.log 10 m.value - 16
  carry 17 (roundEven (m.value / 10 ^ e)).toNat e

structure Magnitude.Digits17 (m : Magnitude) (d : ℕ × ℤ) : Prop where
  large : 10 ^ 16 ≤ d.1
  small : d.1 < 10 ^ 17
  near : |d.1 * 10 ^ d.2 - m.value| ≤ 10 ^ d.2 / 2
  rounds : toDouble (d.1 * 10 ^ d.2) = some m.value

theorem Magnitude.digits17_spec (m : Magnitude) (hpos : 0 < m.value) : m.Digits17 m.digits17 := by
  have hlow : (10 : ℚ) ^ Int.log 10 m.value ≤ m.value := by
    exact_mod_cast Int.zpow_log_le_self (b := 10) (by norm_num) hpos
  have hhigh : m.value < (10 : ℚ) ^ (Int.log 10 m.value + 1) := by
    exact_mod_cast Int.lt_zpow_succ_log_self (b := 10) (by norm_num) m.value
  unfold digits17
  dsimp only
  have hsplit : Int.log 10 m.value = 16 + (Int.log 10 m.value - 16) := by omega
  generalize Int.log 10 m.value - 16 = e at hsplit ⊢
  rw [hsplit] at hlow hhigh
  have hpow : (0 : ℚ) < 10 ^ e := by positivity
  have hlow' : ((10 ^ 16 : ℤ) : ℚ) ≤ m.value / 10 ^ e := by
    rw [le_div_iff₀ hpow]
    rw [zpow_add₀ (by norm_num)] at hlow
    exact_mod_cast hlow
  have hhigh' : m.value / 10 ^ e < ((10 ^ 17 : ℤ) : ℚ) := by
    rw [div_lt_iff₀ hpow]
    rw [add_right_comm, zpow_add₀ (by norm_num)] at hhigh
    exact_mod_cast hhigh
  have hle := roundEven_le hhigh'
  have hge : 10 ^ 16 ≤ roundEven (m.value / 10 ^ e) := (Int.le_floor.mpr hlow').trans (floor_le_roundEven _)
  have hnear := abs_roundEven_sub_le (m.value / 10 ^ e)
  obtain ⟨s, hs⟩ := Int.eq_ofNat_of_zero_le (by omega : 0 ≤ roundEven (m.value / 10 ^ e))
  rw [hs] at hle hge hnear ⊢
  rw [Int.toNat_natCast]
  have hapart : |(s : ℚ) * 10 ^ e - m.value| ≤ 10 ^ e / 2 := by
    have hvalue : (s : ℚ) * 10 ^ e - m.value = ((s : ℤ) - m.value / 10 ^ e) * 10 ^ e := by
      rw [sub_mul, div_mul_cancel₀ _ hpow.ne']
      push_cast
      rfl
    rw [hvalue, abs_mul, abs_of_pos hpow]
    calc
      |((s : ℤ) : ℚ) - m.value / 10 ^ e| * 10 ^ e ≤ 1 / 2 * 10 ^ e := mul_le_mul_of_nonneg_right hnear hpow.le
      _ = 10 ^ e / 2 := by ring
  refine ⟨?_, ?_, ?_, ?_⟩
  · unfold carry
    split_ifs <;> omega
  · unfold carry
    split_ifs <;> omega
  · rw [carry_value (by norm_num)]
    refine hapart.trans ?_
    unfold carry
    split_ifs
    · rw [zpow_add₀ (by norm_num), zpow_one]
      linarith
    · exact le_rfl
  · rw [carry_value (by norm_num)]
    apply m.toDouble_of_near hpos
    calc
      |(s : ℚ) * 10 ^ e - m.value| ≤ 10 ^ e / 2 := hapart
      _ = 10 ^ 16 * 10 ^ e / (2 * 10 ^ 16) := by ring
      _ ≤ m.value / (2 * 10 ^ 16) := by
        have hscaled : (10 : ℚ) ^ 16 * 10 ^ e ≤ m.value := by
          rw [zpow_add₀ (by norm_num)] at hlow
          exact_mod_cast hlow
        exact div_le_div_of_nonneg_right hscaled (by positivity)

/-- A decimal without a fraction is the double itself. -/
theorem Magnitude.Digits17.eq_of_whole {m : Magnitude} {d : ℕ × ℤ} (h : m.Digits17 d) (he : d.2 ≤ 0) {n : ℕ}
    (hn : (d.1 : ℚ) * 10 ^ d.2 = n) : m.value = n := by
  have hrounds := h.rounds
  have hnear := h.near
  rw [hn] at hrounds hnear
  obtain hsmall | hlarge := le_or_gt n (2 ^ 53)
  · rw [toDouble_natCast hsmall] at hrounds
    exact (Option.some.inj hrounds).symm
  · -- from 2^53 on all doubles are whole
    have hhalf : |(n : ℚ) - m.value| ≤ 1 / 2 := by
      have hpow : (10 : ℚ) ^ d.2 ≤ 1 := zpow_le_one_of_nonpos₀ (by norm_num) he
      exact hnear.trans (by linarith)
    have hcast : (2 ^ 53 : ℚ) + 1 ≤ n := by exact_mod_cast hlarge
    have habs := abs_le.mp hhalf
    obtain ⟨k, hk⟩ := m.exists_whole (by linarith)
    have hsame : ((k : ℤ) : ℚ) = ((n : ℤ) : ℚ) := by
      rw [hk] at habs
      have hlow : ((n : ℤ) - (k : ℤ) : ℚ) < 1 := by push_cast at habs ⊢; linarith
      have hhigh : (-1 : ℚ) < (n : ℤ) - (k : ℤ) := by push_cast at habs ⊢; linarith
      have hlow' : (n : ℤ) - k < 1 := by exact_mod_cast hlow
      have hhigh' : -1 < (n : ℤ) - k := by exact_mod_cast hhigh
      congr 1
      omega
    rw [hk]
    exact_mod_cast hsame

end Binary64

open Binary64

/-! ## Layout -/

/-- Digits with a point between them, less the zeros at the end of the fraction. -/
def pointed (whole fraction : Text) : Text :=
  let fraction := fraction.rdropWhile (· = '0')
  if fraction = [] then whole else whole ++ '.' :: fraction

/-- An exponent of two digits or more. -/
def exponentText (x : ℤ) : Text :=
  'e' :: (if x < 0 then '-' else '+') ::
    ((if x.natAbs < 10 then ['0'] else []) ++ Nat.toDigits 10 x.natAbs)

/-- `s * 10 ^ e` of seventeen digits as `%.17g` lays it out. -/
def layout17 (s : ℕ) (e : ℤ) : Text :=
  let digits := Nat.toDigits 10 s
  let x := e + 16
  if x < -4 ∨ 17 ≤ x then pointed (digits.take 1) (digits.drop 1) ++ exponentText x
  else if x < 0 then pointed ['0'] (List.replicate (-x - 1).toNat '0' ++ digits)
  else pointed (digits.take (x + 1).toNat) (digits.drop (x + 1).toNat)

def Binary64.Magnitude.printfG (m : Magnitude) : Text :=
  if 0 < m.value then layout17 m.digits17.1 m.digits17.2 else ['0']

/-- `%.17g` -/
def JsNum.printfG : JsNum → Text
  | .finite negative m => (if negative then ['-'] else []) ++ m.printfG
  | .infinite negative => if negative then "-inf".toList else "inf".toList
  | .nan => "nan".toList

/-! ## What is laid out -/

/-- The parts of a decimal: the digits before and behind the point, and the text of the exponent. -/
structure DecimalParts (text whole fraction suffix : Text) (x : ℤ) : Prop where
  isWhole : Json.Digits whole
  noZero : whole = ['0'] ∨ whole.head? ≠ some '0'
  isFraction : ∀ c ∈ fraction, c.isDigit = true
  isSuffix : suffix = [] ∧ x = 0 ∨ suffix = exponentText x
  text_eq : text = pointed whole fraction ++ suffix

theorem exists_zeros (fraction : Text) :
    ∃ k, fraction = fraction.rdropWhile (· = '0') ++ List.replicate k '0' := by
  refine ⟨(fraction.rtakeWhile (· = '0')).length, ?_⟩
  have hzeros : fraction.rtakeWhile (· = '0') = List.replicate (fraction.rtakeWhile (· = '0')).length '0' :=
    List.eq_replicate_iff.mpr ⟨rfl, fun c hc ↦ by simpa using List.mem_rtakeWhile_imp hc⟩
  rw [← hzeros, List.rdropWhile_append_rtakeWhile]

/-- The zeros that are left out do not count. -/
theorem natOfDigits_rdropWhile (whole fraction : Text) :
    (Json.natOfDigits (whole ++ fraction.rdropWhile (· = '0')) : ℚ) /
        10 ^ (fraction.rdropWhile (· = '0')).length =
      Json.natOfDigits (whole ++ fraction) / 10 ^ fraction.length := by
  obtain ⟨k, hk⟩ := exists_zeros fraction
  generalize fraction.rdropWhile (· = '0') = kept at hk
  rw [hk, ← List.append_assoc, natOfDigits_append (whole ++ kept), natOfDigits_replicate, List.length_append,
    List.length_replicate, pow_add]
  push_cast
  field_simp
  ring

theorem scaled_exponentText (value : ℚ) (x : ℤ) : scaled value (exponentText x) = some (value * 10 ^ x) := by
  have hdigits := Json.digits_toDigits x.natAbs
  have hpadded : (if x.natAbs < 10 then ['0'] else []) ++ Nat.toDigits 10 x.natAbs ≠ [] ∧
      ((if x.natAbs < 10 then ['0'] else []) ++ Nat.toDigits 10 x.natAbs).all Char.isDigit = true := by
    refine ⟨List.append_ne_nil_of_right_ne_nil _ hdigits.1, List.all_eq_true.mpr fun c hc ↦ ?_⟩
    rcases List.mem_append.mp hc with hzero | hmem
    · split_ifs at hzero
      · rw [List.mem_singleton.mp hzero]
        decide
      · exact absurd hzero List.not_mem_nil
    · exact hdigits.2 c hmem
  have hvalue : Json.natOfDigits ((if x.natAbs < 10 then ['0'] else []) ++ Nat.toDigits 10 x.natAbs) = x.natAbs := by
    rw [natOfDigits_append, Json.natOfDigits_toDigits]
    split_ifs
    · have hzero : Json.natOfDigits ['0'] = 0 := by decide
      rw [hzero, Nat.zero_mul, Nat.zero_add]
    · have hnil : Json.natOfDigits [] = 0 := by decide
      rw [hnil, Nat.zero_mul, Nat.zero_add]
  rw [exponentText, scaled, if_pos (.inl rfl)]
  by_cases hneg : x < 0
  · have habs : -(x.natAbs : ℤ) = x := by omega
    rw [if_pos hneg, readPower, if_pos hpadded, hvalue, Option.map_some, habs]
  · have habs : (x.natAbs : ℤ) = x := by omega
    rw [if_neg hneg, readPower, if_pos hpadded, hvalue, Option.map_some, habs]

/-- A decimal is read as its digits with the point and the power of ten. -/
theorem DecimalParts.unsignedDecimal {text whole fraction suffix : Text} {x : ℤ}
    (h : DecimalParts text whole fraction suffix x) :
    unsignedDecimal text = some ((Json.natOfDigits (whole ++ fraction) : ℚ) / 10 ^ fraction.length * 10 ^ x) := by
  have hscaled (value : ℚ) : scaled value suffix = some (value * 10 ^ x) := by
    rcases h.isSuffix with ⟨rfl, rfl⟩ | rfl
    · simp [scaled]
    · exact scaled_exponentText value x
  have hhead : ∀ c, suffix.head? = some c → c.isDigit = false ∧ c ≠ '.' := by
    intro c hc
    rcases h.isSuffix with ⟨rfl, -⟩ | rfl
    · cases hc
    · rw [← Option.some.inj hc]
      decide
  have hrest : ∀ c, suffix.head? = some c → c.isDigit = false := fun c hc ↦ (hhead c hc).1
  rw [h.text_eq, ← natOfDigits_rdropWhile]
  unfold pointed
  dsimp only
  have hkept : ∀ c ∈ fraction.rdropWhile (· = '0'), c.isDigit = true :=
    fun c hc ↦ h.isFraction c ((List.rdropWhile_prefix _ _).subset hc)
  generalize fraction.rdropWhile (· = '0') = kept at hkept
  split_ifs with hnil
  · have hpoint : suffix.head? ≠ some '.' := fun hc ↦ (hhead '.' hc).2 rfl
    rw [unsignedDecimal_whole h.isWhole.2 hrest hpoint h.isWhole.1, hscaled, hnil]
    simp
  · rw [List.append_assoc, List.cons_append, unsignedDecimal_point h.isWhole.2 hrest hkept (.inl h.isWhole.1), hscaled]

/-- The number behind a point has no more digits than stand there, and a JSON number has the same parts. -/
theorem DecimalParts.numberParts {text whole fraction suffix : Text} {x : ℤ}
    (h : DecimalParts text whole fraction suffix x) (negative : Bool) :
    Json.NumberParts ((if negative then ['-'] else []) ++ text) (if negative then ['-'] else []) whole
      (if fraction.rdropWhile (· = '0') = [] then [] else '.' :: fraction.rdropWhile (· = '0')) suffix where
  isSign := by cases negative <;> simp
  isWhole := h.isWhole
  noZero := h.noZero
  isFraction := by
    split_ifs with hnil
    · exact .inl rfl
    · exact .inr ⟨_, ⟨hnil, fun c hc ↦ h.isFraction c ((List.rdropWhile_prefix _ _).subset hc)⟩, rfl⟩
  isExponent := by
    rcases h.isSuffix with ⟨hnil, -⟩ | hsuffix
    · exact .inl hnil
    · have hdigits := Json.digits_toDigits x.natAbs
      refine .inr ⟨'e', [if x < 0 then '-' else '+'], _, by decide, ?_, ?_, hsuffix⟩
      · split_ifs <;> decide
      · refine ⟨List.append_ne_nil_of_right_ne_nil _ hdigits.1, fun c hc ↦ ?_⟩
        rcases List.mem_append.mp hc with hzero | hmem
        · split_ifs at hzero
          · rw [List.mem_singleton.mp hzero]
            decide
          · exact absurd hzero List.not_mem_nil
        · exact hdigits.2 c hmem
  text_eq := by
    rw [h.text_eq]
    unfold pointed
    dsimp only
    split_ifs <;> simp

/-- Seventeen digits are laid out as a decimal of their value. -/
theorem exists_parts_layout17 {s : ℕ} {e : ℤ} (hlarge : 10 ^ 16 ≤ s) (hsmall : s < 10 ^ 17) :
    ∃ whole fraction suffix x, DecimalParts (layout17 s e) whole fraction suffix x ∧
      (Json.natOfDigits (whole ++ fraction) / 10 ^ fraction.length * 10 ^ x : ℚ) = s * 10 ^ e ∧
      (suffix = [] → e ≤ 0) := by
  have hdigits := Json.digits_toDigits s
  have hvalue := Json.natOfDigits_toDigits s
  have hhead := Json.head?_toDigits (n := s) (by omega)
  have hlength : (Nat.toDigits 10 s).length = 17 := by
    have hlt := natOfDigits_lt hdigits.2
    have hge := le_natOfDigits hdigits.2 hdigits.1 hhead
    rw [hvalue] at hlt hge
    have hmin := (Nat.pow_lt_pow_iff_right (by norm_num)).mp (hlarge.trans_lt hlt)
    have hmax := (Nat.pow_lt_pow_iff_right (by norm_num)).mp (hge.trans_lt hsmall)
    omega
  have hten : (10 : ℚ) ≠ 0 := by norm_num
  unfold layout17
  dsimp only
  generalize Nat.toDigits 10 s = digits at hdigits hvalue hhead hlength ⊢
  have htake {n : ℕ} (hn : 0 < n) : Json.Digits (digits.take n) ∧ (digits.take n).head? ≠ some '0' := by
    have hne : digits.take n ≠ [] := by
      rw [Ne, List.take_eq_nil_iff, not_or]
      exact ⟨hn.ne', hdigits.1⟩
    refine ⟨⟨hne, fun c hc ↦ hdigits.2 c (List.mem_of_mem_take hc)⟩, ?_⟩
    rwa [List.head?_take, if_neg hn.ne']
  have hdrop (n : ℕ) : ∀ c ∈ digits.drop n, c.isDigit = true := fun c hc ↦ hdigits.2 c (List.mem_of_mem_drop hc)
  split_ifs with hexp hneg
  · refine ⟨digits.take 1, digits.drop 1, exponentText (e + 16), e + 16,
      ⟨(htake one_pos).1, .inr (htake one_pos).2, hdrop 1, .inr rfl, rfl⟩, ?_, nofun⟩
    rw [List.take_append_drop, hvalue, List.length_drop, hlength, zpow_add₀ hten]
    norm_num
    ring
  · obtain ⟨k, hk⟩ := Int.eq_ofNat_of_zero_le (by omega : 0 ≤ -(e + 16) - 1)
    have hzeros : ∀ c ∈ List.replicate k '0' ++ digits, c.isDigit = true := by
      intro c hc
      rcases List.mem_append.mp hc with hzero | hmem
      · rw [List.eq_of_mem_replicate hzero]
        decide
      · exact hdigits.2 c hmem
    rw [hk, Int.toNat_natCast]
    refine ⟨['0'], List.replicate k '0' ++ digits, [], 0,
      ⟨⟨by decide, by decide⟩, .inl rfl, hzeros, .inl ⟨rfl, rfl⟩, by rw [List.append_nil]⟩, ?_, fun _ ↦ by omega⟩
    have hnought : Json.natOfDigits ['0'] = 0 := by decide
    have he : e = -((k + 17 : ℕ) : ℤ) := by omega
    rw [natOfDigits_append, natOfDigits_append, natOfDigits_replicate, hvalue, hnought, List.length_append,
      List.length_replicate, hlength, he, zpow_neg, zpow_natCast, div_eq_mul_inv]
    simp
  · obtain ⟨k, hk⟩ := Int.eq_ofNat_of_zero_le (by omega : 0 ≤ e + 16)
    have hcount : (e + 16 + 1).toNat = k + 1 := by omega
    rw [hcount]
    refine ⟨digits.take (k + 1), digits.drop (k + 1), [], 0,
      ⟨(htake k.succ_pos).1, .inr (htake k.succ_pos).2, hdrop _, .inl ⟨rfl, rfl⟩, by rw [List.append_nil]⟩, ?_,
      fun _ ↦ by omega⟩
    have he : e = -((17 - (k + 1) : ℕ) : ℤ) := by omega
    rw [List.take_append_drop, hvalue, List.length_drop, hlength, he, zpow_neg, zpow_natCast, div_eq_mul_inv]
    simp

/-- What is printed of a size: a decimal that rounds to it, and that is the size itself, of seventeen digits at most,
where it has no fraction and no exponent. -/
theorem Binary64.Magnitude.exists_parts_printfG (m : Magnitude) :
    ∃ whole fraction suffix x, DecimalParts m.printfG whole fraction suffix x ∧
      toDouble ((Json.natOfDigits (whole ++ fraction) : ℚ) / 10 ^ fraction.length * 10 ^ x) = some m.value ∧
      (fraction.rdropWhile (· = '0') = [] → suffix = [] →
        m.value = Json.natOfDigits whole ∧ Json.natOfDigits whole < 10 ^ 17) := by
  unfold printfG
  split_ifs with hpos
  · have hspec := m.digits17_spec hpos
    obtain ⟨whole, fraction, suffix, x, hparts, hvalue, hle⟩ :=
      exists_parts_layout17 (e := m.digits17.2) hspec.large hspec.small
    refine ⟨whole, fraction, suffix, x, hparts, by rw [hvalue, hspec.rounds], fun hkept hsuffix ↦ ?_⟩
    have hx : x = 0 := by
      rcases hparts.isSuffix with ⟨-, hx⟩ | hexp
      · exact hx
      · rw [hsuffix] at hexp
        cases hexp
    have hstrip := natOfDigits_rdropWhile whole fraction
    rw [hkept, List.append_nil, List.length_nil, pow_zero, div_one] at hstrip
    rw [hx, zpow_zero, mul_one, ← hstrip] at hvalue
    refine ⟨hspec.eq_of_whole (hle hsuffix) hvalue.symm, ?_⟩
    have hpower : (10 : ℚ) ^ m.digits17.2 ≤ 1 := zpow_le_one_of_nonpos₀ (by norm_num) (hle hsuffix)
    have hlt : (Json.natOfDigits whole : ℚ) < 10 ^ 17 := by
      calc
        (Json.natOfDigits whole : ℚ) = m.digits17.1 * 10 ^ m.digits17.2 := hvalue
        _ ≤ m.digits17.1 := mul_le_of_le_one_right (Nat.cast_nonneg _) hpower
        _ < 10 ^ 17 := by exact_mod_cast hspec.small
    exact_mod_cast hlt
  · have hzero : m.value = 0 := le_antisymm (not_lt.mp hpos) m.nonneg
    have hdigit : Json.natOfDigits ['0'] = 0 := by decide
    refine ⟨['0'], [], [], 0, ⟨⟨by decide, by decide⟩, .inl rfl, nofun, .inl ⟨rfl, rfl⟩, rfl⟩, ?_, fun _ _ ↦ ?_⟩
    · have hdouble := m.isDouble
      rw [hzero] at hdouble ⊢
      rw [List.append_nil, hdigit]
      simpa using hdouble
    · rw [hzero, hdigit, Nat.cast_zero]
      exact ⟨rfl, by norm_num⟩

/-- A finite number is read back from what is printed of it. -/
theorem decimalNumber_printfG (negative : Bool) (m : Magnitude) :
    decimalNumber negative m.printfG = .finite negative m := by
  obtain ⟨whole, fraction, suffix, x, hparts, hrounds, -⟩ := m.exists_parts_printfG
  have hread := hparts.unsignedDecimal
  have hnot : m.printfG ≠ "Infinity".toList := by
    intro heq
    obtain ⟨c, more, hcons⟩ := List.exists_cons_of_ne_nil hparts.isWhole.1
    have hdigit := hparts.isWhole.2 c (hcons ▸ .head _)
    have hhead : m.printfG.head? = some c := by
      rw [hparts.text_eq, pointed, hcons]
      split_ifs <;> rfl
    rw [heq] at hhead
    rw [← Option.some.inj hhead] at hdigit
    exact absurd hdigit (by decide)
  unfold decimalNumber
  rw [if_neg hnot]
  split
  next y hy =>
    rw [hread] at hy
    cases hy
    unfold JsNum.ofNonneg
    rw [Magnitude.round_eq _ hrounds]
  next hnone =>
    rw [hread] at hnone
    cases hnone

end Squaero.Lib
