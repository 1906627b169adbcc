import Mathlib.Algebra.Order.Ring.Star
import Mathlib.Data.Rat.Star
import Squaero.Lib.Doubles
import Squaero.Lib.JsNumber

/-!
# Arithmetic of JavaScript

Addition and `Math.max` on numbers, signs of nought apart, and what `String` makes of whole numbers. From 2^53 on a
number may be its own successor.
-/

namespace Squaero.Lib

open Binary64

/-! ## Whole numbers as texts -/

namespace Binary64

/-- No decimal of a whole number that is picked has places behind the point. -/
theorem Magnitude.shortest_exponent (m : Magnitude) (hpos : 0 < m.value) {n : ℕ} (hn : m.value = n) :
    0 ≤ (m.shortest hpos).2 := by
  have hone : (1 : ℚ) ≤ m.value := by
    rw [hn] at hpos ⊢
    exact_mod_cast hpos
  have hlog : 0 ≤ Int.log 10 m.value := (Int.zpow_le_iff_le_log (by norm_num) hpos).mp (by simpa using hone)
  obtain ⟨k, hk⟩ := Int.eq_ofNat_of_zero_le hlog
  have hpick : (pick m.value (k + 1)).isSome = true := by
    have hreads : reads m.value n 0 = true := by
      have hdouble := m.isDouble
      rw [hn] at hdouble
      simpa [reads, hn] using hdouble
    have hexp : Int.log 10 m.value + 1 - ((k + 1 : ℕ) : ℤ) = 0 := by omega
    unfold pick
    simp only [hexp, zpow_zero, div_one]
    rw [hn, neighbours_natCast, ← hn]
    simp [hreads]
  obtain ⟨j, hle, hsome⟩ : ∃ j ≤ k, pick m.value (j + 1) = some (m.shortest hpos) :=
    ⟨_, Nat.find_min' _ hpick, (Option.some_get _).symm⟩
  have hcarry (s : ℕ) {e : ℤ} (he : 0 ≤ e) (i : ℕ) : 0 ≤ (carry i s e).2 := by
    unfold carry
    split_ifs <;> omega
  unfold pick at hsome
  dsimp only at hsome
  split_ifs at hsome
  · rw [← Option.some.inj hsome]
    exact hcarry _ (by omega) _
  · rw [← Option.some.inj hsome]
    exact hcarry _ (by omega) _

theorem toDigits_mul_pow {n : ℕ} (hn : 0 < n) (e : ℕ) :
    Nat.toDigits 10 (n * 10 ^ e) = Nat.toDigits 10 n ++ List.replicate e '0' := by
  induction e with
  | zero => simp
  | succ e ih =>
    have hpos : 0 < n * 10 ^ e := by positivity
    calc
      Nat.toDigits 10 (n * 10 ^ (e + 1)) = Nat.toDigits 10 (10 * (n * 10 ^ e) + 0) := by
        rw [pow_succ, ← mul_assoc, mul_comm, add_zero]
      _ = Nat.toDigits 10 (n * 10 ^ e) ++ Nat.toDigits 10 0 :=
        (Nat.toDigits_append_toDigits (by norm_num) hpos (by norm_num)).symm
      _ = Nat.toDigits 10 n ++ List.replicate (e + 1) '0' := by
        rw [ih, Nat.toDigits_zero, List.append_assoc, ← List.replicate_succ']

/-- A whole number is written as one. -/
theorem Magnitude.toText_whole (m : Magnitude) {n : ℕ} (hn : m.value = n) (hpos : 0 < n) (hlt : n < 2 ^ 60) :
    ∃ d : ℕ, m.toText = Nat.toDigits 10 d ∧ toDouble d = some m.value := by
  have hpos' : 0 < m.value := by
    rw [hn]
    exact_mod_cast hpos
  have hexp := m.shortest_exponent hpos' hn
  have hreads := m.reads_shortest hpos'
  unfold toText
  rw [dif_pos hpos']
  generalize m.shortest hpos' = d at hexp hreads
  obtain ⟨s, e⟩ := d
  obtain ⟨e, rfl⟩ := Int.eq_ofNat_of_zero_le hexp
  have hdouble : toDouble ((s * 10 ^ e : ℕ) : ℚ) = some m.value := by
    have hread : toDouble (s * 10 ^ (e : ℤ)) = some m.value := of_decide_eq_true hreads
    exact_mod_cast hread
  have hsmall : s * 10 ^ e < 10 ^ 21 := by
    by_contra hge
    push Not at hge
    have hpower : toDouble (2 ^ 60 : ℚ) = some (2 ^ 60 : ℚ) := by
      simpa using toDouble_mul_pow (n := 1) (e := 60) (by norm_num) (by norm_num)
    have hge' : (2 ^ 60 : ℚ) ≤ ((s * 10 ^ e : ℕ) : ℚ) := by
      have htwo : 2 ^ 60 ≤ s * 10 ^ e := le_trans (by norm_num) hge
      exact_mod_cast htwo
    have hle : (2 ^ 60 : ℚ) ≤ m.value := Magnitude.le_toDouble ⟨2 ^ 60, by positivity, hpower⟩ hge' hdouble
    rw [hn] at hle
    have hle' : 2 ^ 60 ≤ n := by exact_mod_cast hle
    omega
  have hs : s ≠ 0 := by
    rintro rfl
    rw [Nat.zero_mul, Nat.cast_zero] at hdouble
    have hzero := Magnitude.zero.isDouble
    have hsame : (0 : ℚ) = m.value := Option.some.inj (hzero.symm.trans hdouble)
    exact hpos'.ne hsame
  have hdigits := Json.digits_toDigits s
  have hvalue := Json.natOfDigits_toDigits s
  have hlength : (Nat.toDigits 10 s).length + e ≤ 21 := by
    have hge := le_natOfDigits hdigits.2 hdigits.1 (Json.head?_toDigits hs)
    rw [hvalue] at hge
    have hlt : 10 ^ ((Nat.toDigits 10 s).length - 1 + e) < 10 ^ 21 := by
      rw [pow_add]
      exact (Nat.mul_le_mul_right _ hge).trans_lt hsmall
    have hle := (Nat.pow_lt_pow_iff_right (by norm_num)).mp hlt
    omega
  refine ⟨s * 10 ^ e, ?_, hdouble⟩
  unfold layout
  dsimp only
  rw [if_pos (by omega)]
  have hzeros : ((Nat.toDigits 10 s).length + (e : ℤ) - (Nat.toDigits 10 s).length).toNat = e := by omega
  rw [hzeros]
  exact (toDigits_mul_pow (by omega) e).symm

end Binary64

/-! ## Addition and the larger one -/

def Binary64.Magnitude.signed (negative : Bool) (m : Magnitude) : ℚ := if negative then -m.value else m.value

def Binary64.Magnitude.one : Magnitude where
  value := 1
  nonneg := by norm_num
  isDouble := by simpa using toDouble_natCast (n := 1) (by norm_num)

def JsNum.one : JsNum := .finite false .one

/-- A rational as the number next to it. -/
def JsNum.ofRat (x : ℚ) : JsNum :=
  if h : 0 ≤ x then .ofNonneg false x h else .ofNonneg true (-x) (by linarith)

/-- `a + b` -/
def JsNum.plus : JsNum → JsNum → JsNum
  | .nan, _ | _, .nan => .nan
  | .infinite a, .infinite b => if a = b then .infinite a else .nan
  | .infinite a, .finite _ _ => .infinite a
  | .finite _ _, .infinite b => .infinite b
  | .finite a m, .finite b m' => .ofRat (m.signed a + m'.signed b)

/-- `Math.max(a, b)` -/
def JsNum.max : JsNum → JsNum → JsNum
  | .nan, _ | _, .nan => .nan
  | .infinite true, b => b
  | a, .infinite true => a
  | .infinite false, _ | _, .infinite false => .infinite false
  | .finite a m, .finite b m' => if m.signed a < m'.signed b then .finite b m' else .finite a m

/-- Numbers from nought to infinity. -/
def JsNum.IsSize : JsNum → Prop
  | .finite negative _ | .infinite negative => negative = false
  | .nan => False

/-- The order of the sizes. -/
def JsNum.AtMost : JsNum → JsNum → Prop
  | _, .infinite _ => True
  | .finite _ m, .finite _ m' => m.value ≤ m'.value
  | _, _ => False

theorem JsNum.isSize_ofNonneg {x : ℚ} (h : 0 ≤ x) : (JsNum.ofNonneg false x h).IsSize := by
  unfold ofNonneg
  split <;> rfl

theorem JsNum.AtMost.refl {a : JsNum} (h : a.IsSize) : a.AtMost a := by
  cases a with
  | finite negative m => exact le_refl m.value
  | infinite negative => trivial
  | nan => exact h

theorem JsNum.AtMost.trans {a b c : JsNum} (hab : a.AtMost b) (hbc : b.AtMost c) : a.AtMost c := by
  cases c with
  | infinite negative => cases a <;> trivial
  | nan => cases b <;> exact hbc.elim
  | finite negative m =>
    cases b with
    | infinite negative => exact hbc.elim
    | nan => exact hbc.elim
    | finite negative' m' =>
      cases a with
      | infinite negative => exact hab.elim
      | nan => exact hab.elim
      | finite negative'' m'' => exact le_trans hab hbc

theorem JsNum.AtMost.antisymm {a b : JsNum} (ha : a.IsSize) (hb : b.IsSize) (hab : a.AtMost b) (hba : b.AtMost a) :
    a = b := by
  cases a with
  | nan => exact ha.elim
  | infinite negative =>
    cases b with
    | nan => exact hb.elim
    | finite negative' m => exact hab.elim
    | infinite negative' => rw [show negative = false from ha, show negative' = false from hb]
  | finite negative m =>
    cases b with
    | nan => exact hb.elim
    | infinite negative' => exact hba.elim
    | finite negative' m' =>
      have hvalue : m.value = m'.value := le_antisymm hab hba
      have hsame : m = m' := by
        cases m
        cases m'
        cases hvalue
        rfl
      rw [show negative = false from ha, show negative' = false from hb, hsame]

/-- Of two sizes the larger one. -/
theorem JsNum.max_spec {a b : JsNum} (ha : a.IsSize) (hb : b.IsSize) :
    (a.max b).IsSize ∧ a.AtMost (a.max b) ∧ b.AtMost (a.max b) := by
  cases a with
  | nan => exact ha.elim
  | infinite negative =>
    obtain rfl : negative = false := ha
    cases b with
    | nan => exact hb.elim
    | infinite negative' =>
      obtain rfl : negative' = false := hb
      exact ⟨rfl, trivial, trivial⟩
    | finite negative' m => exact ⟨rfl, trivial, trivial⟩
  | finite negative m =>
    obtain rfl : negative = false := ha
    cases b with
    | nan => exact hb.elim
    | infinite negative' =>
      obtain rfl : negative' = false := hb
      exact ⟨rfl, trivial, trivial⟩
    | finite negative' m' =>
      obtain rfl : negative' = false := hb
      have hsigned (m : Magnitude) : m.signed false = m.value := rfl
      unfold max
      simp only [hsigned]
      split_ifs with hlt
      · exact ⟨rfl, hlt.le, le_refl m'.value⟩
      · exact ⟨rfl, le_refl m.value, not_lt.mp hlt⟩

theorem JsNum.max_choice {a b : JsNum} (ha : a.IsSize) (hb : b.IsSize) : a.max b = a ∨ a.max b = b := by
  cases a with
  | nan => exact ha.elim
  | infinite negative =>
    obtain rfl : negative = false := ha
    cases b with
    | nan => exact hb.elim
    | infinite negative' =>
      obtain rfl : negative' = false := hb
      exact .inl rfl
    | finite negative' m => exact .inl rfl
  | finite negative m =>
    cases b with
    | nan => exact hb.elim
    | infinite negative' =>
      obtain rfl : negative' = false := hb
      exact .inr rfl
    | finite negative' m' =>
      have hmax : (JsNum.finite negative m).max (.finite negative' m') =
          if m.signed negative < m'.signed negative' then .finite negative' m' else .finite negative m := rfl
      rw [hmax]
      split_ifs
      · exact .inr rfl
      · exact .inl rfl

theorem JsNum.ofNonneg_zero : JsNum.ofNonneg false 0 le_rfl = .finite false .zero := by
  unfold ofNonneg
  rw [Magnitude.round_eq (m := .zero) le_rfl Magnitude.zero.isDouble]

theorem JsNum.finite_plus_one (m : Magnitude) (h : 0 ≤ m.value + 1) :
    (JsNum.finite false m).plus .one = .ofNonneg false (m.value + 1) h :=
  dif_pos h

/-- One more is no less. -/
theorem JsNum.plus_one_spec {a : JsNum} (ha : a.IsSize) : (a.plus .one).IsSize ∧ a.AtMost (a.plus .one) := by
  cases a with
  | nan => exact ha.elim
  | infinite negative => exact ⟨ha, trivial⟩
  | finite negative m =>
    obtain rfl : negative = false := ha
    have hnonneg : 0 ≤ m.value + 1 := add_nonneg m.nonneg (by norm_num)
    rw [finite_plus_one m hnonneg]
    refine ⟨isSize_ofNonneg hnonneg, ?_⟩
    unfold ofNonneg Magnitude.round
    split
    next m' hm' =>
      split at hm'
      · cases hm'
      next x hx =>
        cases hm'
        exact m.le_toDouble (by linarith) hx
    next => trivial

/-- A large number and one more are the same double. -/
theorem JsNum.plus_one_of_large {m : Magnitude} (h : 2 * 10 ^ 16 ≤ m.value) :
    (JsNum.finite false m).plus .one = .finite false m := by
  have hnonneg : 0 ≤ m.value + 1 := add_nonneg m.nonneg (by norm_num)
  have hpos : 0 < m.value := lt_of_lt_of_le (by norm_num) h
  have hnear : |m.value + 1 - m.value| ≤ m.value / (2 * 10 ^ 16) := by
    rw [add_sub_cancel_left, abs_one, le_div_iff₀ (by norm_num), one_mul]
    exact h
  rw [finite_plus_one m hnonneg]
  unfold ofNonneg
  rw [Magnitude.round_eq hnonneg (m.toDouble_of_near hpos hnear)]

/-- A double at which a whole number is rounded is whole. -/
theorem Binary64.Magnitude.whole_of_round (m : Magnitude) {n : ℕ} (h : toDouble (n : ℚ) = some m.value) :
    ∃ k : ℕ, m.value = k := by
  obtain hsmall | hlarge := le_or_gt n (2 ^ 53)
  · rw [toDouble_natCast hsmall] at h
    exact ⟨n, (Option.some.inj h).symm⟩
  · refine m.exists_whole ?_
    have hpower : toDouble (2 ^ 52 : ℚ) = some (2 ^ 52 : ℚ) := by
      simpa using toDouble_mul_pow (n := 1) (e := 52) (by norm_num) (by norm_num)
    have hge : (2 ^ 52 : ℚ) ≤ n := by
      have htwo : 2 ^ 52 ≤ n := le_trans (by norm_num) hlarge.le
      exact_mod_cast htwo
    exact Magnitude.le_toDouble ⟨2 ^ 52, by positivity, hpower⟩ hge h

theorem numberOf_digits {digits : Text} (h : Json.Digits digits) :
    numberOf digits = .ofNonneg false (Json.natOfDigits digits) (Nat.cast_nonneg _) := by
  have htrim : jsTrim digits = digits := jsTrim_of_forall fun c hc ↦ isJsSpace_of_isDigit (h.2 c hc)
  have hread : unsignedDecimal digits = some (Json.natOfDigits digits : ℚ) := by
    have hwhole := @unsignedDecimal_whole digits [] h.2 nofun nofun h.1
    rwa [List.append_nil] at hwhole
  have hdecimal : decimalNumber false digits = .ofNonneg false (Json.natOfDigits digits) (Nat.cast_nonneg _) := by
    have hnot : digits ≠ "Infinity".toList := by
      rintro rfl
      exact absurd (h.2 'I' (by decide)) (by decide)
    unfold decimalNumber
    rw [if_neg hnot]
    split
    next x hx =>
      rw [hread] at hx
      cases hx
      rfl
    next hnone =>
      rw [hread] at hnone
      cases hnone
  obtain ⟨c, rest, rfl⟩ := List.exists_cons_of_ne_nil h.1
  unfold numberOf
  rw [htrim]
  split
  next heq => cases heq
  next heq => cases heq; exact absurd (h.2 '-' (.head _)) (by decide)
  next heq => cases heq; exact absurd (h.2 '+' (.head _)) (by decide)
  next s heq =>
    cases heq
    have hradix : radixLiteral rest = none := by
      cases rest with
      | nil => rfl
      | cons d more =>
        have hd := h.2 d (.tail _ (.head _))
        have hbase : baseOf d = none := by
          unfold baseOf
          split <;> first | exact absurd hd (by decide) | rfl
        rw [radixLiteral, hbase]
        rfl
    rw [hradix]
    exact hdecimal
  next => exact hdecimal

/-- One more than a whole number is the same number, or a number whose text has the digits of a whole number that
is rounded to it. -/
theorem JsNum.plus_one_cases (n : ℕ) (hn : (0 : ℚ) ≤ n) :
    (JsNum.ofNonneg false n hn).plus .one = .ofNonneg false n hn ∨
      ∃ d : ℕ, ((JsNum.ofNonneg false n hn).plus .one).toText = Nat.toDigits 10 d ∧
        JsNum.ofNonneg false d (Nat.cast_nonneg d) = (JsNum.ofNonneg false n hn).plus .one := by
  cases hround : toDouble (n : ℚ) with
  | none =>
    refine .inl ?_
    have hinfinite : JsNum.ofNonneg false n hn = .infinite false := by
      unfold ofNonneg Magnitude.round
      split
      next m' hm' =>
        split at hm'
        · cases hm'
        next x hx =>
          rw [hround] at hx
          cases hx
      next => rfl
    rw [hinfinite]
    rfl
  | some x =>
    obtain ⟨hx0, hxx⟩ := toDouble_of_toDouble hn hround
    have hfinite : JsNum.ofNonneg false n hn = .finite false ⟨x, hx0, hxx⟩ := by
      unfold ofNonneg
      rw [Magnitude.round_eq (m := ⟨x, hx0, hxx⟩) hn hround]
    rw [hfinite]
    obtain ⟨k, hk⟩ : ∃ k : ℕ, x = k := Magnitude.whole_of_round ⟨x, hx0, hxx⟩ hround
    obtain hlarge | hsmall := le_or_gt (2 * 10 ^ 16) x
    · exact .inl (plus_one_of_large hlarge)
    refine .inr ?_
    subst hk
    have hnonneg : (0 : ℚ) ≤ k + 1 := by positivity
    have hk : k < 2 * 10 ^ 16 := by exact_mod_cast hsmall
    have hcast : ((k + 1 : ℕ) : ℚ) = k + 1 := by push_cast; rfl
    obtain ⟨y, hy⟩ := exists_toDouble (q := (k : ℚ) + 1) (by positivity) (by
      calc
        (k : ℚ) + 1 < 2 ^ 60 := by linarith
        _ < 2 ^ 1023 := pow_lt_pow_right₀ (by norm_num) (by norm_num))
    obtain ⟨hy0, hyy⟩ := toDouble_of_toDouble hnonneg hy
    have hnext : (JsNum.finite false ⟨(k : ℚ), hx0, hxx⟩).plus .one = .finite false ⟨y, hy0, hyy⟩ := by
      rw [finite_plus_one _ hnonneg]
      unfold ofNonneg
      rw [Magnitude.round_eq (m := ⟨y, hy0, hyy⟩) hnonneg hy]
    obtain ⟨j, rfl⟩ : ∃ j : ℕ, y = j := Magnitude.whole_of_round ⟨y, hy0, hyy⟩ (hcast ▸ hy)
    have hpos : 0 < j := by
      have hone : toDouble (1 : ℚ) = some (1 : ℚ) := Magnitude.one.isDouble
      have hle : (1 : ℚ) ≤ j := Magnitude.le_toDouble Magnitude.one (by change (1 : ℚ) ≤ _; linarith [hx0]) hy
      exact_mod_cast hle
    have hlt : j < 2 ^ 60 := by
      have hpower : toDouble (2 ^ 59 : ℚ) = some (2 ^ 59 : ℚ) := by
        simpa using toDouble_mul_pow (n := 1) (e := 59) (by norm_num) (by norm_num)
      have hle : (j : ℚ) ≤ 2 ^ 59 :=
        Magnitude.toDouble_le ⟨2 ^ 59, by positivity, hpower⟩ (by positivity) (by change (k : ℚ) + 1 ≤ 2 ^ 59; linarith) hy
      have hle' : j ≤ 2 ^ 59 := by exact_mod_cast hle
      omega
    obtain ⟨d, htext, hd⟩ := Magnitude.toText_whole ⟨(j : ℚ), hy0, hyy⟩ rfl hpos hlt
    rw [hnext]
    refine ⟨d, ?_, ?_⟩
    · exact htext
    · unfold ofNonneg
      rw [Magnitude.round_eq (m := ⟨j, hy0, hyy⟩) (Nat.cast_nonneg d) hd]

end Squaero.Lib
