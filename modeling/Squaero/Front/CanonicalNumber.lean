import Squaero.Lib.JsNumber

/-!
# Numbers as compared

`canonicalNumber` of `frontend/src/utils/resultCompare.ts`: plain decimals become their one canonical text, whatever
their length, and other numerals what JavaScript makes of them. Two plain decimals have the same text exactly when
they are the same number.
-/

namespace Squaero.Front

open Squaero.Lib

/-- `s.replace(/^[+-]/, "")` -/
def dropSign : Text → Text
  | '+' :: s => s
  | '-' :: s => s
  | s => s

/-- `DECIMAL` -/
def isDecimal (s : Text) : Bool :=
  let whole := (dropSign s).takeWhile Char.isDigit
  match (dropSign s).dropWhile Char.isDigit with
  | [] => whole ≠ []
  | '.' :: fraction => (whole ≠ [] || fraction ≠ []) && fraction.all Char.isDigit
  | _ => false

/-- The parts of `split(".")`; a decimal has one point at most. -/
def wholePart (s : Text) : Text := (dropSign s).takeWhile (· ≠ '.')

def fractionPart (s : Text) : Text := ((dropSign s).dropWhile (· ≠ '.')).tail

/-- The case of a plain decimal. -/
def canonicalDecimal (s : Text) : Text :=
  let i := if (wholePart s).dropWhile (· = '0') = [] then ['0'] else (wholePart s).dropWhile (· = '0')
  let f := (fractionPart s).rdropWhile (· = '0')
  let out := if f ≠ [] then i ++ '.' :: f else i
  if s.head? = some '-' ∧ out ≠ ['0'] then '-' :: out else out

def canonicalNumber (v : Text) : Text :=
  let s := jsTrim v
  if isDecimal s then canonicalDecimal s
  else
    match numberOf s with
    | .finite negative m =>
      if s = [] then v
      else
        let t := JsNum.toText (.finite negative m)
        -- the second call trims a text without blanks
        if isDecimal t then canonicalDecimal (jsTrim t) else t
    | _ => v

/-- The number that a plain decimal denotes. -/
def decimalValue (s : Text) : ℚ :=
  let size : ℚ := Json.natOfDigits (wholePart s ++ fractionPart s) / 10 ^ (fractionPart s).length
  if s.head? = some '-' then -size else size

/-- A numeral with a power of ten. -/
def isExponentForm (s : Text) : Bool :=
  (unsignedDecimal (dropSign s)).isSome && ('e' ∈ s || 'E' ∈ s)

/-! ## Decimals -/

/-- A decimal as its sign and the digits before and behind its point. -/
structure Decimal where
  negative : Bool
  whole : Text
  fraction : Text
  isWhole : ∀ c ∈ whole, c.isDigit = true
  isFraction : ∀ c ∈ fraction, c.isDigit = true

namespace Decimal

def size (d : Decimal) : ℚ := Json.natOfDigits (d.whole ++ d.fraction) / 10 ^ d.fraction.length

def value (d : Decimal) : ℚ := if d.negative then -d.size else d.size

/-- One whole digit, no nought in front of others and none at the end, and no negative zero. -/
structure Canonical (d : Decimal) : Prop where
  whole : d.whole = ['0'] ∨ d.whole ≠ [] ∧ d.whole.head? ≠ some '0'
  fraction : d.fraction.getLast? ≠ some '0'
  negative : d.negative = true → d.size ≠ 0

def text (d : Decimal) : Text :=
  (if d.negative then ['-'] else []) ++ (d.whole ++ if d.fraction ≠ [] then '.' :: d.fraction else [])

variable (d : Decimal)

theorem size_eq : d.size = Json.natOfDigits d.whole + Json.natOfDigits d.fraction / 10 ^ d.fraction.length := by
  unfold size
  rw [natOfDigits_append]
  push_cast
  field_simp

theorem size_nonneg : 0 ≤ d.size := by
  unfold size
  positivity

/-- The whole digits are the whole part of the number. -/
theorem floor_size : ⌊d.size⌋ = Json.natOfDigits d.whole := by
  have hlt : (Json.natOfDigits d.fraction : ℚ) < 10 ^ d.fraction.length := by
    exact_mod_cast natOfDigits_lt d.isFraction
  have hpart : (Json.natOfDigits d.fraction : ℚ) / 10 ^ d.fraction.length < 1 := (div_lt_one (by positivity)).mpr hlt
  have hnonneg : (0 : ℚ) ≤ Json.natOfDigits d.fraction / 10 ^ d.fraction.length := by positivity
  rw [size_eq, Int.floor_eq_iff]
  push_cast
  constructor
  · linarith
  · linarith

/-- Of two fractions of one number without noughts at their ends neither is longer. -/
theorem length_le_of_fraction {f f' : Text} (hf' : ∀ c ∈ f', c.isDigit = true) (hlast : f'.getLast? ≠ some '0')
    (h : (Json.natOfDigits f : ℚ) / 10 ^ f.length = Json.natOfDigits f' / 10 ^ f'.length) : f'.length ≤ f.length := by
  by_contra hlonger
  rw [not_le] at hlonger
  obtain ⟨j, hj⟩ := Nat.exists_eq_add_of_lt hlonger
  rw [div_eq_div_iff (by positivity) (by positivity), hj, pow_succ, pow_add] at h
  have hcross : Json.natOfDigits f' = Json.natOfDigits f * 10 ^ j * 10 := by
    have hpow : (10 : ℚ) ^ f.length ≠ 0 := by positivity
    have hcast : (Json.natOfDigits f' : ℚ) = ((Json.natOfDigits f * 10 ^ j * 10 : ℕ) : ℚ) := by
      push_cast
      refine mul_right_cancel₀ hpow ?_
      rw [← h]
      ring
    exact_mod_cast hcast
  have hne : f' ≠ [] := by
    rintro rfl
    simp at hlonger
  obtain ⟨g, c, rfl⟩ := (List.eq_nil_or_concat f').resolve_left hne
  rw [List.concat_eq_append] at hcross hlast hf'
  have hdigit := toNat_of_isDigit (hf' c (by simp))
  have hnine : '9'.toNat = 57 := rfl
  have hzero : '0'.toNat = 48 := rfl
  rw [natOfDigits_concat] at hcross
  have hc : c = '0' := Char.toNat_inj.mp (by omega)
  exact hlast (by simp [hc])

theorem eq_of_whole {w w' : Text} (hw : ∀ c ∈ w, c.isDigit = true) (hw' : ∀ c ∈ w', c.isDigit = true)
    (hcanonical : w = ['0'] ∨ w ≠ [] ∧ w.head? ≠ some '0') (hcanonical' : w' = ['0'] ∨ w' ≠ [] ∧ w'.head? ≠ some '0')
    (h : Json.natOfDigits w = Json.natOfDigits w') : w = w' := by
  have hzero : Json.natOfDigits ['0'] = 0 := by decide
  have hpositive {v : Text} (hv : ∀ c ∈ v, c.isDigit = true) (hne : v ≠ []) (hhead : v.head? ≠ some '0') :
      0 < Json.natOfDigits v := (Nat.pow_pos (by omega)).trans_le (le_natOfDigits hv hne hhead)
  obtain rfl | ⟨hne, hhead⟩ := hcanonical
  · obtain rfl | ⟨hne', hhead'⟩ := hcanonical'
    · rfl
    · have hpos := hpositive hw' hne' hhead'
      omega
  · obtain rfl | ⟨hne', hhead'⟩ := hcanonical'
    · have hpos := hpositive hw hne hhead
      omega
    · -- the number of digits is the number's size
      refine natOfDigits_inj hw hw' ?_ h
      have hlow := le_natOfDigits hw hne hhead
      have hlow' := le_natOfDigits hw' hne' hhead'
      have hhigh := natOfDigits_lt hw
      have hhigh' := natOfDigits_lt hw'
      have hlt := (Nat.pow_lt_pow_iff_right (by omega)).mp (hlow.trans_lt (h ▸ hhigh'))
      have hlt' := (Nat.pow_lt_pow_iff_right (by omega)).mp (hlow'.trans_lt (h ▸ hhigh))
      have hpos := List.length_pos_of_ne_nil hne
      have hpos' := List.length_pos_of_ne_nil hne'
      omega

variable {d}

/-- A canonical decimal is determined by its number. -/
theorem Canonical.eq {d' : Decimal} (h : d.Canonical) (h' : d'.Canonical) (hvalue : d.value = d'.value) : d = d' := by
  have hsign : d.negative = d'.negative ∧ d.size = d'.size := by
    have hnonneg := d.size_nonneg
    have hnonneg' := d'.size_nonneg
    unfold value at hvalue
    cases hneg : d.negative with
    | true =>
      cases hneg' : d'.negative with
      | true =>
        rw [hneg, hneg', if_pos rfl, if_pos rfl] at hvalue
        exact ⟨rfl, neg_inj.mp hvalue⟩
      | false =>
        rw [hneg, hneg', if_pos rfl, if_neg Bool.false_ne_true] at hvalue
        exact absurd (by linarith) (h.negative hneg)
    | false =>
      cases hneg' : d'.negative with
      | true =>
        rw [hneg, hneg', if_pos rfl, if_neg Bool.false_ne_true] at hvalue
        exact absurd (by linarith) (h'.negative hneg')
      | false =>
        rw [hneg, hneg', if_neg Bool.false_ne_true] at hvalue
        exact ⟨rfl, hvalue⟩
  obtain ⟨hnegative, hsize⟩ := hsign
  have hfloor := congrArg Int.floor hsize
  rw [floor_size, floor_size] at hfloor
  have hnumber : Json.natOfDigits d.whole = Json.natOfDigits d'.whole := by exact_mod_cast hfloor
  have hwhole := eq_of_whole d.isWhole d'.isWhole h.whole h'.whole hnumber
  have hpart : (Json.natOfDigits d.fraction : ℚ) / 10 ^ d.fraction.length =
      Json.natOfDigits d'.fraction / 10 ^ d'.fraction.length := by
    rw [size_eq, size_eq, hnumber] at hsize
    exact add_left_cancel hsize
  have hlength := le_antisymm (length_le_of_fraction d.isFraction h.fraction hpart.symm)
    (length_le_of_fraction d'.isFraction h'.fraction hpart)
  have hfraction : d.fraction = d'.fraction := by
    refine natOfDigits_inj d.isFraction d'.isFraction hlength ?_
    rw [hlength, div_left_inj' (by positivity)] at hpart
    exact_mod_cast hpart
  obtain ⟨negative, whole, fraction, isWhole, isFraction⟩ := d
  obtain ⟨negative', whole', fraction', isWhole', isFraction'⟩ := d'
  cases hnegative
  cases hwhole
  cases hfraction
  rfl

/-! ## Normal forms -/

theorem natOfDigits_rdropWhile (f : Text) :
    (Json.natOfDigits (f.rdropWhile (· = '0')) : ℚ) / 10 ^ (f.rdropWhile (· = '0')).length =
      Json.natOfDigits f / 10 ^ f.length := by
  induction f using List.reverseRecOn with
  | nil => rfl
  | append_singleton f c ih =>
    by_cases hc : c = '0'
    · rw [List.rdropWhile_concat_pos _ _ _ (by simp [hc]), ih, hc, natOfDigits_concat, List.length_append,
        List.length_singleton, pow_succ]
      push_cast
      rw [add_zero, mul_div_mul_right _ _ (by norm_num)]
    · rw [List.rdropWhile_concat_neg _ _ _ (by simp [hc])]

/-- The decimal that is written for `d`. -/
def normal (d : Decimal) : Decimal where
  negative := d.negative && !decide (d.whole.dropWhile (· = '0') = [] ∧ d.fraction.rdropWhile (· = '0') = [])
  whole := if d.whole.dropWhile (· = '0') = [] then ['0'] else d.whole.dropWhile (· = '0')
  fraction := d.fraction.rdropWhile (· = '0')
  isWhole := by
    intro c hc
    split_ifs at hc
    · rw [List.mem_singleton.mp hc]
      decide
    · exact d.isWhole c ((List.dropWhile_sublist _).subset hc)
  isFraction := fun c hc ↦ d.isFraction c ((List.rdropWhile_prefix _ _).subset hc)

variable (d)

theorem normal_size : d.normal.size = d.size := by
  have hwhole : Json.natOfDigits d.normal.whole = Json.natOfDigits d.whole := by
    rw [← natOfDigits_dropWhile d.whole]
    change Json.natOfDigits (if _ then _ else _) = _
    split_ifs with hnil
    · rw [hnil]
      decide
    · rfl
  rw [size_eq, size_eq, hwhole]
  exact congrArg _ (natOfDigits_rdropWhile d.fraction)

/-- Nothing but noughts is nought. -/
theorem size_eq_zero (hwhole : d.whole.dropWhile (· = '0') = []) (hfraction : d.fraction.rdropWhile (· = '0') = []) :
    d.size = 0 := by
  have hzero : Json.natOfDigits [] = 0 := rfl
  rw [size_eq, ← natOfDigits_dropWhile, hwhole, ← natOfDigits_rdropWhile, hfraction, hzero]
  simp

theorem normal_value : d.normal.value = d.value := by
  unfold value
  rw [normal_size]
  cases hneg : d.negative with
  | false =>
    have hnormal : d.normal.negative = false := by
      change (d.negative && _) = false
      rw [hneg]
      rfl
    rw [hnormal]
  | true =>
    by_cases hzero : d.whole.dropWhile (· = '0') = [] ∧ d.fraction.rdropWhile (· = '0') = []
    · rw [d.size_eq_zero hzero.1 hzero.2]
      simp
    · have hnormal : d.normal.negative = true := by
        change (d.negative && _) = true
        rw [hneg, decide_eq_false hzero]
        rfl
      rw [hnormal]

theorem head?_dropWhile_ne (w : Text) : (w.dropWhile (· = '0')).head? ≠ some '0' := by
  intro hhead
  have hfirst := List.head?_dropWhile_not (· = '0') w
  rw [hhead] at hfirst
  exact absurd hfirst (by decide)

theorem getLast?_rdropWhile_ne (f : Text) : (f.rdropWhile (· = '0')).getLast? ≠ some '0' := by
  intro hlast
  have hne : f.rdropWhile (· = '0') ≠ [] := by
    intro hnil
    rw [hnil] at hlast
    cases hlast
  rw [List.getLast?_eq_some_getLast hne] at hlast
  have hnot := List.rdropWhile_last_not (· = '0') f hne
  exact hnot (decide_eq_true (Option.some.inj hlast))

/-- A fraction that does not end in a nought is more than nought. -/
theorem natOfDigits_pos {f : Text} (hf : ∀ c ∈ f, c.isDigit = true) (hne : f ≠ []) (hlast : f.getLast? ≠ some '0') :
    0 < Json.natOfDigits f := by
  obtain ⟨g, c, rfl⟩ := (List.eq_nil_or_concat f).resolve_left hne
  rw [List.concat_eq_append] at hlast hf ⊢
  have hdigit := toNat_of_isDigit (hf c (by simp))
  have hc : c.toNat ≠ '0'.toNat := by
    intro heq
    exact hlast (by simp [Char.toNat_inj.mp heq])
  rw [natOfDigits_concat]
  omega

theorem canonical_normal : d.normal.Canonical where
  whole := by
    change (if _ then _ else _) = _ ∨ (if _ then _ else _) ≠ _ ∧ (if _ then _ else _ : Text).head? ≠ _
    split_ifs with hnil
    · exact .inl rfl
    · exact .inr ⟨hnil, head?_dropWhile_ne d.whole⟩
  fraction := getLast?_rdropWhile_ne d.fraction
  negative := by
    intro hneg
    have hsome : ¬ (d.whole.dropWhile (· = '0') = [] ∧ d.fraction.rdropWhile (· = '0') = []) := by
      have hboth : (d.negative && _) = true := hneg
      rw [Bool.and_eq_true, Bool.not_eq_true'] at hboth
      exact of_decide_eq_false hboth.2
    have hpart : (0 : ℚ) ≤ Json.natOfDigits d.normal.fraction / 10 ^ d.normal.fraction.length := by positivity
    rw [size_eq]
    by_cases hwhole : d.whole.dropWhile (· = '0') = []
    · have hfraction : d.normal.fraction ≠ [] := fun hnil ↦ hsome ⟨hwhole, hnil⟩
      have hpos := natOfDigits_pos d.normal.isFraction hfraction (getLast?_rdropWhile_ne d.fraction)
      have hcast : (0 : ℚ) < Json.natOfDigits d.normal.fraction := by exact_mod_cast hpos
      positivity
    · have hsame : d.normal.whole = d.whole.dropWhile (· = '0') := if_neg hwhole
      have hlarge := le_natOfDigits d.normal.isWhole (hsame ▸ hwhole) (hsame ▸ head?_dropWhile_ne d.whole)
      have hpos : 0 < Json.natOfDigits d.normal.whole := (Nat.pow_pos (by omega)).trans_le hlarge
      have hcast : (0 : ℚ) < Json.natOfDigits d.normal.whole := by exact_mod_cast hpos
      positivity

end Decimal

/-! ## Texts of decimals -/

/-- The parts of a plain decimal are digits, and some. -/
theorem parts_of_isDecimal {s : Text} (h : isDecimal s = true) : (∀ c ∈ wholePart s, c.isDigit = true) ∧
    (∀ c ∈ fractionPart s, c.isDigit = true) ∧ (wholePart s ≠ [] ∨ fractionPart s ≠ []) := by
  have hpoint : ∀ c : Char, c.isDigit = true → decide (c ≠ '.') = true := by
    intro c hc
    refine decide_eq_true ?_
    rintro rfl
    cases hc
  unfold isDecimal at h
  unfold wholePart fractionPart
  generalize dropSign s = u at h ⊢
  have hu := List.takeWhile_append_dropWhile (p := Char.isDigit) (l := u)
  have hwhole : ∀ c ∈ u.takeWhile Char.isDigit, c.isDigit = true := fun c hc ↦ List.mem_takeWhile_imp hc
  have hkeep : ∀ c ∈ u.takeWhile Char.isDigit, decide (c ≠ '.') = true := fun c hc ↦ hpoint c (hwhole c hc)
  dsimp only at h
  split at h
  next hnil =>
    rw [hnil, List.append_nil] at hu
    rw [hu] at hkeep hwhole h
    rw [List.takeWhile_eq_self_iff.mpr hkeep, List.dropWhile_eq_nil_iff.mpr hkeep]
    exact ⟨hwhole, nofun, .inl (of_decide_eq_true h)⟩
  next fraction hcons =>
    rw [hcons] at hu
    rw [Bool.and_eq_true, Bool.or_eq_true, decide_eq_true_eq, decide_eq_true_eq, List.all_eq_true] at h
    rw [← hu, List.takeWhile_append_of_pos hkeep, List.dropWhile_append_of_pos hkeep]
    simp only [ne_eq, not_true_eq_false, decide_false, Bool.false_eq_true, not_false_eq_true,
      List.takeWhile_cons_of_neg, List.dropWhile_cons_of_neg, List.append_nil, List.tail_cons]
    exact ⟨hwhole, h.2, h.1⟩
  next => cases h

/-- The parts of a plain decimal. -/
def Decimal.ofText (s : Text) (h : isDecimal s = true) : Decimal where
  negative := s.head? = some '-'
  whole := wholePart s
  fraction := fractionPart s
  isWhole := (parts_of_isDecimal h).1
  isFraction := (parts_of_isDecimal h).2.1

theorem value_ofText {s : Text} (h : isDecimal s = true) : (Decimal.ofText s h).value = decimalValue s := by
  unfold Decimal.value decimalValue
  simp only [Decimal.ofText, Decimal.size, decide_eq_true_eq]

/-- A sign goes before what is left of the parts, unless nothing is left of either. -/
theorem signed_text (p : Prop) [Decidable p] {i f : Text} (hi : i ≠ ['0']) {out : Text}
    (hout : out = if f ≠ [] then (if i = [] then ['0'] else i) ++ '.' :: f else if i = [] then ['0'] else i) :
    (if p ∧ out ≠ ['0'] then '-' :: out else out) =
      (if (decide p && !decide (i = [] ∧ f = [])) = true then ['-'] else []) ++
        ((if i = [] then ['0'] else i) ++ if f ≠ [] then '.' :: f else []) := by
  have hparts : out = (if i = [] then ['0'] else i) ++ if f ≠ [] then '.' :: f else [] := by
    rw [hout]
    split_ifs <;> simp
  have hzero : out ≠ ['0'] ↔ ¬ (i = [] ∧ f = []) := by
    by_cases hf : f = []
    · by_cases hnil : i = []
      · simp [hparts, hf, hnil]
      · simp [hparts, hf, hnil, hi]
    · refine iff_of_true (fun hsame ↦ ?_) fun hboth ↦ hf hboth.2
      rw [hparts, if_pos hf] at hsame
      have hlength := congrArg List.length hsame
      have hwhole : (if i = [] then ['0'] else i).length ≠ 0 := by
        split_ifs with hnil
        · decide
        · exact fun hzero ↦ hnil (List.length_eq_zero_iff.mp hzero)
      simp only [List.length_append, List.length_cons, List.length_nil] at hlength
      omega
  by_cases hneg : p ∧ ¬ (i = [] ∧ f = [])
  · have hsign : (decide p && !decide (i = [] ∧ f = [])) = true := by
      rw [decide_eq_true hneg.1, decide_eq_false hneg.2]
      rfl
    rw [if_pos ⟨hneg.1, hzero.mpr hneg.2⟩, if_pos hsign, ← hparts]
    rfl
  · have hsign : ¬ (decide p && !decide (i = [] ∧ f = [])) = true := by
      rw [Bool.and_eq_true, decide_eq_true_eq, Bool.not_eq_true', decide_eq_false_iff_not]
      exact hneg
    have hnot : ¬ (p ∧ out ≠ ['0']) := fun h ↦ hneg ⟨h.1, hzero.mp h.2⟩
    rw [if_neg hnot, if_neg hsign, ← hparts]
    rfl

theorem canonicalDecimal_eq {s : Text} (h : isDecimal s = true) :
    canonicalDecimal s = (Decimal.ofText s h).normal.text := by
  have hnought : (wholePart s).dropWhile (· = '0') ≠ ['0'] := by
    intro hsame
    exact Decimal.head?_dropWhile_ne (wholePart s) (by rw [hsame]; rfl)
  exact signed_text (s.head? = some '-') hnought rfl

/-- The parts of what is written are those of the decimal that is written. -/
theorem parts_text {d : Decimal} (hne : d.whole ≠ []) : isDecimal d.text = true ∧
    (d.text.head? = some '-' ↔ d.negative = true) ∧ wholePart d.text = d.whole ∧ fractionPart d.text = d.fraction := by
  obtain ⟨c, rest, hcons⟩ := List.exists_cons_of_ne_nil hne
  have hc : c.isDigit = true := d.isWhole c (hcons ▸ .head _)
  have hsign : c ≠ '-' ∧ c ≠ '+' := by
    constructor
    · rintro rfl
      cases hc
    · rintro rfl
      cases hc
  have hpoint : ∀ c ∈ d.whole, decide (c ≠ '.') = true := by
    intro c hc
    refine decide_eq_true ?_
    rintro rfl
    exact absurd (d.isWhole '.' hc) (by decide)
  have hdrop : dropSign d.text = d.whole ++ if d.fraction ≠ [] then '.' :: d.fraction else [] := by
    unfold Decimal.text
    cases d.negative with
    | true => rfl
    | false =>
      rw [if_neg Bool.false_ne_true, List.nil_append, hcons, List.cons_append]
      unfold dropSign
      split
      next heq => exact absurd (List.cons.inj heq).1 hsign.2
      next heq => exact absurd (List.cons.inj heq).1 hsign.1
      next => rfl
  have hhead : d.text.head? = some '-' ↔ d.negative = true := by
    unfold Decimal.text
    cases d.negative with
    | true => simp
    | false =>
      rw [if_neg Bool.false_ne_true, List.nil_append, hcons]
      simpa using hsign.1
  unfold isDecimal wholePart fractionPart
  rw [hdrop, hhead]
  by_cases hf : d.fraction = []
  · obtain ⟨htake, hdropped⟩ := spanDigits d.isWhole (show ∀ c, ([] : Text).head? = some c → c.isDigit = false from nofun)
    rw [List.append_nil] at htake hdropped
    rw [if_neg (not_not.mpr hf), List.append_nil, htake, hdropped, hf, List.takeWhile_eq_self_iff.mpr hpoint,
      List.dropWhile_eq_nil_iff.mpr hpoint]
    exact ⟨decide_eq_true hne, Iff.rfl, rfl, rfl⟩
  · have hpoint' : ∀ c, ('.' :: d.fraction).head? = some c → c.isDigit = false := by simp
    obtain ⟨htake, hdropped⟩ := spanDigits d.isWhole hpoint'
    rw [if_pos hf, htake, hdropped, List.takeWhile_append_of_pos hpoint, List.dropWhile_append_of_pos hpoint]
    have hall : d.fraction.all Char.isDigit = true := List.all_eq_true.mpr d.isFraction
    simp [hne, hall]

theorem normal_whole_ne_nil (d : Decimal) : d.normal.whole ≠ [] := by
  obtain hzero | ⟨hne, -⟩ := d.canonical_normal.whole
  · rw [hzero]
    decide
  · exact hne

theorem Decimal.text_inj {d d' : Decimal} (hne : d.whole ≠ []) (hne' : d'.whole ≠ []) (h : d.text = d'.text) :
    d = d' := by
  obtain ⟨-, hneg, hwhole, hfraction⟩ := parts_text hne
  obtain ⟨-, hneg', hwhole', hfraction'⟩ := parts_text hne'
  rw [h] at hneg hwhole hfraction
  obtain ⟨negative, whole, fraction, isWhole, isFraction⟩ := d
  obtain ⟨negative', whole', fraction', isWhole', isFraction'⟩ := d'
  have hnegative : negative = negative' := Bool.eq_iff_iff.mpr (hneg.symm.trans hneg')
  cases hnegative
  cases hwhole.symm.trans hwhole'
  cases hfraction.symm.trans hfraction'
  rfl

/-- Two decimals have one text exactly when they are one number. -/
theorem canonicalDecimal_eq_iff {s s' : Text} (h : isDecimal s = true) (h' : isDecimal s' = true) :
    canonicalDecimal s = canonicalDecimal s' ↔ decimalValue s = decimalValue s' := by
  rw [canonicalDecimal_eq h, canonicalDecimal_eq h', ← value_ofText h, ← value_ofText h',
    ← (Decimal.ofText s h).normal_value, ← (Decimal.ofText s' h').normal_value]
  constructor
  · intro hsame
    rw [Decimal.text_inj (normal_whole_ne_nil _) (normal_whole_ne_nil _) hsame]
  · intro hvalue
    rw [(Decimal.canonical_normal _).eq (Decimal.canonical_normal _) hvalue]

/-- The text that is written is a decimal that is written as it is. -/
theorem canonicalDecimal_canonical {s : Text} (h : isDecimal s = true) :
    isDecimal (canonicalDecimal s) = true ∧ decimalValue (canonicalDecimal s) = decimalValue s := by
  have hne := normal_whole_ne_nil (Decimal.ofText s h)
  obtain ⟨hdecimal, hneg, hwhole, hfraction⟩ := parts_text hne
  rw [canonicalDecimal_eq h]
  refine ⟨hdecimal, ?_⟩
  rw [← value_ofText h, ← Decimal.normal_value]
  unfold decimalValue Decimal.value Decimal.size
  rw [hwhole, hfraction]
  simp only [hneg]

theorem chars_of_isDecimal {s : Text} (h : isDecimal s = true) :
    ∀ c ∈ s, c.isDigit = true ∨ c ∈ ['+', '-', '.'] := by
  have hsigned : ∀ c ∈ s, c ∈ ['+', '-', '.'] ∨ c ∈ dropSign s := by
    intro c hc
    unfold dropSign
    split
    next => exact (List.mem_cons.mp hc).imp_left fun hplus ↦ by rw [hplus]; decide
    next => exact (List.mem_cons.mp hc).imp_left fun hminus ↦ by rw [hminus]; decide
    next => exact .inr hc
  have hdigits : ∀ c ∈ dropSign s, c = '.' ∨ c.isDigit = true := by
    have hu := List.takeWhile_append_dropWhile (p := Char.isDigit) (l := dropSign s)
    have hwhole : ∀ c ∈ (dropSign s).takeWhile Char.isDigit, c.isDigit = true := fun c hc ↦ List.mem_takeWhile_imp hc
    unfold isDecimal at h
    dsimp only at h
    intro c hc
    rw [← hu, List.mem_append] at hc
    obtain hc | hc := hc
    · exact .inr (hwhole c hc)
    · split at h
      next hnil =>
        rw [hnil] at hc
        cases hc
      next fraction hcons =>
        rw [hcons] at hc
        rw [Bool.and_eq_true, List.all_eq_true] at h
        exact (List.mem_cons.mp hc).imp_right fun hmem ↦ h.2 c hmem
      next => cases h
  intro c hc
  obtain hsign | hmem := hsigned c hc
  · exact .inr hsign
  · exact (hdigits c hmem).symm.imp_right fun hpoint ↦ by rw [hpoint]; decide

theorem jsTrim_of_isDecimal {s : Text} (h : isDecimal s = true) : jsTrim s = s := by
  refine jsTrim_of_forall fun c hc ↦ ?_
  obtain hdigit | hother := chars_of_isDecimal h c hc
  · exact isJsSpace_of_isDigit hdigit
  · have hall : ∀ c ∈ ['+', '-', '.'], isJsSpace c = false := by decide
    exact hall c hother

/-! ## Comparing -/

theorem canonicalNumber_decimal {v : Text} (h : isDecimal (jsTrim v) = true) :
    canonicalNumber v = canonicalDecimal (jsTrim v) :=
  if_pos h

/-- A canonical text is its own. -/
theorem canonicalNumber_canonicalDecimal {s : Text} (h : isDecimal s = true) :
    canonicalNumber (canonicalDecimal s) = canonicalDecimal s := by
  obtain ⟨hdecimal, hvalue⟩ := canonicalDecimal_canonical h
  have htrim := jsTrim_of_isDecimal hdecimal
  rw [canonicalNumber_decimal (htrim.symm ▸ hdecimal), htrim]
  exact (canonicalDecimal_eq_iff hdecimal h).mpr hvalue

/-- What becomes of a text that is no plain decimal. -/
theorem canonicalNumber_other {v : Text} (h : isDecimal (jsTrim v) = false) :
    canonicalNumber v = v ∨ ∃ negative m, numberOf (jsTrim v) = .finite negative m ∧ jsTrim v ≠ [] ∧
      canonicalNumber v = if isDecimal (JsNum.toText (.finite negative m)) then
        canonicalDecimal (JsNum.toText (.finite negative m)) else JsNum.toText (.finite negative m) := by
  unfold canonicalNumber
  dsimp only
  rw [if_neg (by simp [h])]
  split
  next negative m hnumber =>
    by_cases hnil : jsTrim v = []
    · exact .inl (if_pos hnil)
    · refine .inr ⟨negative, m, hnumber, hnil, ?_⟩
      rw [if_neg hnil]
      split_ifs with hdecimal
      · rw [jsTrim_of_isDecimal hdecimal]
      · rfl
  next => exact .inl rfl

theorem jsTrim_toText (negative : Bool) (m : Binary64.Magnitude) :
    jsTrim (JsNum.toText (.finite negative m)) = JsNum.toText (.finite negative m) := by
  obtain ⟨hplain, hsigned⟩ := (laidOut_toText m).jsTrim
  rw [JsNum.toText]
  split_ifs
  · exact hsigned
  · exact hplain

/-- The text of a number that is no plain decimal is left as it is. -/
theorem canonicalNumber_toText {negative : Bool} {m : Binary64.Magnitude}
    (h : isDecimal (JsNum.toText (.finite negative m)) = false) :
    canonicalNumber (JsNum.toText (.finite negative m)) = JsNum.toText (.finite negative m) := by
  have hpos : 0 < m.value := by
    by_contra hzero
    have htext : JsNum.toText (.finite negative m) = ['0'] := by
      rw [JsNum.toText, if_neg fun hboth ↦ hzero hboth.2, Binary64.Magnitude.toText, dif_neg hzero]
    rw [htext] at h
    cases h
  have htrim := jsTrim_toText negative m
  have hne : JsNum.toText (.finite negative m) ≠ [] := by
    obtain ⟨d, rest, hcons, -⟩ := (laidOut_toText m).head
    rw [JsNum.toText, hcons]
    split_ifs <;> exact List.cons_ne_nil _ _
  unfold canonicalNumber
  dsimp only
  rw [htrim, if_neg (by simp [h]), numberOf_toText hpos]
  dsimp only
  rw [if_neg hne, if_neg (by simp [h])]

theorem canonicalNumber_idem (v : Text) : canonicalNumber (canonicalNumber v) = canonicalNumber v := by
  cases h : isDecimal (jsTrim v) with
  | true => rw [canonicalNumber_decimal h, canonicalNumber_canonicalDecimal h]
  | false =>
    obtain hsame | ⟨negative, m, -, -, hout⟩ := canonicalNumber_other h
    · rw [hsame, hsame]
    · rw [hout]
      split_ifs with hdecimal
      · exact canonicalNumber_canonicalDecimal hdecimal
      · exact canonicalNumber_toText (Bool.eq_false_iff.mpr hdecimal)

/-- Another numeral has the text of a plain decimal exactly if its number has. -/
theorem canonicalNumber_other_iff {v d : Text} (hv : isDecimal (jsTrim v) = false) (hne : jsTrim v ≠ [])
    (hd : isDecimal (jsTrim d) = true) : canonicalNumber v = canonicalNumber d ↔
      ∃ negative m, numberOf (jsTrim v) = .finite negative m ∧
        isDecimal (JsNum.toText (.finite negative m)) = true ∧
        decimalValue (JsNum.toText (.finite negative m)) = decimalValue (jsTrim d) := by
  have hcanonical := (canonicalDecimal_canonical hd).1
  rw [canonicalNumber_decimal hd]
  constructor
  · intro hsame
    obtain hself | ⟨negative, m, hnumber, -, hout⟩ := canonicalNumber_other hv
    · rw [hself] at hsame
      rw [hsame, jsTrim_of_isDecimal hcanonical, hcanonical] at hv
      cases hv
    · rw [hout] at hsame
      split_ifs at hsame with hdecimal
      · exact ⟨negative, m, hnumber, hdecimal, (canonicalDecimal_eq_iff hdecimal hd).mp hsame⟩
      · rw [hsame] at hdecimal
        exact absurd hcanonical hdecimal
  · rintro ⟨negative, m, hnumber, hdecimal, hvalue⟩
    unfold canonicalNumber
    dsimp only
    rw [if_neg (by simp [hv]), hnumber]
    dsimp only
    rw [if_neg hne, if_pos hdecimal, jsTrim_of_isDecimal hdecimal]
    exact (canonicalDecimal_eq_iff hdecimal hd).mpr hvalue

theorem isDecimal_of_isExponentForm {s : Text} (h : isExponentForm s = true) : isDecimal s = false ∧ s ≠ [] := by
  unfold isExponentForm at h
  rw [Bool.and_eq_true, Bool.or_eq_true, decide_eq_true_eq, decide_eq_true_eq] at h
  constructor
  · by_contra hdecimal
    have hchars := chars_of_isDecimal (Bool.not_eq_false _ ▸ hdecimal)
    obtain he | he := h.2
    · exact absurd (hchars _ he) (by decide)
    · exact absurd (hchars _ he) (by decide)
  · rintro rfl
    exact h.2.elim nofun nofun

/-- Plain decimals have one text exactly when they are one number, the text of a text is the text itself, and a
numeral with a power of ten has the text of a plain decimal exactly if that is what its double is written as. -/
theorem canonicalNumber_exact :
    (∀ a b, isDecimal (jsTrim a) = true → isDecimal (jsTrim b) = true →
      (canonicalNumber a = canonicalNumber b ↔ decimalValue (jsTrim a) = decimalValue (jsTrim b))) ∧
    (∀ v, canonicalNumber (canonicalNumber v) = canonicalNumber v) ∧
    ∀ v d, isExponentForm (jsTrim v) = true → isDecimal (jsTrim d) = true →
      (canonicalNumber v = canonicalNumber d ↔ ∃ negative m, numberOf (jsTrim v) = .finite negative m ∧
        isDecimal (JsNum.toText (.finite negative m)) = true ∧
        decimalValue (JsNum.toText (.finite negative m)) = decimalValue (jsTrim d)) := by
  refine ⟨fun a b ha hb ↦ ?_, canonicalNumber_idem, fun v d hv hd ↦ ?_⟩
  · rw [canonicalNumber_decimal ha, canonicalNumber_decimal hb]
    exact canonicalDecimal_eq_iff ha hb
  · obtain ⟨hother, hne⟩ := isDecimal_of_isExponentForm hv
    exact canonicalNumber_other_iff hother hne hd

theorem canonicalNumber_exact_padded : canonicalNumber " +01.50".toList = canonicalNumber "1.5".toList ∧
    canonicalNumber "-.5".toList ≠ canonicalNumber "0.5".toList ∧
    (canonicalNumber "1e3".toList = canonicalNumber "1000".toList ↔ ∃ negative m,
      numberOf "1e3".toList = .finite negative m ∧ isDecimal (JsNum.toText (.finite negative m)) = true ∧
        decimalValue (JsNum.toText (.finite negative m)) = decimalValue "1000".toList) := by
  obtain ⟨hdecimals, -, hexponents⟩ := canonicalNumber_exact
  refine ⟨(hdecimals " +01.50".toList "1.5".toList (by decide) (by decide)).mpr ?_,
    mt (hdecimals "-.5".toList "0.5".toList (by decide) (by decide)).mp ?_,
    hexponents "1e3".toList "1000".toList (by decide) (by decide)⟩
  · have hsame : ((150 : ℕ) : ℚ) / 10 ^ 2 = ((15 : ℕ) : ℚ) / 10 ^ 1 := by norm_num
    exact hsame
  · intro hsame
    have hdiffer : -(((5 : ℕ) : ℚ) / 10 ^ 1) ≠ ((5 : ℕ) : ℚ) / 10 ^ 1 := by norm_num
    exact hdiffer hsame

/-- The number of a numeral with a power of ten. -/
def exponentValue (s : Text) : Option ℚ :=
  (unsignedDecimal (dropSign s)).map fun size ↦ if s.head? = some '-' then -size else size

/-- What is too small for a double is taken for nought. -/
theorem canonicalNumber_underflow : isExponentForm "1e-400".toList = true ∧ isDecimal ['0'] = true ∧
    canonicalNumber "1e-400".toList = canonicalNumber ['0'] ∧
    exponentValue "1e-400".toList ≠ some (decimalValue ['0']) := by
  have hread : unsignedDecimal "1e-400".toList = some (((1 : ℕ) : ℚ) * 10 ^ (-(400 : ℕ) : ℤ)) := rfl
  have hpositive : (0 : ℚ) < ((1 : ℕ) : ℚ) * 10 ^ (-(400 : ℕ) : ℤ) := by positivity
  have hpowers : (2 : ℚ) ^ 1075 < 10 ^ 400 := by
    calc
      (2 : ℚ) ^ 1075 < 2 ^ (3 * 400) := pow_lt_pow_right₀ (by norm_num) (by norm_num)
      _ = (2 ^ 3) ^ 400 := pow_mul 2 3 400
      _ < 10 ^ 400 := pow_lt_pow_left₀ (by norm_num) (by norm_num) (by norm_num)
  have hsmall : ((1 : ℕ) : ℚ) * 10 ^ (-(400 : ℕ) : ℤ) < 2 ^ (-1075 : ℤ) := by
    rw [Nat.cast_one, one_mul, zpow_neg, zpow_natCast]
    exact inv_strictAnti₀ (by positivity) hpowers
  have hnumber : numberOf "1e-400".toList = .finite false .zero := by
    have hdecimal : numberOf "1e-400".toList = decimalNumber false "1e-400".toList := rfl
    have hround := Binary64.Magnitude.round_eq (m := .zero) hpositive.le (Binary64.toDouble_of_small hpositive hsmall)
    rw [hdecimal]
    unfold decimalNumber
    rw [if_neg (by decide)]
    split
    next x hx =>
      rw [hread] at hx
      cases hx
      unfold JsNum.ofNonneg
      rw [hround]
    next hnone =>
      rw [hread] at hnone
      cases hnone
  have htext : JsNum.toText (.finite false .zero) = ['0'] := by
    rw [JsNum.toText, if_neg (by simp), Binary64.Magnitude.toText]
    exact dif_neg (lt_irrefl 0)
  refine ⟨by decide, by decide, ?_, ?_⟩
  · refine (canonicalNumber_other_iff (d := ['0']) (by decide) (by decide) (by decide)).mpr
      ⟨false, .zero, hnumber, ?_, ?_⟩
    · rw [htext]
      decide
    · rw [htext]
      rfl
  · intro hsame
    have hvalue : ((1 : ℕ) : ℚ) * 10 ^ (-(400 : ℕ) : ℤ) = ((0 : ℕ) : ℚ) / 10 ^ 0 := Option.some.inj hsame
    rw [hvalue] at hpositive
    norm_num at hpositive

end Squaero.Front
