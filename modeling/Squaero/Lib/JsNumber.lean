import Squaero.Lib.Binary64
import Squaero.Lib.Text

/-!
# Numbers of JavaScript

`Number(text)` and `String(number)`. A finite number is read back from its own text.
-/

namespace Squaero.Lib

open Binary64

/-- A value of the type `number`; there are two zeros. -/
inductive JsNum
  | finite (negative : Bool) (m : Magnitude)
  | infinite (negative : Bool)
  | nan

/-! ## Digits -/

theorem natOfDigits_append (a b : Text) :
    Json.natOfDigits (a ++ b) = Json.natOfDigits a * 10 ^ b.length + Json.natOfDigits b := by
  have hfold (start : ℕ) : b.foldl (fun n c ↦ n * 10 + (c.toNat - '0'.toNat)) start =
      start * 10 ^ b.length + Json.natOfDigits b := by
    induction b using List.reverseRecOn generalizing start with
    | nil => simp [Json.natOfDigits]
    | append_singleton b c ih =>
      have hzero := ih 0
      unfold Json.natOfDigits at hzero ih ⊢
      rw [List.foldl_append, List.foldl_append, ih, List.length_append, List.length_singleton, pow_succ]
      simp only [List.foldl_cons, List.foldl_nil]
      ring
  unfold Json.natOfDigits
  rw [List.foldl_append]
  exact hfold _

theorem natOfDigits_replicate (n : ℕ) : Json.natOfDigits (List.replicate n '0') = 0 := by
  induction n with
  | zero => rfl
  | succ n ih =>
    rw [List.replicate_succ', natOfDigits_append, ih]
    rfl

theorem natOfDigits_concat (a : Text) (c : Char) :
    Json.natOfDigits (a ++ [c]) = Json.natOfDigits a * 10 + (c.toNat - '0'.toNat) := by
  rw [natOfDigits_append, List.length_singleton, pow_one]
  simp [Json.natOfDigits]

theorem toNat_of_isDigit {c : Char} (h : c.isDigit = true) : '0'.toNat ≤ c.toNat ∧ c.toNat ≤ '9'.toNat := by
  simp only [Char.isDigit, Bool.and_eq_true, decide_eq_true_eq, ge_iff_le, UInt32.le_iff_toNat_le] at h
  exact h

theorem natOfDigits_lt {a : Text} (ha : ∀ c ∈ a, c.isDigit = true) : Json.natOfDigits a < 10 ^ a.length := by
  induction a using List.reverseRecOn with
  | nil => decide
  | append_singleton a c ih =>
    obtain ⟨ha, hc⟩ := List.forall_mem_append.mp ha
    have hdigit := toNat_of_isDigit (hc c (.head _))
    have hnine : '9'.toNat = 57 := rfl
    have hzero : '0'.toNat = 48 := rfl
    have hshort := ih ha
    rw [natOfDigits_concat, List.length_append, List.length_singleton, pow_succ]
    omega

/-- Digits without a nought in front are a number of as many digits. -/
theorem le_natOfDigits {a : Text} (ha : ∀ c ∈ a, c.isDigit = true) (hne : a ≠ []) (hhead : a.head? ≠ some '0') :
    10 ^ (a.length - 1) ≤ Json.natOfDigits a := by
  obtain ⟨c, a, rfl⟩ := List.exists_cons_of_ne_nil hne
  have hdigit := toNat_of_isDigit (ha c (.head _))
  have hfirst : c.toNat ≠ '0'.toNat := by
    intro heq
    exact hhead (congrArg some (Char.toNat_inj.mp heq))
  have hsplit := natOfDigits_append [c] a
  have hone : Json.natOfDigits [c] = c.toNat - '0'.toNat := by simp [Json.natOfDigits]
  rw [hone, List.singleton_append] at hsplit
  rw [hsplit, List.length_cons, Nat.add_sub_cancel]
  have hlarge : 10 ^ a.length ≤ (c.toNat - '0'.toNat) * 10 ^ a.length := Nat.le_mul_of_pos_left _ (by omega)
  omega

theorem natOfDigits_inj {a b : Text} (ha : ∀ c ∈ a, c.isDigit = true) (hb : ∀ c ∈ b, c.isDigit = true)
    (hlength : a.length = b.length) (h : Json.natOfDigits a = Json.natOfDigits b) : a = b := by
  induction a using List.reverseRecOn generalizing b with
  | nil => exact (List.length_eq_zero_iff.mp hlength.symm).symm
  | append_singleton a c ih =>
    obtain ⟨b, d, rfl⟩ := List.eq_nil_or_concat b |>.resolve_left fun hnil ↦ by simp [hnil] at hlength
    rw [List.concat_eq_append] at hb hlength h ⊢
    obtain ⟨ha, hc⟩ := List.forall_mem_append.mp ha
    obtain ⟨hb, hd⟩ := List.forall_mem_append.mp hb
    have hcdigit := toNat_of_isDigit (hc c (.head _))
    have hddigit := toNat_of_isDigit (hd d (.head _))
    have hnine : '9'.toNat = 57 := rfl
    have hzero : '0'.toNat = 48 := rfl
    rw [natOfDigits_concat, natOfDigits_concat] at h
    have hsame : a = b := ih ha hb (by simpa using hlength) (by omega)
    have hlast : c = d := Char.toNat_inj.mp (by omega)
    rw [hsame, hlast]

theorem natOfDigits_dropWhile (a : Text) : Json.natOfDigits (a.dropWhile (· = '0')) = Json.natOfDigits a := by
  induction a with
  | nil => rfl
  | cons c a ih =>
    by_cases hc : c = '0'
    · rw [List.dropWhile_cons_of_pos (by simp [hc]), ih, hc]
      have hsplit := natOfDigits_append ['0'] a
      have hzero : Json.natOfDigits ['0'] = 0 := by decide
      rw [hzero, Nat.zero_mul, Nat.zero_add] at hsplit
      exact hsplit.symm
    · rw [List.dropWhile_cons_of_neg (by simp [hc])]

/-! ## Writing -/

/-- A power of ten with its sign. -/
def powerText (n : ℤ) : Text := 'e' :: (if n < 0 then '-' else '+') :: Nat.toDigits 10 n.natAbs

/-- `s * 10 ^ e` as `String` lays it out. -/
def layout (s : ℕ) (e : ℤ) : Text :=
  let digits := Nat.toDigits 10 s
  let k : ℤ := digits.length
  let n := k + e
  if k ≤ n ∧ n ≤ 21 then digits ++ List.replicate (n - k).toNat '0'
  else if 0 < n ∧ n ≤ 21 then digits.take n.toNat ++ '.' :: digits.drop n.toNat
  else if -6 < n ∧ n ≤ 0 then "0.".toList ++ (List.replicate (-n).toNat '0' ++ digits)
  else if k = 1 then digits ++ powerText (n - 1)
  else digits.take 1 ++ '.' :: (digits.drop 1 ++ powerText (n - 1))

def Binary64.Magnitude.toText (m : Magnitude) : Text :=
  if h : 0 < m.value then layout (m.shortest h).1 (m.shortest h).2 else ['0']

/-- `String(n)` -/
def JsNum.toText : JsNum → Text
  | .finite negative m => if negative ∧ 0 < m.value then '-' :: m.toText else m.toText
  | .infinite negative => if negative then "-Infinity".toList else "Infinity".toList
  | .nan => "NaN".toList

/-! ## Reading -/

def readPower : Text → Option ℤ
  | '+' :: digits => if digits ≠ [] ∧ digits.all Char.isDigit then some (Json.natOfDigits digits) else none
  | '-' :: digits => if digits ≠ [] ∧ digits.all Char.isDigit then some (-Json.natOfDigits digits) else none
  | digits => if digits ≠ [] ∧ digits.all Char.isDigit then some (Json.natOfDigits digits) else none

/-- A number in front of the power of ten behind it, if any. -/
def scaled (value : ℚ) : Text → Option ℚ
  | [] => some value
  | c :: rest => if c = 'e' ∨ c = 'E' then (readPower rest).map fun n ↦ value * 10 ^ n else none

/-- `StrUnsignedDecimalLiteral`, less `Infinity`. -/
def unsignedDecimal (s : Text) : Option ℚ :=
  let whole := s.takeWhile Char.isDigit
  match s.dropWhile Char.isDigit with
  | '.' :: rest =>
    let fraction := rest.takeWhile Char.isDigit
    if whole = [] ∧ fraction = [] then none
    else scaled (Json.natOfDigits (whole ++ fraction) / 10 ^ fraction.length) (rest.dropWhile Char.isDigit)
  | rest => if whole = [] then none else scaled (Json.natOfDigits whole) rest

theorem scaled_nonneg {value x : ℚ} {rest : Text} (hvalue : 0 ≤ value) (h : scaled value rest = some x) : 0 ≤ x := by
  cases rest with
  | nil => exact Option.some.inj h ▸ hvalue
  | cons c rest =>
    rw [scaled] at h
    split_ifs at h
    obtain ⟨n, -, rfl⟩ := Option.map_eq_some_iff.mp h
    positivity

theorem unsignedDecimal_nonneg {s : Text} {x : ℚ} (h : unsignedDecimal s = some x) : 0 ≤ x := by
  unfold unsignedDecimal at h
  dsimp only at h
  split at h
  · split_ifs at h
    exact scaled_nonneg (by positivity) h
  · split_ifs at h
    exact scaled_nonneg (by positivity) h

/-- A value rounded to a number. -/
def JsNum.ofNonneg (negative : Bool) (x : ℚ) (hx : 0 ≤ x) : JsNum :=
  match Magnitude.round x hx with
  | some m => .finite negative m
  | none => .infinite negative

def digitValue (c : Char) : ℕ := if c.isDigit then c.toNat - '0'.toNat else (c.toLower.toNat - 'a'.toNat) + 10

/-- The base that the prefix of a literal names. -/
def baseOf : Char → Option ℕ
  | 'x' => some 16
  | 'X' => some 16
  | 'o' => some 8
  | 'O' => some 8
  | 'b' => some 2
  | 'B' => some 2
  | _ => none

/-- `0x1F`, `0o17`, `0b11`, behind the zero. -/
def radixLiteral : Text → Option ℕ
  | c :: digits =>
    (baseOf c).bind fun base ↦
      if digits ≠ [] ∧ digits.all (fun d ↦ d.isAlphanum && digitValue d < base) then
        some (digits.foldl (fun n d ↦ n * base + digitValue d) 0)
      else none
  | [] => none

def decimalNumber (negative : Bool) (s : Text) : JsNum :=
  if s = "Infinity".toList then .infinite negative
  else
    match h : unsignedDecimal s with
    | some x => .ofNonneg negative x (unsignedDecimal_nonneg h)
    | none => .nan

/-- `Number(text)` -/
def numberOf (text : Text) : JsNum :=
  match jsTrim text with
  | [] => .finite false .zero
  | '-' :: s => decimalNumber true s
  | '+' :: s => decimalNumber false s
  | '0' :: s =>
    match radixLiteral s with
    | some n => .ofNonneg false n (Nat.cast_nonneg n)
    | none => decimalNumber false ('0' :: s)
  | s => decimalNumber false s

/-! ## Round trip -/

section

variable {whole fraction rest : Text} (hwhole : ∀ c ∈ whole, c.isDigit = true)
  (hrest : ∀ c, rest.head? = some c → c.isDigit = false)

include hwhole

theorem spanDigits {rest : Text} (hrest : ∀ c, rest.head? = some c → c.isDigit = false) :
    (whole ++ rest).takeWhile Char.isDigit = whole ∧ (whole ++ rest).dropWhile Char.isDigit = rest := by
  have hnone : rest.takeWhile Char.isDigit = [] ∧ rest.dropWhile Char.isDigit = rest := by
    cases rest with
    | nil => exact ⟨rfl, rfl⟩
    | cons c rest => simp [hrest c rfl]
  rw [List.takeWhile_append_of_pos hwhole, List.dropWhile_append_of_pos hwhole, hnone.1, hnone.2, List.append_nil]
  exact ⟨rfl, rfl⟩

include hrest

theorem unsignedDecimal_point (hfraction : ∀ c ∈ fraction, c.isDigit = true) (hne : whole ≠ [] ∨ fraction ≠ []) :
    unsignedDecimal (whole ++ '.' :: (fraction ++ rest)) =
      scaled (Json.natOfDigits (whole ++ fraction) / 10 ^ fraction.length) rest := by
  have hpoint : ∀ c, ('.' :: (fraction ++ rest)).head? = some c → c.isDigit = false := by
    intro c hc
    rw [← Option.some.inj hc]
    decide
  obtain ⟨htake, hdrop⟩ := spanDigits hwhole hpoint
  obtain ⟨htake', hdrop'⟩ := spanDigits hfraction hrest
  have hsome : ¬ (whole = [] ∧ fraction = []) := fun h ↦ hne.elim (· h.1) (· h.2)
  unfold unsignedDecimal
  rw [htake, hdrop]
  simp only [htake', hdrop', if_neg hsome]

theorem unsignedDecimal_whole (hpoint : rest.head? ≠ some '.') (hne : whole ≠ []) :
    unsignedDecimal (whole ++ rest) = scaled (Json.natOfDigits whole) rest := by
  obtain ⟨htake, hdrop⟩ := spanDigits hwhole hrest
  unfold unsignedDecimal
  rw [htake, hdrop]
  split
  next more => exact absurd rfl hpoint
  next => rw [if_neg hne]

end

theorem scaled_power (value : ℚ) (n : ℤ) :
    scaled value (powerText n) = some (value * 10 ^ n) := by
  have hdigits := Json.digits_toDigits n.natAbs
  have hok : Nat.toDigits 10 n.natAbs ≠ [] ∧ (Nat.toDigits 10 n.natAbs).all Char.isDigit = true :=
    ⟨hdigits.1, List.all_eq_true.mpr hdigits.2⟩
  rw [powerText, scaled, if_pos (.inl rfl)]
  split_ifs with hneg
  · rw [readPower, if_pos hok, Json.natOfDigits_toDigits, Option.map_some]
    have habs : -(n.natAbs : ℤ) = n := by omega
    rw [habs]
  · rw [readPower, if_pos hok, Json.natOfDigits_toDigits, Option.map_some]
    have habs : (n.natAbs : ℤ) = n := by omega
    rw [habs]

/-- What is laid out is read as the number that it is. -/
theorem unsignedDecimal_layout (s : ℕ) (e : ℤ) : unsignedDecimal (layout s e) = some ((s : ℚ) * 10 ^ e) := by
  have hdigits := Json.digits_toDigits s
  have hvalue := Json.natOfDigits_toDigits s
  have hten : (10 : ℚ) ≠ 0 := by norm_num
  have hnil : ∀ c, ([] : Text).head? = some c → c.isDigit = false := nofun
  have hpower (n : ℤ) : ∀ c, (powerText n).head? = some c → c.isDigit = false := by
    intro c hc
    rw [← Option.some.inj hc]
    decide
  unfold layout
  dsimp only
  generalize Nat.toDigits 10 s = digits at hdigits hvalue ⊢
  have hpos : 0 < digits.length := List.length_pos_of_ne_nil hdigits.1
  have htake (n : ℕ) : ∀ c ∈ digits.take n, c.isDigit = true := fun c hc ↦ hdigits.2 c (List.mem_of_mem_take hc)
  have hdrop (n : ℕ) : ∀ c ∈ digits.drop n, c.isDigit = true := fun c hc ↦ hdigits.2 c (List.mem_of_mem_drop hc)
  have hzeros {j : ℕ} : ∀ c ∈ List.replicate j '0', c.isDigit = true := by
    intro c hc
    rw [List.eq_of_mem_replicate hc]
    decide
  split_ifs with hint hfixed hsmall hone
  · -- no point
    obtain ⟨j, hj⟩ := Int.eq_ofNat_of_zero_le (by omega : 0 ≤ e)
    have hcount : ((digits.length : ℤ) + e - digits.length).toNat = j := by omega
    have hread := unsignedDecimal_whole (List.forall_mem_append.mpr ⟨hdigits.2, hzeros (j := j)⟩) hnil nofun
      (by simp [hdigits.1])
    rw [List.append_nil] at hread
    rw [hcount, hread, natOfDigits_append, natOfDigits_replicate, hvalue, List.length_replicate, hj, scaled]
    push_cast
    simp
  · -- a point within the digits
    obtain ⟨n, hn⟩ := Int.eq_ofNat_of_zero_le hfixed.1.le
    have hlength : (digits.drop n).length = digits.length - n := List.length_drop
    have he : e = -((digits.length - n : ℕ) : ℤ) := by omega
    have hread := unsignedDecimal_point (htake n) hnil (hdrop n) (.inl ?_)
    · rw [List.append_nil] at hread
      rw [hn, Int.toNat_natCast, hread, List.take_append_drop, hvalue, hlength, scaled, he, zpow_neg, zpow_natCast,
        div_eq_mul_inv]
    · rw [Ne, List.take_eq_nil_iff, not_or]
      exact ⟨by omega, hdigits.1⟩
  · -- zeros behind the point
    obtain ⟨n, hn⟩ := Int.eq_ofNat_of_zero_le (by omega : 0 ≤ -((digits.length : ℤ) + e))
    have hzero : ∀ c ∈ ['0'], c.isDigit = true := by decide
    have he : e = -((n + digits.length : ℕ) : ℤ) := by omega
    have hread := unsignedDecimal_point hzero hnil
      (List.forall_mem_append.mpr ⟨hzeros (j := n), hdigits.2⟩) (.inl (by decide))
    rw [List.append_nil] at hread
    have hnought : Json.natOfDigits ['0'] = 0 := by decide
    rw [hn, Int.toNat_natCast]
    refine hread.trans ?_
    rw [natOfDigits_append, natOfDigits_append, natOfDigits_replicate, hvalue, hnought, scaled, List.length_append,
      List.length_replicate, he, zpow_neg, zpow_natCast, div_eq_mul_inv]
    simp
  · -- one digit and a power of ten
    have hread := unsignedDecimal_whole hdigits.2 (hpower (digits.length + e - 1)) (by simp [powerText]) hdigits.1
    have he : (digits.length : ℤ) + e - 1 = e := by omega
    rw [hread, hvalue, scaled_power, he]
  · -- a point behind the first digit, and a power of ten
    have hread := unsignedDecimal_point (htake 1) (hpower (digits.length + e - 1)) (hdrop 1) (.inl ?_)
    · have hlength : (digits.drop 1).length = digits.length - 1 := List.length_drop
      have he : (digits.length : ℤ) + e - 1 = ((digits.length - 1 : ℕ) : ℤ) + e := by omega
      rw [hread, List.take_append_drop, hvalue, scaled_power, hlength, he, zpow_add₀ hten, zpow_natCast]
      field_simp
    · rw [Ne, List.take_eq_nil_iff, not_or]
      exact ⟨by omega, hdigits.1⟩

/-- A text begins with a digit, and nothing in it but the digits and their signs. -/
structure LaidOut (text : Text) : Prop where
  head : ∃ d rest, text = d :: rest ∧ d.isDigit = true
  chars : ∀ c ∈ text, c.isDigit = true ∨ c ∈ ['.', 'e', '-', '+']

theorem laidOut_layout (s : ℕ) (e : ℤ) : LaidOut (layout s e) := by
  have hdigits := Json.digits_toDigits s
  have hpower (n : ℤ) : ∀ c ∈ powerText n, c.isDigit = true ∨ c ∈ ['.', 'e', '-', '+'] := by
    intro c hc
    have hn := Json.digits_toDigits n.natAbs
    unfold powerText at hc
    obtain rfl | hc := List.mem_cons.mp hc
    · exact .inr (by decide)
    · obtain rfl | hc := List.mem_cons.mp hc
      · split_ifs <;> exact .inr (by decide)
      · exact .inl (hn.2 c hc)
  have hzero (j : ℕ) : ∀ c ∈ List.replicate j '0', c.isDigit = true := by
    intro c hc
    rw [List.eq_of_mem_replicate hc]
    decide
  obtain ⟨d, more, hcons⟩ := List.exists_cons_of_ne_nil hdigits.1
  have hd : d.isDigit = true := hdigits.2 d (hcons ▸ .head _)
  unfold layout
  dsimp only
  generalize Nat.toDigits 10 s = digits at hdigits hcons ⊢
  have hall : ∀ c ∈ digits, c.isDigit = true ∨ c ∈ ['.', 'e', '-', '+'] := fun c hc ↦ .inl (hdigits.2 c hc)
  split_ifs with hint hfixed hsmall hone
  · refine ⟨⟨d, _, by rw [hcons]; rfl, hd⟩, List.forall_mem_append.mpr ⟨hall, fun c hc ↦ .inl (hzero _ c hc)⟩⟩
  · obtain ⟨n, hn⟩ := Int.eq_ofNat_of_zero_le hfixed.1.le
    have hne : n ≠ 0 := by omega
    obtain ⟨n, rfl⟩ := Nat.exists_eq_succ_of_ne_zero hne
    refine ⟨⟨d, more.take n ++ '.' :: digits.drop (n + 1), by rw [hn, hcons]; rfl, hd⟩, ?_⟩
    refine List.forall_mem_append.mpr ⟨fun c hc ↦ hall c (List.mem_of_mem_take hc), ?_⟩
    exact List.forall_mem_cons.mpr ⟨.inr (by decide), fun c hc ↦ hall c (List.mem_of_mem_drop hc)⟩
  · refine ⟨⟨'0', _, rfl, by decide⟩, List.forall_mem_append.mpr ⟨by decide, ?_⟩⟩
    exact List.forall_mem_append.mpr ⟨fun c hc ↦ .inl (hzero _ c hc), hall⟩
  · exact ⟨⟨d, _, by rw [hcons]; rfl, hd⟩, List.forall_mem_append.mpr ⟨hall, hpower _⟩⟩
  · refine ⟨⟨d, _, by rw [hcons]; rfl, hd⟩, ?_⟩
    refine List.forall_mem_append.mpr ⟨fun c hc ↦ hall c (List.mem_of_mem_take hc), ?_⟩
    refine List.forall_mem_cons.mpr ⟨.inr (by decide), ?_⟩
    exact List.forall_mem_append.mpr ⟨fun c hc ↦ hall c (List.mem_of_mem_drop hc), hpower _⟩

theorem laidOut_toText (m : Magnitude) : LaidOut m.toText := by
  unfold Magnitude.toText
  split_ifs
  · exact laidOut_layout _ _
  · exact ⟨⟨'0', [], rfl, by decide⟩, by decide⟩

theorem isJsSpace_of_isDigit {c : Char} (h : c.isDigit = true) : isJsSpace c = false := by
  have hspace := isSpace_of_isDigit h
  cases hjs : isJsSpace c with
  | false => rfl
  | true =>
    have hwide := isWide_of_isJsSpace hjs hspace
    rw [isWide_of_isDigit h] at hwide
    cases hwide

theorem LaidOut.jsTrim {text : Text} (h : LaidOut text) : Squaero.Lib.jsTrim text = text ∧
    Squaero.Lib.jsTrim ('-' :: text) = '-' :: text := by
  have hspace : ∀ c ∈ text, isJsSpace c = false := by
    intro c hc
    obtain hdigit | hother := h.chars c hc
    · exact isJsSpace_of_isDigit hdigit
    · have hall : ∀ c ∈ ['.', 'e', '-', '+'], isJsSpace c = false := by decide
      exact hall c hother
  exact ⟨jsTrim_of_forall hspace, jsTrim_of_forall (List.forall_mem_cons.mpr ⟨by decide, hspace⟩)⟩

theorem LaidOut.numberOf {text : Text} (h : LaidOut text) : Squaero.Lib.numberOf text = decimalNumber false text ∧
    Squaero.Lib.numberOf ('-' :: text) = decimalNumber true text := by
  obtain ⟨hplain, hsigned⟩ := h.jsTrim
  obtain ⟨d, rest, rfl, hd⟩ := h.head
  unfold Squaero.Lib.numberOf
  rw [hplain, hsigned]
  refine ⟨?_, rfl⟩
  have hsign : d ≠ '-' ∧ d ≠ '+' := by
    constructor
    · rintro rfl
      cases hd
    · rintro rfl
      cases hd
  by_cases hzero : d = '0'
  · subst hzero
    have hradix : radixLiteral rest = none := by
      cases rest with
      | nil => rfl
      | cons c rest =>
        have hbase : baseOf c = none := by
          obtain hdigit | hother := h.chars c (.tail _ (.head _))
          · unfold baseOf
            split <;> first | rfl | exact absurd hdigit (by decide)
          · have hall : ∀ c ∈ ['.', 'e', '-', '+'], baseOf c = none := by decide
            exact hall c hother
        rw [radixLiteral, hbase]
        rfl
    simp only [hradix]
  · split
    next hnil => cases hnil
    next heq => exact absurd (List.cons.inj heq).1 hsign.1
    next heq => exact absurd (List.cons.inj heq).1 hsign.2
    next heq => exact absurd (List.cons.inj heq).1 hzero
    next => rfl

theorem decimalNumber_toText (negative : Bool) {m : Magnitude} (h : 0 < m.value) :
    decimalNumber negative m.toText = .finite negative m := by
  have hlaid := laidOut_toText m
  obtain ⟨d, rest, hcons, hd⟩ := hlaid.head
  have hfinite : m.toText ≠ "Infinity".toList := by
    rw [hcons]
    intro heq
    rw [(List.cons.inj heq).1] at hd
    cases hd
  have hread : unsignedDecimal m.toText = some (((m.shortest h).1 : ℚ) * 10 ^ (m.shortest h).2) := by
    unfold Magnitude.toText
    rw [dif_pos h, unsignedDecimal_layout]
  have hdouble := of_decide_eq_true (m.reads_shortest h)
  unfold decimalNumber
  rw [if_neg hfinite]
  split
  next x hx =>
    rw [hread] at hx
    cases hx
    unfold JsNum.ofNonneg
    rw [Magnitude.round_eq _ hdouble]
  next hnone =>
    rw [hread] at hnone
    cases hnone

/-- A number is read back from its own text. -/
theorem numberOf_toText {negative : Bool} {m : Magnitude} (h : 0 < m.value) :
    Squaero.Lib.numberOf (JsNum.toText (.finite negative m)) = .finite negative m := by
  obtain ⟨hplain, hsigned⟩ := (laidOut_toText m).numberOf
  cases negative with
  | true =>
    rw [JsNum.toText, if_pos ⟨rfl, h⟩, hsigned]
    exact decimalNumber_toText true h
  | false =>
    rw [JsNum.toText, if_neg (by simp), hplain]
    exact decimalNumber_toText false h

end Squaero.Lib
