import Squaero.Lib.Json
import Mathlib.Data.List.TakeDrop

/-!
# The grammar of JSON

`Spells` derives the texts that write a value: numbers without leading zeros, strings in double quotes
with their escapes, and blanks around the parts of arrays and objects. The reader reads every text of the
grammar, in front of anything that does not go on with a number.
-/

namespace Squaero.Lib.Json

/-- The blanks of JSON. -/
def isBlank (c : Char) : Bool := c = ' ' || c = '\n' || c = '\r' || c = '\t'

def Blanks (text : Text) : Prop := ∀ c ∈ text, isBlank c = true

/-- What stands between the quotes of a string, and its code units. -/
inductive Body : Text → List ℕ → Prop
  | nil : Body [] []
  | plain {c : Char} {text : Text} {units : List ℕ} (hquote : c ≠ '"') (hescape : c ≠ '\\')
    (hcontrol : 0x20 ≤ c.toNat) (h : Body text units) : Body (c :: text) (c.toNat :: units)
  | escape {e c : Char} {text : Text} {units : List ℕ} (he : escaped e = some c) (h : Body text units) :
    Body ('\\' :: e :: text) (c.toNat :: units)
  | unit {a b c d : Char} {unit : ℕ} {text : Text} {units : List ℕ} (hunit : hex4 a b c d = some unit)
    (h : Body text units) : Body ('\\' :: 'u' :: a :: b :: c :: d :: text) (unit :: units)

def Digits (text : Text) : Prop := text ≠ [] ∧ ∀ c ∈ text, c.isDigit = true

def IsFraction (text : Text) : Prop := text = [] ∨ ∃ digits, Digits digits ∧ text = '.' :: digits

def IsExponent (text : Text) : Prop :=
  text = [] ∨ ∃ e sign digits, e ∈ ['e', 'E'] ∧ sign ∈ [[], ['+'], ['-']] ∧ Digits digits ∧
    text = e :: (sign ++ digits)

/-- The parts of a number. -/
structure NumberParts (text sign whole fraction exponent : Text) : Prop where
  isSign : sign = [] ∨ sign = ['-']
  isWhole : Digits whole
  noZero : whole = ['0'] ∨ whole.head? ≠ some '0'
  isFraction : IsFraction fraction
  isExponent : IsExponent exponent
  text_eq : text = sign ++ (whole ++ (fraction ++ exponent))

def IsNumber (text : Text) : Prop := ∃ sign whole fraction exponent,
  NumberParts text sign whole fraction exponent

/-- The number that a text writes. -/
def numberValue (text : Text) : ℚ :=
  match readNumber text with
  | some (.num value, _) => value
  | _ => 0

/-- What a text may be: a value without and with blanks around it, and the contents of brackets. -/
inductive Form
  | value (v : Json)
  | padded (v : Json)
  | items (vs : List Json)
  | member (key : Text) (v : Json)
  | members (ms : List (Text × Json))

inductive Spells : Form → Text → Prop
  | null : Spells (.value .null) "null".toList
  | bool (b : Bool) : Spells (.value (.bool b)) (if b then "true" else "false").toList
  | num {text : Text} (h : IsNumber text) : Spells (.value (.num (numberValue text))) text
  | str {body : Text} {units : List ℕ} (h : Body body units) :
    Spells (.value (.str (ofUnits units))) ('"' :: (body ++ ['"']))
  | emptyArr {blanks : Text} (h : Blanks blanks) : Spells (.value (.arr [])) ('[' :: (blanks ++ [']']))
  | arr {vs : List Json} {text : Text} (h : Spells (.items vs) text) :
    Spells (.value (.arr vs)) ('[' :: (text ++ [']']))
  | emptyObj {blanks : Text} (h : Blanks blanks) : Spells (.value (.obj [])) ('{' :: (blanks ++ ['}']))
  | obj {ms : List (Text × Json)} {text : Text} (h : Spells (.members ms) text) :
    Spells (.value (.obj ms)) ('{' :: (text ++ ['}']))
  | padded {v : Json} {before text after : Text} (hbefore : Blanks before) (h : Spells (.value v) text)
    (hafter : Blanks after) : Spells (.padded v) (before ++ (text ++ after))
  | item {v : Json} {text : Text} (h : Spells (.padded v) text) : Spells (.items [v]) text
  | items {v : Json} {vs : List Json} {text more : Text} (h : Spells (.padded v) text)
    (hmore : Spells (.items vs) more) : Spells (.items (v :: vs)) (text ++ ',' :: more)
  | pair {body : Text} {units : List ℕ} {v : Json} {before after text : Text} (hbefore : Blanks before)
    (hkey : Body body units) (hafter : Blanks after) (h : Spells (.padded v) text) :
    Spells (.member (ofUnits units) v) (before ++ '"' :: (body ++ '"' :: (after ++ ':' :: text)))
  | member {key : Text} {v : Json} {text : Text} (h : Spells (.member key v) text) :
    Spells (.members [(key, v)]) text
  | members {key : Text} {v : Json} {ms : List (Text × Json)} {text more : Text}
    (h : Spells (.member key v) text) (hmore : Spells (.members ms) more) :
    Spells (.members ((key, v) :: ms)) (text ++ ',' :: more)

mutual

/-- How deep the brackets of a value nest. -/
def depth : Json → ℕ
  | .null => 0
  | .bool _ => 0
  | .num _ => 0
  | .str _ => 0
  | .arr vs => depthItems vs + 1
  | .obj ms => depthMembers ms + 1

def depthItems : List Json → ℕ
  | [] => 0
  | v :: vs => max (depth v) (depthItems vs)

def depthMembers : List (Text × Json) → ℕ
  | [] => 0
  | (_, v) :: ms => max (depth v) (depthMembers ms)

end

def Form.depth : Form → ℕ
  | .value v => v.depth
  | .padded v => v.depth
  | .items vs => depthItems vs
  | .member _ v => v.depth
  | .members ms => depthMembers ms

/-! ## Blanks and strings -/

theorem skipBlanks_eq (text : Text) : skipBlanks text = text.dropWhile isBlank := rfl

theorem skipBlanks_append {blanks : Text} (h : Blanks blanks) (rest : Text) :
    skipBlanks (blanks ++ rest) = skipBlanks rest := by
  rw [skipBlanks_eq, skipBlanks_eq, List.dropWhile_append_of_pos h]

theorem skipBlanks_of_not {c : Char} (h : isBlank c = false) (rest : Text) :
    skipBlanks (c :: rest) = c :: rest := by
  rw [skipBlanks_eq, List.dropWhile_cons_of_neg (by simp [h])]

theorem readUnits_body {body : Text} {units : List ℕ} (h : Body body units) (rest : Text) :
    readUnits (body ++ '"' :: rest) = some (units, rest) := by
  induction h with
  | nil => simp [readUnits]
  | @plain c text units hquote hescape _ _ ih => simp [readUnits, hescape, ih]
  | @escape e c text units he _ ih =>
    have hu : e ≠ 'u' := by
      rintro rfl
      exact absurd (he : none = some c) nofun
    simp [readUnits, hu, he, ih]
  | @unit a b c d unit text units hunit _ ih => simp [readUnits, hunit, ih]

theorem ne_of_hex4 {a b c d : Char} {unit : ℕ} (h : hex4 a b c d = some unit) :
    ∀ x ∈ [a, b, c, d], x ≠ '"' ∧ x ≠ '\\' := by
  have hne {x : Char} {digit : ℕ} (hx : hexDigit x = some digit) : x ≠ '"' ∧ x ≠ '\\' := by
    constructor <;> rintro rfl <;> exact absurd (hx : none = some digit) nofun
  obtain ⟨a', ha, h⟩ := Option.bind_eq_some_iff.mp h
  obtain ⟨b', hb, h⟩ := Option.bind_eq_some_iff.mp h
  obtain ⟨c', hc, h⟩ := Option.bind_eq_some_iff.mp h
  obtain ⟨d', hd, _⟩ := Option.bind_eq_some_iff.mp h
  simpa using ⟨hne ha, hne hb, hne hc, hne hd⟩

/-- What a text may go on with behind a value. -/
def Follows (rest : Text) : Prop :=
  ∀ c, rest.head? = some c → c.isDigit = false ∧ c ∉ ['.', 'e', 'E']

theorem follows_nil : Follows [] := nofun

theorem follows_cons {c : Char} (hdigit : c.isDigit = false) (hc : c ∉ ['.', 'e', 'E']) (rest : Text) :
    Follows (c :: rest) := by
  intro next hnext
  obtain rfl : c = next := by simpa using hnext
  exact ⟨hdigit, hc⟩

theorem follows_blank {c : Char} (h : isBlank c = true) (rest : Text) : Follows (c :: rest) := by
  simp only [isBlank, Bool.or_eq_true, decide_eq_true_eq] at h
  refine follows_cons ?_ ?_ rest <;> rcases h with ((rfl | rfl) | rfl) | rfl <;> decide

theorem follows_append {blanks rest : Text} (hblanks : Blanks blanks) (hrest : Follows rest) :
    Follows (blanks ++ rest) := by
  cases blanks with
  | nil => exact hrest
  | cons c blanks => exact follows_blank (hblanks c (.head _)) _

/-! ## Numbers -/

theorem readDigits_append {digits rest : Text} (hdigits : ∀ c ∈ digits, c.isDigit = true)
    (hrest : ∀ c, rest.head? = some c → c.isDigit = false) : readDigits (digits ++ rest) = (digits, rest) := by
  have hnone : rest.takeWhile Char.isDigit = [] := by
    cases rest with
    | nil => rfl
    | cons c rest => exact List.takeWhile_cons_of_neg (by simp [hrest c rfl])
  have hall : rest.dropWhile Char.isDigit = rest := by
    cases rest with
    | nil => rfl
    | cons c rest => exact List.dropWhile_cons_of_neg (by simp [hrest c rfl])
  unfold readDigits
  rw [List.span_eq_takeWhile_dropWhile, List.takeWhile_append_of_pos hdigits,
    List.dropWhile_append_of_pos hdigits, hnone, hall, List.append_nil]

theorem IsFraction.head {fraction : Text} (h : IsFraction fraction) {rest : Text}
    (hrest : ∀ c, rest.head? = some c → c.isDigit = false) (c : Char)
    (hc : (fraction ++ rest).head? = some c) : c.isDigit = false := by
  obtain rfl | ⟨digits, _, rfl⟩ := h
  · exact hrest c hc
  · obtain rfl : '.' = c := by simpa using hc
    decide

theorem IsExponent.head {exponent : Text} (h : IsExponent exponent) {rest : Text} (hrest : Follows rest)
    (c : Char) (hc : (exponent ++ rest).head? = some c) : c.isDigit = false ∧ c ≠ '.' := by
  obtain rfl | ⟨e, sign, digits, he, _, _, rfl⟩ := h
  · obtain ⟨hdigit, hnot⟩ := hrest c hc
    exact ⟨hdigit, fun hdot ↦ hnot (by simp [hdot])⟩
  · obtain rfl : e = c := by simpa using hc
    simp only [List.mem_cons, List.not_mem_nil, or_false] at he
    rcases he with rfl | rfl <;> decide

theorem readFraction_append {fraction : Text} (h : IsFraction fraction) : ∃ value, ∀ rest : Text,
    (∀ c, rest.head? = some c → c.isDigit = false ∧ c ≠ '.') →
      readFraction (fraction ++ rest) = (value, rest) := by
  obtain rfl | ⟨digits, hdigits, rfl⟩ := h
  · refine ⟨0, fun rest hrest ↦ ?_⟩
    cases rest with
    | nil => rfl
    | cons c rest => simp [readFraction, (hrest c rfl).2]
  · refine ⟨natOfDigits digits / 10 ^ digits.length, fun rest hrest ↦ ?_⟩
    have hread := readDigits_append hdigits.2 fun c hc ↦ (hrest c hc).1
    simp [readFraction, hread]

theorem readExponent_append {exponent : Text} (h : IsExponent exponent) : ∃ value, ∀ rest : Text,
    Follows rest → readExponent (exponent ++ rest) = (value, rest) := by
  obtain rfl | ⟨e, sign, digits, he, hsign, hdigits, rfl⟩ := h
  · refine ⟨0, fun rest hrest ↦ ?_⟩
    cases rest with
    | nil => rfl
    | cons c rest =>
      have hc := (hrest c rfl).2
      simp only [List.mem_cons, List.not_mem_nil, or_false, not_or] at hc
      cases rest <;> simp [readExponent, hc]
  · have hread (rest : Text) (hrest : Follows rest) := readDigits_append hdigits.2 fun c hc ↦ (hrest c hc).1
    have hexponent : e = 'e' ∨ e = 'E' := by simpa using he
    simp only [List.mem_cons, List.not_mem_nil, or_false] at hsign
    rcases hsign with rfl | rfl | rfl
    · refine ⟨natOfDigits digits, fun rest hrest ↦ ?_⟩
      obtain ⟨d, digits, rfl⟩ := List.exists_cons_of_ne_nil hdigits.1
      have hd := hdigits.2 d (.head _)
      have hminus : d ≠ '-' := fun h ↦ absurd (h ▸ hd) (by decide)
      have hplus : d ≠ '+' := fun h ↦ absurd (h ▸ hd) (by decide)
      have hread := hread rest hrest
      rw [List.cons_append] at hread
      simp [readExponent, hexponent, hminus, hplus, hread]
    · exact ⟨natOfDigits digits, fun rest hrest ↦ by simp [readExponent, hexponent, hread rest hrest]⟩
    · exact ⟨-natOfDigits digits, fun rest hrest ↦ by simp [readExponent, hexponent, hread rest hrest]⟩

theorem readNumber_append {text : Text} (h : IsNumber text) : ∃ value, ∀ rest : Text,
    Follows rest → readNumber (text ++ rest) = some (.num value, rest) := by
  obtain ⟨sign, whole, fraction, exponent, h⟩ := h
  obtain ⟨fractionValue, hfraction⟩ := readFraction_append h.isFraction
  obtain ⟨exponentValue, hexponent⟩ := readExponent_append h.isExponent
  have hparts (rest : Text) (hrest : Follows rest) :
      readDigits (whole ++ (fraction ++ (exponent ++ rest))) = (whole, fraction ++ (exponent ++ rest)) ∧
      readFraction (fraction ++ (exponent ++ rest)) = (fractionValue, exponent ++ rest) ∧
      readExponent (exponent ++ rest) = (exponentValue, rest) := by
    have hhead := h.isExponent.head hrest
    exact ⟨readDigits_append h.isWhole.2 (h.isFraction.head fun c hc ↦ (hhead c hc).1),
      hfraction _ hhead, hexponent rest hrest⟩
  rw [h.text_eq]
  rcases h.isSign with rfl | rfl
  · refine ⟨(natOfDigits whole + fractionValue) * 10 ^ exponentValue, fun rest hrest ↦ ?_⟩
    obtain ⟨hdigits, hfraction, hexponent⟩ := hparts rest hrest
    obtain ⟨d, whole', hwhole⟩ := List.exists_cons_of_ne_nil h.isWhole.1
    have hminus : d ≠ '-' := fun hd ↦ absurd (hd ▸ h.isWhole.2 d (hwhole ▸ .head _)) (by decide)
    have hhead : (whole ++ (fraction ++ (exponent ++ rest))).head? ≠ some '-' := by simp [hwhole, hminus]
    unfold readNumber
    simp only [List.nil_append, List.append_assoc, hhead, if_false, hdigits, if_neg h.isWhole.1,
      hfraction, hexponent]
  · refine ⟨-((natOfDigits whole + fractionValue) * 10 ^ exponentValue), fun rest hrest ↦ ?_⟩
    obtain ⟨hdigits, hfraction, hexponent⟩ := hparts rest hrest
    unfold readNumber
    simp only [List.cons_append, List.nil_append, List.append_assoc, List.head?_cons, if_true,
      List.drop_succ_cons, List.drop_zero, hdigits, if_neg h.isWhole.1, hfraction, hexponent]

theorem readNumber_text {text : Text} (h : IsNumber text) {rest : Text} (hrest : Follows rest) :
    readNumber (text ++ rest) = some (.num (numberValue text), rest) := by
  obtain ⟨value, hread⟩ := readNumber_append h
  have halone := hread [] follows_nil
  rw [List.append_nil] at halone
  have hvalue : numberValue text = value := by
    unfold numberValue
    rw [halone]
  rw [hvalue]
  exact hread rest hrest

/-- A number begins with a digit or a minus sign. -/
theorem IsNumber.head {text : Text} (h : IsNumber text) :
    ∃ c rest, text = c :: rest ∧ (c.isDigit = true ∨ c = '-') := by
  obtain ⟨sign, whole, fraction, exponent, h⟩ := h
  obtain ⟨d, whole', hwhole⟩ := List.exists_cons_of_ne_nil h.isWhole.1
  have hd := h.isWhole.2 d (hwhole ▸ .head _)
  rw [h.text_eq]
  rcases h.isSign with rfl | rfl
  · exact ⟨d, whole' ++ (fraction ++ exponent), by simp [hwhole], .inl hd⟩
  · exact ⟨'-', whole ++ (fraction ++ exponent), rfl, .inr rfl⟩

/-- The characters of a number up to its exponent. -/
theorem NumberParts.chars {text sign whole fraction exponent : Text}
    (h : NumberParts text sign whole fraction exponent) :
    ∀ c ∈ sign ++ (whole ++ fraction), c.isDigit = Bool.true ∨ c = '-' ∨ c = '.' := by
  have hsign : ∀ c ∈ sign, c = '-' := by
    rcases h.isSign with rfl | rfl <;> simp
  have hfraction : ∀ c ∈ fraction, c.isDigit = Bool.true ∨ c = '.' := by
    obtain hnil | ⟨digits, hdigits, hfraction⟩ := h.isFraction
    · simp [hnil]
    · rw [hfraction]
      exact List.forall_mem_cons.mpr ⟨.inr rfl, fun c hc ↦ .inl (hdigits.2 c hc)⟩
  intro c hc
  obtain hc | hc := List.mem_append.mp hc
  · exact .inr (.inl (hsign c hc))
  obtain hc | hc := List.mem_append.mp hc
  · exact .inl (h.isWhole.2 c hc)
  · exact (hfraction c hc).imp_right .inr

theorem IsNumber.chars {text : Text} (h : IsNumber text) :
    ∀ c ∈ text, c.isDigit = Bool.true ∨ c ∈ ['-', '+', '.', 'e', 'E'] := by
  obtain ⟨sign, whole, fraction, exponent, h⟩ := h
  intro c hc
  have htext : text = sign ++ (whole ++ fraction) ++ exponent := by simp [h.text_eq]
  rw [htext] at hc
  obtain hc | hc := List.mem_append.mp hc
  · exact (h.chars c hc).imp_right fun hc ↦ by rcases hc with rfl | rfl <;> simp
  obtain hnil | ⟨e, s, digits, he, hs, hdigits, hexponent⟩ := h.isExponent
  · simp [hnil] at hc
  · rw [hexponent] at hc
    obtain rfl | hc := List.mem_cons.mp hc
    · exact .inr (by simp at he ⊢; tauto)
    obtain hc | hc := List.mem_append.mp hc
    · simp only [List.mem_cons, List.not_mem_nil, or_false] at hs
      rcases hs with rfl | rfl | rfl <;> simp at hc <;> simp [hc]
    · exact .inl (hdigits.2 c hc)

/-! ## Values -/

/-- What a text begins with behind its blanks, of which a value has none. -/
theorem Spells.head {form : Form} {text : Text} (h : Spells form text) : ∃ blanks c more,
    text = blanks ++ c :: more ∧ Blanks blanks ∧ isBlank c = false ∧ c ≠ ']' ∧ c ≠ '}' ∧
      ∀ v, form = .value v → blanks = [] := by
  have hvalue {v : Json} {c : Char} (more : Text) (hblank : isBlank c = false) (harr : c ≠ ']')
      (hobj : c ≠ '}') : ∃ blanks d rest, c :: more = blanks ++ d :: rest ∧ Blanks blanks ∧
        isBlank d = false ∧ d ≠ ']' ∧ d ≠ '}' ∧ ∀ w, Form.value v = .value w → blanks = [] :=
    ⟨[], c, more, rfl, nofun, hblank, harr, hobj, fun _ _ ↦ rfl⟩
  induction h with
  | null => exact hvalue _ (by decide) (by decide) (by decide)
  | bool b => cases b <;> exact hvalue _ (by decide) (by decide) (by decide)
  | num hnumber =>
    obtain ⟨c, rest, rfl, hc⟩ := hnumber.head
    have hne (d : Char) (hd : d.isDigit = false) (hminus : d ≠ '-') : c ≠ d := by
      rintro rfl
      exact hc.elim (fun h ↦ absurd h (by simp [hd])) hminus
    refine hvalue rest ?_ (hne _ (by decide) (by decide)) (hne _ (by decide) (by decide))
    simp [isBlank, hne ' ' (by decide) (by decide), hne '\n' (by decide) (by decide),
      hne '\r' (by decide) (by decide), hne '\t' (by decide) (by decide)]
  | str | emptyArr | arr | emptyObj | obj => exact hvalue _ (by decide) (by decide) (by decide)
  | @padded v before text after hbefore h hafter ih =>
    obtain ⟨blanks, c, more, rfl, _, hblank, harr, hobj, hnil⟩ := ih
    obtain rfl := hnil _ rfl
    exact ⟨before, c, more ++ after, by simp, hbefore, hblank, harr, hobj, nofun⟩
  | item h ih =>
    obtain ⟨blanks, c, more, rfl, hblanks, hblank, harr, hobj, _⟩ := ih
    exact ⟨blanks, c, more, rfl, hblanks, hblank, harr, hobj, nofun⟩
  | @items v vs text others h hmore ih _ =>
    obtain ⟨blanks, c, more, rfl, hblanks, hblank, harr, hobj, _⟩ := ih
    exact ⟨blanks, c, more ++ ',' :: others, by simp, hblanks, hblank, harr, hobj, nofun⟩
  | pair hbefore =>
    exact ⟨_, '"', _, rfl, hbefore, by decide, by decide, by decide, nofun⟩
  | member h ih =>
    obtain ⟨blanks, c, more, rfl, hblanks, hblank, harr, hobj, _⟩ := ih
    exact ⟨blanks, c, more, rfl, hblanks, hblank, harr, hobj, nofun⟩
  | @members key v ms text others h hmore ih _ =>
    obtain ⟨blanks, c, more, rfl, hblanks, hblank, harr, hobj, _⟩ := ih
    exact ⟨blanks, c, more ++ ',' :: others, by simp, hblanks, hblank, harr, hobj, nofun⟩

theorem Spells.skipBlanks_value {v : Json} {text : Text} (h : Spells (.value v) text) (rest : Text) :
    skipBlanks (text ++ rest) = text ++ rest := by
  obtain ⟨blanks, c, more, rfl, _, hblank, _, _, hnil⟩ := h.head
  obtain rfl := hnil v rfl
  exact skipBlanks_of_not hblank _

theorem Spells.length_pos {form : Form} {text : Text} (h : Spells form text) : 0 < text.length := by
  obtain ⟨blanks, c, more, rfl, _⟩ := h.head
  rw [List.length_append, List.length_cons]
  omega

/-- The contents of brackets do not begin with what closes them. -/
theorem Spells.open_ne {form : Form} {text : Text} (h : Spells form text) {close : Char}
    (hclose : close = ']' ∨ close = '}') (rest : Text) :
    (skipBlanks (text ++ rest)).head? ≠ some close := by
  obtain ⟨blanks, c, more, rfl, hblanks, hblank, harr, hobj, _⟩ := h.head
  rw [List.append_assoc, skipBlanks_append hblanks, List.cons_append, skipBlanks_of_not hblank]
  rcases hclose with rfl | rfl <;> simp [harr, hobj]

theorem Blanks.append {blanks more : Text} (h : Blanks blanks) (hmore : Blanks more) :
    Blanks (blanks ++ more) := fun c hc ↦ (List.mem_append.mp hc).elim (h c) (hmore c)

/-- All but a value itself may have blanks in front. -/
theorem Spells.behind {form : Form} {text blanks : Text} (h : Spells form text)
    (hform : ∀ v, form ≠ .value v) (hblanks : Blanks blanks) : Spells form (blanks ++ text) := by
  induction h with
  | null | bool | num | str | emptyArr | arr | emptyObj | obj => exact absurd rfl (hform _)
  | padded hbefore h hafter =>
    rw [← List.append_assoc]
    exact .padded (hblanks.append hbefore) h hafter
  | item h ih => exact .item (ih nofun)
  | items h hmore ih _ =>
    rw [← List.append_assoc]
    exact .items (ih nofun) hmore
  | pair hbefore hkey hafter h =>
    rw [← List.append_assoc]
    exact .pair (hblanks.append hbefore) hkey hafter h
  | member h ih => exact .member (ih nofun)
  | members h hmore ih _ =>
    rw [← List.append_assoc]
    exact .members (ih nofun) hmore

/-- What a text of the grammar is read as, in front of what the brackets around it go on with. -/
def ReadAs : Form → Text → Prop
  | .value v, text => ∀ fuel rest, 2 * text.length ≤ fuel → Follows rest →
    readValue fuel (text ++ rest) = some (v, rest)
  | .padded v, text => ∀ fuel rest, 2 * text.length ≤ fuel → Follows rest →
    ∃ after, readValue fuel (text ++ rest) = some (v, after) ∧ skipBlanks after = skipBlanks rest
  | .items vs, text => ∀ fuel rest, 2 * text.length < fuel →
    readItems fuel (text ++ ']' :: rest) = some (vs, rest)
  | .member key v, text => ∀ fuel rest, 2 * text.length ≤ fuel → Follows rest →
    readMembers (fuel + 1) (text ++ rest) =
      match skipBlanks rest with
      | '}' :: rest => some ([(key, v)], rest)
      | ',' :: rest => (readMembers fuel rest).map fun (ms, after) ↦ ((key, v) :: ms, after)
      | _ => none
  | .members ms, text => ∀ fuel rest, 2 * text.length < fuel →
    readMembers fuel (text ++ '}' :: rest) = some (ms, rest)

theorem readValue_blanks (fuel : ℕ) {blanks : Text} (h : Blanks blanks) (rest : Text) :
    readValue fuel (blanks ++ rest) = readValue fuel rest := by
  cases fuel with
  | zero => rfl
  | succ fuel =>
    rw [readValue, readValue]
    simp only [skipBlanks_append h]

/-- A number is none of the other values. -/
theorem readValue_number {text : Text} (h : IsNumber text) (fuel : ℕ) {rest : Text} (hrest : Follows rest) :
    readValue (fuel + 1) (text ++ rest) = some (.num (numberValue text), rest) := by
  have hread := readNumber_text h hrest
  have hskip := (Spells.num h).skipBlanks_value rest
  obtain ⟨c, more, rfl, hc⟩ := h.head
  have hne (d : Char) (hd : d.isDigit = false) (hminus : d ≠ '-') : c ≠ d := by
    rintro rfl
    exact hc.elim (fun h ↦ absurd h (by simp [hd])) hminus
  have hstring := hne '"' (by decide) (by decide)
  have harr := hne '[' (by decide) (by decide)
  have hobj := hne '{' (by decide) (by decide)
  have hn := (hne 'n' (by decide) (by decide)).symm
  have ht := (hne 't' (by decide) (by decide)).symm
  have hf := (hne 'f' (by decide) (by decide)).symm
  rw [readValue]
  simp only [hskip]
  rw [List.cons_append] at hread ⊢
  split
  · next heq => exact absurd (List.cons.inj heq).1 hstring
  · next heq => exact absurd (List.cons.inj heq).1 harr
  · next heq => exact absurd (List.cons.inj heq).1 hobj
  · simp [hn, ht, hf, hread]

theorem readAs_of_spells {form : Form} {text : Text} (h : Spells form text) : ReadAs form text := by
  induction h with
  | null =>
    intro fuel rest hfuel _
    obtain ⟨fuel, rfl⟩ := Nat.exists_eq_add_of_le' (Nat.le_trans (by decide : 1 ≤ _) hfuel)
    rfl
  | bool b =>
    intro fuel rest hfuel _
    cases b <;>
    · obtain ⟨fuel, rfl⟩ := Nat.exists_eq_add_of_le' (Nat.le_trans (by decide : 1 ≤ _) hfuel)
      rfl
  | @num text hnumber =>
    intro fuel rest hfuel hrest
    have hpos := (Spells.num hnumber).length_pos
    obtain ⟨fuel, rfl⟩ := Nat.exists_eq_add_of_le' (by omega : 1 ≤ fuel)
    exact readValue_number hnumber fuel hrest
  | @str body units hbody =>
    intro fuel rest hfuel _
    obtain ⟨fuel, rfl⟩ := Nat.exists_eq_add_of_le' (by simp at hfuel; omega : 1 ≤ fuel)
    have hread := readUnits_body hbody rest
    rw [readValue]
    simp [skipBlanks_of_not (by decide : isBlank '"' = Bool.false), readString, hread]
  | @emptyArr blanks hblanks =>
    intro fuel rest hfuel _
    obtain ⟨fuel, rfl⟩ := Nat.exists_eq_add_of_le' (by simp at hfuel; omega : 1 ≤ fuel)
    have hskip : skipBlanks (blanks ++ ']' :: rest) = ']' :: rest := by
      rw [skipBlanks_append hblanks, skipBlanks_of_not (by decide)]
    rw [readValue]
    simp [skipBlanks_of_not (by decide : isBlank '[' = Bool.false), hskip]
  | @arr vs text h ih =>
    intro fuel rest hfuel _
    obtain ⟨fuel, rfl⟩ := Nat.exists_eq_add_of_le' (by simp at hfuel; omega : 1 ≤ fuel)
    have hopen := h.open_ne (.inl rfl) (']' :: rest)
    have hitems := ih fuel rest (by simp at hfuel; omega)
    rw [readValue]
    simp [skipBlanks_of_not (by decide : isBlank '[' = Bool.false), hopen, hitems]
  | @emptyObj blanks hblanks =>
    intro fuel rest hfuel _
    obtain ⟨fuel, rfl⟩ := Nat.exists_eq_add_of_le' (by simp at hfuel; omega : 1 ≤ fuel)
    have hskip : skipBlanks (blanks ++ '}' :: rest) = '}' :: rest := by
      rw [skipBlanks_append hblanks, skipBlanks_of_not (by decide)]
    rw [readValue]
    simp [skipBlanks_of_not (by decide : isBlank '{' = Bool.false), hskip]
  | @obj ms text h ih =>
    intro fuel rest hfuel _
    obtain ⟨fuel, rfl⟩ := Nat.exists_eq_add_of_le' (by simp at hfuel; omega : 1 ≤ fuel)
    have hopen := h.open_ne (.inr rfl) ('}' :: rest)
    have hmembers := ih fuel rest (by simp at hfuel; omega)
    rw [readValue]
    simp [skipBlanks_of_not (by decide : isBlank '{' = Bool.false), hopen, hmembers]
  | @padded v before text after hbefore h hafter ih =>
    intro fuel rest hfuel hrest
    have hread := ih fuel (after ++ rest) (by simp at hfuel; omega) (follows_append hafter hrest)
    refine ⟨after ++ rest, ?_, skipBlanks_append hafter rest⟩
    rw [List.append_assoc, List.append_assoc, readValue_blanks fuel hbefore, hread]
  | @item v text h ih =>
    intro fuel rest hfuel
    obtain ⟨fuel, rfl⟩ := Nat.exists_eq_add_of_le' (by omega : 1 ≤ fuel)
    obtain ⟨after, hread, hskip⟩ := ih fuel (']' :: rest) (by omega) (follows_cons (by decide) (by decide) _)
    rw [skipBlanks_of_not (by decide)] at hskip
    rw [readItems]
    simp [hread, hskip]
  | @items v vs text more h hmore ih ihmore =>
    intro fuel rest hfuel
    obtain ⟨fuel, rfl⟩ := Nat.exists_eq_add_of_le' (by omega : 1 ≤ fuel)
    simp only [List.length_append, List.length_cons] at hfuel
    obtain ⟨after, hread, hskip⟩ := ih fuel (',' :: (more ++ ']' :: rest)) (by omega)
      (follows_cons (by decide) (by decide) _)
    rw [skipBlanks_of_not (by decide)] at hskip
    have hitems := ihmore fuel rest (by omega)
    rw [readItems]
    simp [hread, hskip, hitems]
  | @pair body units v before after text hbefore hkey hafter h ih =>
    intro fuel rest hfuel hrest
    simp only [List.length_append, List.length_cons] at hfuel
    obtain ⟨left, hread, hskip⟩ := ih fuel rest (by omega) hrest
    have hunits := readUnits_body hkey (after ++ ':' :: (text ++ rest))
    rw [readMembers]
    simp only [List.append_assoc, List.cons_append, skipBlanks_append hbefore,
      skipBlanks_of_not (by decide : isBlank '"' = Bool.false), readString, hunits, Option.map_some,
      Option.bind_eq_bind, Option.bind_some, skipBlanks_append hafter,
      skipBlanks_of_not (by decide : isBlank ':' = Bool.false), hread, hskip]
    split
    · next hclose => simp [hclose]
    · next hcomma =>
      cases hmore : readMembers fuel _ <;> simp [hcomma, hmore]
    · simp
  | @member key v text h ih =>
    intro fuel rest hfuel
    obtain ⟨fuel, rfl⟩ := Nat.exists_eq_add_of_le' (by omega : 1 ≤ fuel)
    rw [ih fuel ('}' :: rest) (by omega) (follows_cons (by decide) (by decide) _),
      skipBlanks_of_not (by decide)]
    rfl
  | @members key v ms text more h hmore ih ihmore =>
    intro fuel rest hfuel
    obtain ⟨fuel, rfl⟩ := Nat.exists_eq_add_of_le' (by omega : 1 ≤ fuel)
    simp only [List.length_append, List.length_cons] at hfuel
    rw [List.append_assoc, List.cons_append, ih fuel (',' :: (more ++ '}' :: rest)) (by omega)
      (follows_cons (by decide) (by decide) _), skipBlanks_of_not (by decide)]
    simp [ihmore fuel rest (by omega)]

/-- The reader reads every text of the grammar. -/
theorem read_of_spells {v : Json} {text : Text} (h : Spells (.padded v) text) : read text = some v := by
  obtain ⟨after, hread, hskip⟩ := readAs_of_spells h (2 * text.length + 2) [] (by omega) follows_nil
  rw [List.append_nil] at hread
  have hblanks : skipBlanks after = [] := hskip
  unfold read
  simp [hread, hblanks]

/-! ## Writing -/

theorem blanks_nil : Blanks [] := nofun

theorem blanks_space : Blanks [' '] := by
  intro c hc
  obtain rfl := List.mem_singleton.mp hc
  decide

theorem Spells.toPadded {v : Json} {text : Text} (h : Spells (.value v) text) : Spells (.padded v) text := by
  have hpadded := Spells.padded blanks_nil h blanks_nil
  simpa using hpadded

/-- The contents of an object, with a comma and a blank between the members. -/
theorem spells_members {ms : List (Text × Json)} {pieces : List Text}
    (h : List.Forall₂ (fun m piece ↦ Spells (.member m.1 m.2) piece) ms pieces) (hne : ms ≠ []) :
    Spells (.members ms) (", ".toList.intercalate pieces) := by
  induction h with
  | nil => exact absurd rfl hne
  | @cons m piece ms pieces hm hms ih =>
    cases hms with
    | nil =>
      rw [List.intercalate_singleton]
      exact .member hm
    | cons hm' hms' =>
      rw [List.intercalate_cons_cons, List.append_assoc]
      exact .members hm ((ih (List.cons_ne_nil _ _)).behind nofun blanks_space)

theorem spells_obj {ms : List (Text × Json)} {pieces : List Text}
    (h : List.Forall₂ (fun m piece ↦ Spells (.member m.1 m.2) piece) ms pieces) :
    Spells (.value (.obj ms)) ('{' :: (", ".toList.intercalate pieces ++ ['}'])) := by
  cases ms with
  | nil =>
    cases h
    exact .emptyObj blanks_nil
  | cons m ms => exact .obj (spells_members h (List.cons_ne_nil _ _))

/-- The contents of an array, with a comma and a blank between the items. -/
theorem spells_items {vs : List Json} {pieces : List Text}
    (h : List.Forall₂ (fun v piece ↦ Spells (.padded v) piece) vs pieces) (hne : vs ≠ []) :
    Spells (.items vs) (", ".toList.intercalate pieces) := by
  induction h with
  | nil => exact absurd rfl hne
  | @cons v piece vs pieces hv hvs ih =>
    cases hvs with
    | nil =>
      rw [List.intercalate_singleton]
      exact .item hv
    | cons hv' hvs' =>
      rw [List.intercalate_cons_cons, List.append_assoc]
      exact .items hv ((ih (List.cons_ne_nil _ _)).behind nofun blanks_space)

end Squaero.Lib.Json
