import Squaero.Lib.JsonText

/-!
# What is printed is read back

Every text that `print` writes is spelled by the grammar, when the numbers are printed as the grammar
has them.
-/

namespace Squaero.Lib.Json

/-! ## Strings -/

theorem hex4_digitChar : ∀ n < 0x20, hex4 '0' '0' (n / 16).digitChar (n % 16).digitChar = some n := by
  decide

/-- No character is half of a surrogate pair. -/
theorem ofUnits_toNat (s : Text) : ofUnits (s.map Char.toNat) = s := by
  induction s with
  | nil => rfl
  | cons c s ih =>
    cases s with
    | nil => simp [ofUnits]
    | cons d s =>
      have hvalid : c.toNat < 0xD800 ∨ 0xDFFF < c.toNat ∧ c.toNat < 0x110000 := c.valid
      have hnot : ¬ (0xD800 ≤ c.toNat ∧ c.toNat < 0xDC00 ∧ 0xDC00 ≤ d.toNat ∧ d.toNat < 0xE000) := by omega
      rw [List.map_cons, List.map_cons, ofUnits, if_neg hnot, Char.ofNat_toNat, ← List.map_cons, ih]

theorem body_escape (c : Char) {text : Text} {units : List ℕ} (h : Body text units) :
    Body (escape c ++ text) (c.toNat :: units) := by
  unfold escape
  split_ifs with hself hb hf hn hr ht hcontrol
  · rcases hself with rfl | rfl
    · exact .escape rfl h
    · exact .escape rfl h
  · exact hb ▸ .escape rfl h
  · exact hf ▸ .escape rfl h
  · exact hn ▸ .escape rfl h
  · exact hr ▸ .escape rfl h
  · exact ht ▸ .escape rfl h
  · exact .unit (hex4_digitChar c.toNat hcontrol) h
  · exact .plain (fun hc ↦ hself (.inl hc)) (fun hc ↦ hself (.inr hc)) (by omega) h

theorem body_flatMap_escape (s : Text) : Body (s.flatMap escape) (s.map Char.toNat) := by
  induction s with
  | nil => exact .nil
  | cons c s ih => exact body_escape c ih

theorem spells_printString (s : Text) : Spells (.value (.str s)) (printString s) := by
  have hspells := Spells.str (body_flatMap_escape s)
  rwa [ofUnits_toNat] at hspells

/-! ## Whole numbers -/

theorem digits_toDigits (n : ℕ) : Digits (Nat.toDigits 10 n) :=
  ⟨Nat.toDigits_ne_nil, fun _ hc ↦ Nat.isDigit_of_mem_toDigits (by omega) (by omega) hc⟩

/-- Only nought begins with one. -/
theorem head?_toDigits {n : ℕ} (hn : n ≠ 0) : (Nat.toDigits 10 n).head? ≠ some '0' := by
  induction n using Nat.strongRecOn with
  | ind n ih =>
    rcases Nat.lt_or_ge n 10 with hsmall | hlarge
    · have hchar : ∀ d < 10, d ≠ 0 → Nat.digitChar d ≠ '0' := by decide
      rw [Nat.toDigits_of_lt_base hsmall, List.head?_singleton]
      simpa using hchar n hsmall hn
    · rw [Nat.toDigits_of_base_le (by omega) hlarge, List.head?_append_of_ne_nil _ Nat.toDigits_ne_nil]
      exact ih (n / 10) (by omega) (by omega)

theorem natOfDigits_toDigits (n : ℕ) : natOfDigits (Nat.toDigits 10 n) = n := by
  have hfold : natOfDigits (Nat.toDigits 10 n) = Nat.ofDigitChars 10 (Nat.toDigits 10 n) 0 := by
    rw [natOfDigits, Nat.ofDigitChars_eq_foldl]
    congr 1
    funext value c
    rw [Nat.mul_comm]
  rw [hfold, Nat.ofDigitChars_toDigits (by omega) (by omega)]

theorem isNumber_toDigits (n : ℕ) : IsNumber (Nat.toDigits 10 n) := by
  refine ⟨[], Nat.toDigits 10 n, [], [], ?_⟩
  exact
    { isSign := .inl rfl
      isWhole := digits_toDigits n
      noZero := by
        rcases eq_or_ne n 0 with rfl | hn
        · exact .inl rfl
        · exact .inr (head?_toDigits hn)
      isFraction := .inl rfl
      isExponent := .inl rfl
      text_eq := by simp }

theorem numberValue_toDigits (n : ℕ) : numberValue (Nat.toDigits 10 n) = n := by
  have hdigits := digits_toDigits n
  obtain ⟨d, rest, hcons⟩ := List.exists_cons_of_ne_nil hdigits.1
  have hminus : (Nat.toDigits 10 n).head? ≠ some '-' := by
    rw [hcons, List.head?_cons]
    intro hd
    exact absurd (Option.some.inj hd ▸ hdigits.2 d (hcons ▸ .head _)) (by decide)
  have hread : readDigits (Nat.toDigits 10 n) = (Nat.toDigits 10 n, []) := by
    have hnil : ∀ c, ([] : Text).head? = some c → c.isDigit = false := nofun
    have happend := readDigits_append hdigits.2 hnil
    rwa [List.append_nil] at happend
  unfold numberValue readNumber
  simp only [hminus, if_false, hread, if_neg hdigits.1, readFraction, readExponent,
    natOfDigits_toDigits]
  simp

/-! ## Values -/

mutual

/-- Every number of a value is as `P` says. -/
def AllNumbers (P : ℚ → Prop) : Json → Prop
  | .num value => P value
  | .arr items => AllItems P items
  | .obj members => AllMembers P members
  | _ => True

def AllItems (P : ℚ → Prop) : List Json → Prop
  | [] => True
  | item :: items => AllNumbers P item ∧ AllItems P items

def AllMembers (P : ℚ → Prop) : List (Text × Json) → Prop
  | [] => True
  | (_, value) :: members => AllNumbers P value ∧ AllMembers P members

end

/-- A number is printed as the grammar writes it. -/
def Written (printNumber : ℚ → Text) (value : ℚ) : Prop :=
  IsNumber (printNumber value) ∧ numberValue (printNumber value) = value

variable {printNumber : ℚ → Text}

theorem Spells.toMember {key : Text} {v : Json} {text : Text} (h : Spells (.value v) text) :
    Spells (.member key v) (printString key ++ ':' :: text) := by
  have hpair := Spells.pair blanks_nil (body_flatMap_escape key) blanks_nil h.toPadded
  rw [ofUnits_toNat] at hpair
  simpa [printString] using hpair

mutual

theorem spells_print : (v : Json) → AllNumbers (Written printNumber) v →
    Spells (.value v) (print printNumber v)
  | .null, _ => .null
  | .bool b, _ => .bool b
  | .num value, h => by
    have hspells := Spells.num h.1
    rwa [h.2] at hspells
  | .str s, _ => spells_printString s
  | .arr items, h => by
    cases items with
    | nil => exact .emptyArr blanks_nil
    | cons item items => exact .arr (spells_printItems (item :: items) h (List.cons_ne_nil _ _))
  | .obj members, h => by
    cases members with
    | nil => exact .emptyObj blanks_nil
    | cons m members => exact .obj (spells_printMembers (m :: members) h (List.cons_ne_nil _ _))

theorem spells_printItems : (items : List Json) → AllItems (Written printNumber) items → items ≠ [] →
    Spells (.items items) (printItems printNumber items)
  | [], _, hne => absurd rfl hne
  | [item], h, _ => .item (spells_print item h.1).toPadded
  | item :: next :: items, h, _ =>
    .items (spells_print item h.1).toPadded
      (spells_printItems (next :: items) h.2 (List.cons_ne_nil _ _))

theorem spells_printMembers : (members : List (Text × Json)) →
    AllMembers (Written printNumber) members → members ≠ [] →
    Spells (.members members) (printMembers printNumber members)
  | [], _, hne => absurd rfl hne
  | [(key, value)], h, _ => .member (spells_print value h.1).toMember
  | (key, value) :: next :: members, h, _ => by
    have hmember : Spells (.member key value) (printString key ++ ':' :: print printNumber value) :=
      (spells_print value h.1).toMember
    have hmembers := Spells.members hmember
      (spells_printMembers (next :: members) h.2 (List.cons_ne_nil _ _))
    simpa [printMembers] using hmembers

end

/-- Printing loses nothing. -/
theorem read_print {v : Json} (h : AllNumbers (Written printNumber) v) :
    read (print printNumber v) = some v :=
  read_of_spells (spells_print v h).toPadded

theorem allMembers_of_forall {P : ℚ → Prop} {members : List (Text × Json)}
    (h : ∀ m ∈ members, AllNumbers P m.2) : AllMembers P members := by
  induction members with
  | nil => trivial
  | cons m members ih =>
    exact ⟨h m List.mem_cons_self, ih fun m' hm' ↦ h m' (List.mem_cons_of_mem _ hm')⟩

end Squaero.Lib.Json
