import Squaero.Mongo.JsonCheck

/-!
# What the JSON check accepts

Every text of the grammar that nests at most 64 levels deep passes the check of the MongoDB driver, and a number is
told apart by whether it has a fraction or an exponent.
-/

namespace Squaero.Mongo

open Squaero.Lib

/-! ## Numbers -/

section Number

variable {rest : Text}

theorem dropWhile_digits {digits : Text} (hdigits : ∀ c ∈ digits, c.isDigit = true)
    (hrest : ∀ c, rest.head? = some c → c.isDigit = false) : (digits ++ rest).dropWhile Char.isDigit = rest := by
  have hread := Json.readDigits_append hdigits hrest
  rw [Json.readDigits, List.span_eq_takeWhile_dropWhile] at hread
  exact congrArg Prod.snd hread

theorem head?_any_digits {digits : Text} (h : Json.Digits digits) (rest : Text) :
    (digits ++ rest).head?.any Char.isDigit = true := by
  obtain ⟨c, more, rfl⟩ := List.exists_cons_of_ne_nil h.1
  exact h.2 c (.head _)

theorem scanWhole_append {whole : Text} (h : Json.Digits whole) (hzero : whole = ['0'] ∨ whole.head? ≠ some '0')
    (hrest : ∀ c, rest.head? = some c → c.isDigit = false) : scanWhole (whole ++ rest) = some rest := by
  rcases hzero with rfl | hhead
  · rfl
  · obtain ⟨c, more, rfl⟩ := List.exists_cons_of_ne_nil h.1
    have hc := h.2 c (.head _)
    have hne : c ≠ '0' := fun heq ↦ hhead (by rw [heq, List.head?_cons])
    rw [List.cons_append, scanWhole, if_pos hc, dropWhile_digits (fun d hd ↦ h.2 d (.tail _ hd)) hrest]
    exact hne

theorem scanFraction_append {fraction : Text} (h : Json.IsFraction fraction)
    (hrest : ∀ c, rest.head? = some c → c.isDigit = false ∧ c ≠ '.') :
    scanFraction (fraction ++ rest) = some (decide (fraction = []), rest) := by
  rcases h with rfl | ⟨digits, hdigits, rfl⟩
  · cases rest with
    | nil => rfl
    | cons c rest =>
      rw [List.nil_append, scanFraction]
      · rfl
      · intro p hp
        exact (hrest c rfl).2 (List.cons.inj hp).1
  · rw [List.cons_append, scanFraction, if_pos (head?_any_digits hdigits rest),
      dropWhile_digits hdigits.2 fun c hc ↦ (hrest c hc).1]
    rfl

theorem scanExponent_append {exponent : Text} (h : Json.IsExponent exponent) (hrest : Json.Follows rest) :
    scanExponent (exponent ++ rest) = some (decide (exponent = []), rest) := by
  rcases h with rfl | ⟨e, sign, digits, he, hsign, hdigits, rfl⟩
  · cases rest with
    | nil => rfl
    | cons c rest =>
      have hc := (hrest c rfl).2
      simp only [List.mem_cons, List.not_mem_nil, or_false, not_or] at hc
      rw [List.nil_append, scanExponent, if_neg (by simp [hc])]
      rfl
  · have hskip : skipSign (sign ++ digits ++ rest) = digits ++ rest := by
      simp only [List.mem_cons, List.not_mem_nil, or_false] at hsign
      rcases hsign with rfl | rfl | rfl
      · obtain ⟨d, more, rfl⟩ := List.exists_cons_of_ne_nil hdigits.1
        have hd := hdigits.2 d (.head _)
        rw [List.nil_append, List.cons_append, skipSign]
        · intro p hp
          exact absurd ((List.cons.inj hp).1 ▸ hd) (by decide)
        · intro p hp
          exact absurd ((List.cons.inj hp).1 ▸ hd) (by decide)
      · rfl
      · rfl
    have hexponent : e = 'e' ∨ e = 'E' := by simpa using he
    rw [List.cons_append, scanExponent, if_pos hexponent, hskip, if_pos (head?_any_digits hdigits rest),
      dropWhile_digits hdigits.2 fun c hc ↦ (hrest c hc).1]
    rfl

/-- A number is scanned as a whole, and is an integer where it has neither fraction nor exponent. -/
theorem scanNumber_append {text sign whole fraction exponent : Text}
    (h : Json.NumberParts text sign whole fraction exponent) (hrest : Json.Follows rest) :
    scanNumber (text ++ rest) = some (decide (fraction = []) && decide (exponent = []), rest) := by
  have hhead := h.isExponent.head hrest
  have hsign : (if (text ++ rest).head? = some '-' then (text ++ rest).drop 1 else text ++ rest) =
      whole ++ (fraction ++ (exponent ++ rest)) := by
    rw [h.text_eq]
    rcases h.isSign with rfl | rfl
    · obtain ⟨d, more, hwhole⟩ := List.exists_cons_of_ne_nil h.isWhole.1
      have hminus : d ≠ '-' := fun hd ↦ absurd (hd ▸ h.isWhole.2 d (hwhole ▸ .head _)) (by decide)
      rw [if_neg (by simp [hwhole, hminus])]
      simp
    · simp
  unfold scanNumber
  rw [hsign, scanWhole_append h.isWhole h.noZero (h.isFraction.head fun c hc ↦ (hhead c hc).1)]
  simp only [Option.bind_eq_bind, Option.bind_some, scanFraction_append h.isFraction hhead,
    scanExponent_append h.isExponent hrest]

theorem mongoJsonIsNumber_of_parts {text sign whole fraction exponent : Text}
    (h : Json.NumberParts text sign whole fraction exponent) :
    mongoJsonIsNumber text = some (decide (fraction = []) && decide (exponent = [])) := by
  have hscan := scanNumber_append h Json.follows_nil
  rw [List.append_nil] at hscan
  unfold mongoJsonIsNumber
  rw [hscan, Option.bind_some]
  exact if_pos rfl

end Number

/-! ## Strings -/

theorem scanBody_append {body : Text} {units : List ℕ} (h : Json.Body body units) (rest : Text) :
    scanBody (body ++ '"' :: rest) = some rest := by
  induction h with
  | nil => rfl
  | @plain c text units hquote hescape hcontrol _ ih =>
    rw [List.cons_append, scanBody, if_neg (by omega), ih]
    · exact hquote
    · exact fun _ _ _ _ _ hc _ ↦ hescape hc
    · exact fun _ _ hc _ ↦ hescape hc
  | @escape e c text units he _ ih =>
    have hmem : e ∈ "\"\\/bfnrt".toList := by
      unfold Json.escaped at he
      split_ifs at he with hsame hb hf hn hr ht
      · rcases hsame with rfl | rfl | rfl <;> decide
      · exact hb ▸ by decide
      · exact hf ▸ by decide
      · exact hn ▸ by decide
      · exact hr ▸ by decide
      · exact ht ▸ by decide
    have hu : e ≠ 'u' := by
      rintro rfl
      exact absurd hmem (by decide)
    rw [List.cons_append, List.cons_append, scanBody, if_pos hmem, ih]
    · intro a b c d p hp
      exact absurd hp hu
  | @unit a b c d unit text units hunit _ ih =>
    have hhex : (isXDigit a && isXDigit b && isXDigit c && isXDigit d) = true := by
      obtain ⟨a', ha, hunit⟩ := Option.bind_eq_some_iff.mp hunit
      obtain ⟨b', hb, hunit⟩ := Option.bind_eq_some_iff.mp hunit
      obtain ⟨c', hc, hunit⟩ := Option.bind_eq_some_iff.mp hunit
      obtain ⟨d', hd, -⟩ := Option.bind_eq_some_iff.mp hunit
      simp [isXDigit, ha, hb, hc, hd]
    simp only [List.cons_append, scanBody, hhex, if_true, ih]

/-! ## Values -/

theorem ws_append {blanks : Text} (h : Json.Blanks blanks) (p : Text) : ws (blanks ++ p) = ws p :=
  Json.skipBlanks_append h p

theorem ws_of_not {c : Char} (h : Json.isBlank c = false) (p : Text) : ws (c :: p) = c :: p :=
  Json.skipBlanks_of_not h p

theorem ws_ws (p : Text) : ws (ws p) = ws p := by
  obtain ⟨blanks, hblanks, hp⟩ := ws_eq p
  have hskip := ws_append hblanks (ws p)
  rw [← hp] at hskip
  exact hskip.symm

theorem scanValue_ws (fuel depth : ℕ) (p : Text) : scanValue fuel depth (ws p) = scanValue fuel depth p := by
  cases fuel with
  | zero => rfl
  | succ fuel =>
    rw [scanValue, scanValue]
    simp only [ws_ws]

theorem scanItems_ws (fuel depth : ℕ) (p : Text) : scanItems fuel depth (ws p) = scanItems fuel depth p := by
  cases fuel with
  | zero => rfl
  | succ fuel =>
    rw [scanItems, scanItems]
    simp only [scanValue_ws]

theorem scanMembers_ws (fuel depth : ℕ) (p : Text) : scanMembers fuel depth (ws p) = scanMembers fuel depth p := by
  cases fuel with
  | zero => rfl
  | succ fuel =>
    rw [scanMembers, scanMembers]
    simp only [ws_ws]

mutual

/-- How many brackets stand around the innermost value. -/
def inside : Json → ℕ
  | .arr vs => insideItems vs
  | .obj ms => insideMembers ms
  | _ => 0

def insideItems : List Json → ℕ
  | [] => 0
  | v :: vs => max (inside v + 1) (insideItems vs)

def insideMembers : List (Text × Json) → ℕ
  | [] => 0
  | (_, v) :: ms => max (inside v + 1) (insideMembers ms)

end

/-- What the loop over the members does after a member: another one after a comma, none after the brace. -/
def scanNext (fuel depth : ℕ) : Text → Option Text
  | ',' :: p => scanMembers fuel depth p
  | '}' :: p => some p
  | _ => none

/-- How a text of the grammar is scanned in front of what the brackets around it go on with: as a whole if all of its
values are at an allowed depth, and not at all otherwise. -/
def ScannedAs : Json.Form → Text → Prop
  | .value v, text => ∀ fuel depth rest, 2 * text.length ≤ fuel → Json.Follows rest →
    scanValue fuel depth (text ++ rest) = if depth + inside v ≤ maxDepth then some rest else none
  | .padded v, text => ∀ fuel depth rest, 2 * text.length ≤ fuel → Json.Follows rest → ∃ after,
    scanValue fuel depth (text ++ rest) = (if depth + inside v ≤ maxDepth then some after else none) ∧ ws after = ws rest
  | .items vs, text => ∀ fuel depth rest, 2 * text.length < fuel →
    scanItems fuel depth (text ++ ']' :: rest) = if depth + insideItems vs ≤ maxDepth then some rest else none
  | .member _ v, text => ∀ fuel depth rest, 2 * text.length ≤ fuel → Json.Follows rest →
    scanMembers (fuel + 1) depth (text ++ rest) =
      if depth + 1 + inside v ≤ maxDepth then scanNext fuel depth (ws rest) else none
  | .members ms, text => ∀ fuel depth rest, 2 * text.length < fuel →
    scanMembers fuel depth (text ++ '}' :: rest) = if depth + insideMembers ms ≤ maxDepth then some rest else none

/-- A number is none of the other values. -/
theorem scanValue_number {text : Text} (h : Json.IsNumber text) (fuel : ℕ) {depth : ℕ} (hdepth : depth ≤ maxDepth)
    {rest : Text} (hrest : Json.Follows rest) : scanValue (fuel + 1) depth (text ++ rest) = some rest := by
  have hskip : ws (text ++ rest) = text ++ rest := (Json.Spells.num h).skipBlanks_value rest
  obtain ⟨c, more, hcons, hc⟩ := h.head
  obtain ⟨sign, whole, fraction, exponent, hparts⟩ := h
  have hscan := scanNumber_append hparts hrest
  have hne (d : Char) (hd : d.isDigit = false) (hminus : d ≠ '-') : c ≠ d := by
    rintro rfl
    exact hc.elim (fun h ↦ absurd h (by simp [hd])) hminus
  rw [scanValue, if_neg (by omega), hskip]
  rw [hcons, List.cons_append] at hscan ⊢
  split
  · next heq => exact absurd (List.cons.inj heq).1 (hne '{' (by decide) (by decide))
  · next heq => exact absurd (List.cons.inj heq).1 (hne '[' (by decide) (by decide))
  · next heq => exact absurd (List.cons.inj heq).1 (hne '"' (by decide) (by decide))
  · next heq => exact absurd (List.cons.inj heq).1 (hne 't' (by decide) (by decide))
  · next heq => exact absurd (List.cons.inj heq).1 (hne 'f' (by decide) (by decide))
  · next heq => exact absurd (List.cons.inj heq).1 (hne 'n' (by decide) (by decide))
  · rw [hscan]
    rfl

/-- Nothing is scanned below the allowed depth. -/
theorem scanValue_deep (fuel : ℕ) {depth : ℕ} (h : ¬ depth ≤ maxDepth) (p : Text) : scanValue fuel depth p = none := by
  cases fuel with
  | zero => rfl
  | succ fuel => rw [scanValue, if_pos (by omega)]

/-- A value without brackets, or with nothing between them, is scanned at any allowed depth. -/
theorem scanned_flat {text : Text} {v : Json} (hpos : 0 < text.length) (hinside : inside v = 0)
    (h : ∀ fuel depth rest, 2 * text.length ≤ fuel + 1 → depth ≤ maxDepth → Json.Follows rest →
      scanValue (fuel + 1) depth (text ++ rest) = some rest) : ScannedAs (.value v) text := by
  intro fuel depth rest hfuel hrest
  obtain ⟨fuel, rfl⟩ := Nat.exists_eq_add_of_le' (by omega : 1 ≤ fuel)
  rw [hinside, Nat.add_zero]
  split_ifs with hdepth
  · exact h fuel depth rest hfuel hdepth hrest
  · exact scanValue_deep _ hdepth _

theorem scannedAs_of_spells {form : Json.Form} {text : Text} (h : Json.Spells form text) : ScannedAs form text := by
  induction h with
  | null =>
    refine scanned_flat (by decide) rfl fun fuel depth rest _ hdepth _ ↦ ?_
    rw [scanValue, if_neg (by omega)]
    rfl
  | bool b =>
    refine scanned_flat (Json.Spells.bool b).length_pos rfl fun fuel depth rest _ hdepth _ ↦ ?_
    rw [scanValue, if_neg (by omega)]
    cases b <;> rfl
  | @num text hnumber =>
    exact scanned_flat (Json.Spells.num hnumber).length_pos rfl fun fuel depth rest _ hdepth hrest ↦
      scanValue_number hnumber fuel hdepth hrest
  | @str body units hbody =>
    refine scanned_flat (Json.Spells.str hbody).length_pos rfl fun fuel depth rest _ hdepth _ ↦ ?_
    have hscan := scanBody_append hbody rest
    rw [scanValue, if_neg (by omega)]
    simp [ws_of_not (by decide : Json.isBlank '"' = false), hscan]
  | @emptyArr blanks hblanks =>
    refine scanned_flat (Json.Spells.emptyArr hblanks).length_pos rfl fun fuel depth rest _ hdepth _ ↦ ?_
    have hskip : ws (blanks ++ ']' :: rest) = ']' :: rest := by
      rw [ws_append hblanks, ws_of_not (by decide)]
    rw [scanValue, if_neg (by omega)]
    simp [ws_of_not (by decide : Json.isBlank '[' = false), hskip]
  | @arr vs text h ih =>
    intro fuel depth rest hlength _
    simp only [List.length_cons, List.length_append, List.length_nil] at hlength
    obtain ⟨fuel, rfl⟩ := Nat.exists_eq_add_of_le' (by omega : 1 ≤ fuel)
    rw [inside]
    by_cases hdepth : depth ≤ maxDepth
    · have hopen : (ws (text ++ ']' :: rest)).head? ≠ some ']' := h.open_ne (.inl rfl) (']' :: rest)
      rw [scanValue, if_neg (by omega)]
      simp [ws_of_not (by decide : Json.isBlank '[' = false), hopen, scanItems_ws, ih fuel depth rest (by omega)]
    · rw [scanValue_deep _ hdepth, if_neg (by omega)]
  | @emptyObj blanks hblanks =>
    refine scanned_flat (Json.Spells.emptyObj hblanks).length_pos rfl fun fuel depth rest _ hdepth _ ↦ ?_
    have hskip : ws (blanks ++ '}' :: rest) = '}' :: rest := by
      rw [ws_append hblanks, ws_of_not (by decide)]
    rw [scanValue, if_neg (by omega)]
    simp [ws_of_not (by decide : Json.isBlank '{' = false), hskip]
  | @obj ms text h ih =>
    intro fuel depth rest hlength _
    simp only [List.length_cons, List.length_append, List.length_nil] at hlength
    obtain ⟨fuel, rfl⟩ := Nat.exists_eq_add_of_le' (by omega : 1 ≤ fuel)
    rw [inside]
    by_cases hdepth : depth ≤ maxDepth
    · have hopen : (ws (text ++ '}' :: rest)).head? ≠ some '}' := h.open_ne (.inr rfl) ('}' :: rest)
      rw [scanValue, if_neg (by omega)]
      simp [ws_of_not (by decide : Json.isBlank '{' = false), hopen, scanMembers_ws, ih fuel depth rest (by omega)]
    · rw [scanValue_deep _ hdepth, if_neg (by omega)]
  | @padded v before text after hbefore h hafter ih =>
    intro fuel depth rest hlength hrest
    simp only [List.length_append] at hlength
    have hscan := ih fuel depth (after ++ rest) (by omega) (Json.follows_append hafter hrest)
    refine ⟨after ++ rest, ?_, ws_append hafter rest⟩
    rw [List.append_assoc, List.append_assoc, ← scanValue_ws, ws_append hbefore, scanValue_ws, hscan]
  | @item v text h ih =>
    intro fuel depth rest hlength
    obtain ⟨fuel, rfl⟩ := Nat.exists_eq_add_of_le' (by omega : 1 ≤ fuel)
    obtain ⟨after, hscan, hskip⟩ := ih fuel (depth + 1) (']' :: rest) (by omega)
      (Json.follows_cons (by decide) (by decide) _)
    rw [ws_of_not (by decide)] at hskip
    rw [scanItems, hscan, insideItems, insideItems]
    split_ifs with hfits hdepth hdepth
    · simp [hskip]
    · omega
    · omega
    · rfl
  | @items v vs text more h hmore ih ihmore =>
    intro fuel depth rest hlength
    obtain ⟨fuel, rfl⟩ := Nat.exists_eq_add_of_le' (by omega : 1 ≤ fuel)
    simp only [List.length_append, List.length_cons] at hlength
    obtain ⟨after, hscan, hskip⟩ := ih fuel (depth + 1) (',' :: (more ++ ']' :: rest)) (by omega)
      (Json.follows_cons (by decide) (by decide) _)
    rw [ws_of_not (by decide)] at hskip
    have hitems := ihmore fuel depth rest (by omega)
    rw [List.append_assoc, List.cons_append, scanItems, hscan, insideItems]
    by_cases hfits : depth + 1 + inside v ≤ maxDepth
    · rw [if_pos hfits]
      simp only [Option.bind_eq_bind, Option.bind_some, hskip, hitems]
      exact if_congr (by omega) rfl rfl
    · rw [if_neg hfits, if_neg (by omega)]
      rfl
  | @pair body units v before after text hbefore hkey hafter h ih =>
    intro fuel depth rest hlength hrest
    simp only [List.length_append, List.length_cons] at hlength
    obtain ⟨left, hscan, hskip⟩ := ih fuel (depth + 1) rest (by omega) hrest
    have hbody := scanBody_append hkey (after ++ ':' :: (text ++ rest))
    rw [scanMembers]
    simp only [List.append_assoc, List.cons_append, ws_append hbefore,
      ws_of_not (by decide : Json.isBlank '"' = false), scanString, hbody, Option.bind_eq_bind, Option.bind_some,
      ws_append hafter, ws_of_not (by decide : Json.isBlank ':' = false), hscan]
    split_ifs with hfits
    · rw [Option.bind_some, hskip]
      rfl
    · rfl
  | @member key v text h ih =>
    intro fuel depth rest hlength
    obtain ⟨fuel, rfl⟩ := Nat.exists_eq_add_of_le' (by omega : 1 ≤ fuel)
    rw [ih fuel depth ('}' :: rest) (by omega) (Json.follows_cons (by decide) (by decide) _),
      ws_of_not (by decide), insideMembers, insideMembers]
    exact if_congr (by omega) rfl rfl
  | @members key v ms text more h hmore ih ihmore =>
    intro fuel depth rest hlength
    obtain ⟨fuel, rfl⟩ := Nat.exists_eq_add_of_le' (by omega : 1 ≤ fuel)
    simp only [List.length_append, List.length_cons] at hlength
    have hmembers := ihmore fuel depth rest (by omega)
    rw [List.append_assoc, List.cons_append, ih fuel depth (',' :: (more ++ '}' :: rest)) (by omega)
      (Json.follows_cons (by decide) (by decide) _), ws_of_not (by decide), insideMembers]
    by_cases hfits : depth + 1 + inside v ≤ maxDepth
    · rw [if_pos hfits]
      exact hmembers.trans (if_congr (by omega) rfl rfl)
    · rw [if_neg hfits, if_neg (by omega)]

/-- The check accepts the texts of one value in the grammar, blanks around it, with no value inside more than 64
brackets. -/
theorem mongoJsonValid_iff (text : Text) :
    mongoJsonValid text = true ↔ ∃ v, Json.Spells (.padded v) text ∧ inside v ≤ maxDepth := by
  have hvalid {v : Json} (h : Json.Spells (.padded v) text) :
      mongoJsonValid text = true ↔ inside v ≤ maxDepth := by
    obtain ⟨after, hscan, hskip⟩ := scannedAs_of_spells h (2 * text.length + 2) 0 [] (by omega) Json.follows_nil
    rw [List.append_nil, Nat.zero_add] at hscan
    unfold mongoJsonValid
    rw [hscan]
    split_ifs with hdepth
    · rw [Option.any_some, hskip]
      exact iff_of_true rfl hdepth
    · exact iff_of_false Bool.false_ne_true hdepth
  constructor
  · intro h
    obtain ⟨v, hv⟩ := spells_of_mongoJsonValid h
    exact ⟨v, hv, (hvalid hv).mp h⟩
  · rintro ⟨v, hv, hdepth⟩
    exact (hvalid hv).mpr hdepth

end Squaero.Mongo
