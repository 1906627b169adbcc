import Squaero.Lib.JsonText

/-!
# The JSON check of the MongoDB driver

`drivers/mongodb/src/utils/json_check.c`: strict JSON of one value, nested at most 64 levels deep. A
pointer is the text from there on, and the end of a text is its NUL. Whatever the check accepts is a text
of the grammar.
-/

namespace Squaero.Mongo

open Squaero.Lib

/-- `MAX_DEPTH`. -/
def maxDepth : ℕ := 64

def ws (p : Text) : Text := Json.skipBlanks p

def isXDigit (c : Char) : Bool := (hexDigit c).isSome

/-! ## Scanning -/

def scanWhole : Text → Option Text
  | [] => none
  | '0' :: p => some p
  | c :: p => if c.isDigit then some (p.dropWhile Char.isDigit) else none

/-- The fraction, and whether there is none. -/
def scanFraction : Text → Option (Bool × Text)
  | '.' :: p => if p.head?.any Char.isDigit then some (false, p.dropWhile Char.isDigit) else none
  | p => some (true, p)

def skipSign : Text → Text
  | '+' :: p => p
  | '-' :: p => p
  | p => p

/-- The exponent, and whether there is none. -/
def scanExponent : Text → Option (Bool × Text)
  | [] => some (true, [])
  | e :: p =>
    if e = 'e' ∨ e = 'E' then
      if (skipSign p).head?.any Char.isDigit then some (false, (skipSign p).dropWhile Char.isDigit)
      else none
    else some (true, e :: p)

/-- `scan_number`: whether the number is an integer, and the text past it. -/
def scanNumber (p : Text) : Option (Bool × Text) := do
  let p ← scanWhole (if p.head? = some '-' then p.drop 1 else p)
  let (noFraction, p) ← scanFraction p
  let (noExponent, p) ← scanExponent p
  some (noFraction && noExponent, p)

/-- `scan_string` behind the opening quote. -/
def scanBody : Text → Option Text
  | [] => none
  | '"' :: p => some p
  | '\\' :: 'u' :: a :: b :: c :: d :: p =>
    if isXDigit a && isXDigit b && isXDigit c && isXDigit d then scanBody p else none
  | '\\' :: c :: p => if c ∈ "\"\\/bfnrt".toList then scanBody p else none
  | c :: p => if c.toNat < 0x20 then none else scanBody p

def scanString : Text → Option Text
  | '"' :: p => scanBody p
  | _ => none

mutual

/-- Every call reads a character or goes on with a smaller part, so fuel does not run out. -/
def scanValue : ℕ → ℕ → Text → Option Text
  | 0, _, _ => none
  | fuel + 1, depth, p =>
    if maxDepth < depth then none
    else
      match ws p with
      | '{' :: p => if (ws p).head? = some '}' then some ((ws p).drop 1) else scanMembers fuel depth (ws p)
      | '[' :: p => if (ws p).head? = some ']' then some ((ws p).drop 1) else scanItems fuel depth (ws p)
      | '"' :: p => scanBody p
      | 't' :: p => if "rue".toList.isPrefixOf p then some (p.drop 3) else none
      | 'f' :: p => if "alse".toList.isPrefixOf p then some (p.drop 4) else none
      | 'n' :: p => if "ull".toList.isPrefixOf p then some (p.drop 3) else none
      | p => (scanNumber p).map Prod.snd

/-- The loop over the members of an object, up to its brace. -/
def scanMembers : ℕ → ℕ → Text → Option Text
  | 0, _, _ => none
  | fuel + 1, depth, p => do
    let p ← scanString (ws p)
    match ws p with
    | ':' :: p =>
      let p ← scanValue fuel (depth + 1) p
      match ws p with
      | ',' :: p => scanMembers fuel depth p
      | '}' :: p => some p
      | _ => none
    | _ => none

/-- The loop over the items of an array, up to its bracket. -/
def scanItems : ℕ → ℕ → Text → Option Text
  | 0, _, _ => none
  | fuel + 1, depth, p => do
    let p ← scanValue fuel (depth + 1) p
    match ws p with
    | ',' :: p => scanItems fuel depth p
    | ']' :: p => some p
    | _ => none

end

/-- `mongo_json_valid`. -/
def mongoJsonValid (text : Text) : Bool := (scanValue (2 * text.length + 2) 0 text).any fun p ↦ ws p = []

/-- `mongo_json_is_number`: whether the number is an integer, when it is one. -/
def mongoJsonIsNumber (text : Text) : Option Bool :=
  (scanNumber text).bind fun (isInt, p) ↦ if p = [] then some isInt else none

/-! ## What is scanned is of the grammar -/

theorem span_digits {c : Char} (hc : c.isDigit = true) (p : Text) :
    ∃ digits, Json.Digits digits ∧ digits.head? = some c ∧ c :: p = digits ++ p.dropWhile Char.isDigit := by
  refine ⟨c :: p.takeWhile Char.isDigit, ⟨List.cons_ne_nil _ _, ?_⟩, rfl, ?_⟩
  · intro d hd
    obtain rfl | hd := List.mem_cons.mp hd
    · exact hc
    · exact List.mem_takeWhile_imp hd
  · rw [List.cons_append, List.takeWhile_append_dropWhile]

theorem span_digits_of_any {p : Text} (h : p.head?.any Char.isDigit = true) :
    ∃ digits, Json.Digits digits ∧ p = digits ++ p.dropWhile Char.isDigit := by
  cases p with
  | nil => exact absurd h (by decide)
  | cons c p =>
    have hc : c.isDigit = true := by simpa using h
    obtain ⟨digits, hdigits, _, heq⟩ := span_digits hc p
    refine ⟨digits, hdigits, ?_⟩
    rwa [List.dropWhile_cons_of_pos hc]

theorem scanWhole_sound {p rest : Text} (h : scanWhole p = some rest) :
    ∃ whole, Json.Digits whole ∧ (whole = ['0'] ∨ whole.head? ≠ some '0') ∧ p = whole ++ rest := by
  unfold scanWhole at h
  split at h
  · exact absurd h nofun
  · obtain rfl := Option.some.inj h
    exact ⟨['0'], ⟨by decide, by simp⟩, .inl rfl, rfl⟩
  · next c p hzero =>
    split_ifs at h with hc
    obtain rfl := Option.some.inj h
    obtain ⟨digits, hdigits, hhead, heq⟩ := span_digits hc p
    refine ⟨digits, hdigits, .inr ?_, heq⟩
    rw [hhead]
    exact fun h ↦ hzero (Option.some.inj h)

theorem scanFraction_sound {p rest : Text} {plain : Bool} (h : scanFraction p = some (plain, rest)) :
    ∃ fraction, Json.IsFraction fraction ∧ p = fraction ++ rest := by
  unfold scanFraction at h
  split at h
  · split_ifs at h with hdigit
    obtain ⟨rfl, rfl⟩ := Prod.mk.inj (Option.some.inj h)
    obtain ⟨digits, hdigits, heq⟩ := span_digits_of_any hdigit
    exact ⟨'.' :: digits, .inr ⟨digits, hdigits, rfl⟩, by rw [List.cons_append, ← heq]⟩
  · obtain ⟨rfl, rfl⟩ := Prod.mk.inj (Option.some.inj h)
    exact ⟨[], .inl rfl, rfl⟩

theorem skipSign_sound (p : Text) : ∃ sign ∈ [[], ['+'], ['-']], p = sign ++ skipSign p := by
  unfold skipSign
  split
  · exact ⟨['+'], by simp, rfl⟩
  · exact ⟨['-'], by simp, rfl⟩
  · exact ⟨[], by simp, rfl⟩

theorem scanExponent_sound {p rest : Text} {plain : Bool} (h : scanExponent p = some (plain, rest)) :
    ∃ exponent, Json.IsExponent exponent ∧ p = exponent ++ rest := by
  unfold scanExponent at h
  split at h
  · obtain ⟨rfl, rfl⟩ := Prod.mk.inj (Option.some.inj h)
    exact ⟨[], .inl rfl, rfl⟩
  · next e p =>
    split_ifs at h with he hdigit
    · obtain ⟨rfl, rfl⟩ := Prod.mk.inj (Option.some.inj h)
      obtain ⟨sign, hsign, hp⟩ := skipSign_sound p
      obtain ⟨digits, hdigits, heq⟩ := span_digits_of_any hdigit
      refine ⟨e :: (sign ++ digits), .inr ⟨e, sign, digits, by simpa using he, hsign, hdigits, rfl⟩, ?_⟩
      rw [List.cons_append, List.append_assoc, ← heq, ← hp]
    · obtain ⟨rfl, rfl⟩ := Prod.mk.inj (Option.some.inj h)
      exact ⟨[], .inl rfl, rfl⟩

theorem scanNumber_sound {p rest : Text} {isInt : Bool} (h : scanNumber p = some (isInt, rest)) :
    ∃ text, Json.IsNumber text ∧ p = text ++ rest := by
  obtain ⟨afterWhole, hwhole, h⟩ := Option.bind_eq_some_iff.mp h
  obtain ⟨⟨noFraction, afterFraction⟩, hfraction, h⟩ := Option.bind_eq_some_iff.mp h
  obtain ⟨⟨noExponent, afterExponent⟩, hexponent, h⟩ := Option.bind_eq_some_iff.mp h
  obtain ⟨rfl, rfl⟩ := Prod.mk.inj (Option.some.inj h)
  obtain ⟨whole, hdigits, hzero, hwhole⟩ := scanWhole_sound hwhole
  obtain ⟨fraction, hisFraction, rfl⟩ := scanFraction_sound hfraction
  obtain ⟨exponent, hisExponent, rfl⟩ := scanExponent_sound hexponent
  have hsign : ∃ sign, (sign = [] ∨ sign = ['-']) ∧
      p = sign ++ (if p.head? = some '-' then p.drop 1 else p) := by
    split_ifs with hminus
    · obtain ⟨p, rfl⟩ := List.head?_eq_some_iff.mp hminus
      exact ⟨['-'], .inr rfl, rfl⟩
    · exact ⟨[], .inl rfl, rfl⟩
  obtain ⟨sign, hsign, hp⟩ := hsign
  refine ⟨sign ++ (whole ++ (fraction ++ exponent)), ⟨sign, whole, fraction, exponent, ?_⟩, ?_⟩
  · exact ⟨hsign, hdigits, hzero, hisFraction, hisExponent, rfl⟩
  · rw [hp, hwhole]
    simp

theorem unit_of_isXDigit {a b c d : Char} (h : (isXDigit a && isXDigit b && isXDigit c && isXDigit d) = true) :
    ∃ unit, Json.hex4 a b c d = some unit := by
  simp only [isXDigit, Bool.and_eq_true, Option.isSome_iff_exists] at h
  obtain ⟨⟨⟨⟨a', ha⟩, b', hb⟩, c', hc⟩, d', hd⟩ := h
  exact ⟨((a' * 16 + b') * 16 + c') * 16 + d', by simp [Json.hex4, ha, hb, hc, hd]⟩

theorem escaped_of_mem {c : Char} (h : c ∈ "\"\\/bfnrt".toList) : ∃ d, Json.escaped c = some d := by
  have hall : ∀ c ∈ "\"\\/bfnrt".toList, (Json.escaped c).isSome = true := by decide
  exact Option.isSome_iff_exists.mp (hall c h)

theorem scanBody_sound {p rest : Text} (h : scanBody p = some rest) :
    ∃ body units, Json.Body body units ∧ p = body ++ '"' :: rest := by
  induction p using scanBody.induct with
  | case1 => exact absurd h nofun
  | case2 p =>
    obtain rfl := Option.some.inj h
    exact ⟨[], [], .nil, rfl⟩
  | case3 a b c d p hdigits ih =>
    rw [scanBody, if_pos hdigits] at h
    obtain ⟨body, units, hbody, rfl⟩ := ih h
    obtain ⟨unit, hunit⟩ := unit_of_isXDigit hdigits
    exact ⟨_, _, .unit hunit hbody, rfl⟩
  | case4 a b c d p hdigits =>
    rw [scanBody, if_neg hdigits] at h
    exact absurd h nofun
  | case5 c p hu hc ih =>
    rw [scanBody.eq_4 _ _ hu, if_pos hc] at h
    obtain ⟨body, units, hbody, rfl⟩ := ih h
    obtain ⟨d, hd⟩ := escaped_of_mem hc
    exact ⟨_, _, .escape hd hbody, rfl⟩
  | case6 c p hu hc =>
    rw [scanBody.eq_4 _ _ hu, if_neg hc] at h
    exact absurd h nofun
  | case7 c p hquote hunit hescape hcontrol =>
    rw [scanBody.eq_5 _ _ hquote hunit hescape, if_pos hcontrol] at h
    exact absurd h nofun
  | case8 c p hquote hunit hescape hcontrol ih =>
    rw [scanBody.eq_5 _ _ hquote hunit hescape, if_neg hcontrol] at h
    obtain ⟨body, units, hbody, rfl⟩ := ih h
    -- a backslash in front of the end of the text is not followed by a quote
    have hbackslash : c ≠ '\\' := by
      intro hc
      obtain ⟨d, more, hmore⟩ := List.exists_cons_of_ne_nil (by simp : body ++ '"' :: rest ≠ [])
      exact hescape d more hc hmore
    exact ⟨_, _, .plain hquote hbackslash (by omega) hbody, rfl⟩

/-! ## Values -/

theorem ws_eq (p : Text) : ∃ blanks, Json.Blanks blanks ∧ p = blanks ++ ws p :=
  ⟨p.takeWhile Json.isBlank, fun _ hc ↦ List.mem_takeWhile_imp hc,
    List.takeWhile_append_dropWhile.symm⟩

theorem ws_cons {p rest : Text} {c : Char} (h : ws p = c :: rest) :
    ∃ blanks, Json.Blanks blanks ∧ p = blanks ++ c :: rest := by
  obtain ⟨blanks, hblanks, hp⟩ := ws_eq p
  exact ⟨blanks, hblanks, by rw [← h, ← hp]⟩

theorem ws_head {p : Text} {c : Char} (h : (ws p).head? = some c) :
    ∃ blanks, Json.Blanks blanks ∧ p = blanks ++ c :: (ws p).drop 1 := by
  obtain ⟨rest, hrest⟩ := List.head?_eq_some_iff.mp h
  obtain ⟨blanks, hblanks, hp⟩ := ws_cons hrest
  refine ⟨blanks, hblanks, ?_⟩
  rw [hrest]
  exact hp

/-- Blanks behind a value belong to it. -/
theorem padded_of_value {p rest : Text} {c : Char} {before text : Text} {v : Json}
    (hbefore : Json.Blanks before) (h : Json.Spells (.value v) text) (hws : ws p = c :: rest) :
    ∃ text', Json.Spells (.padded v) text' ∧ before ++ (text ++ p) = text' ++ c :: rest := by
  obtain ⟨after, hafter, rfl⟩ := ws_cons hws
  exact ⟨_, .padded hbefore h hafter, by simp⟩

/-- What the scanner passes over is a value behind blanks, or the contents of brackets up to what
closes them. -/
structure ScansSoundly (fuel : ℕ) : Prop where
  value : ∀ {depth p rest}, scanValue fuel depth p = some rest → ∃ before v text,
    Json.Blanks before ∧ Json.Spells (.value v) text ∧ p = before ++ (text ++ rest)
  members : ∀ {depth p rest}, scanMembers fuel depth p = some rest → ∃ ms text,
    Json.Spells (.members ms) text ∧ p = text ++ '}' :: rest
  items : ∀ {depth p rest}, scanItems fuel depth p = some rest → ∃ vs text,
    Json.Spells (.items vs) text ∧ p = text ++ ']' :: rest

theorem keyword_of_isPrefixOf {word p : Text} (h : word.isPrefixOf p = true) :
    p = word ++ p.drop word.length := by
  obtain ⟨rest, rfl⟩ := List.isPrefixOf_iff_prefix.mp h
  rw [List.drop_left]

section

variable {fuel depth : ℕ} {p rest : Text} (ih : ScansSoundly fuel)

include ih

theorem scanValue_sound (h : scanValue (fuel + 1) depth p = some rest) : ∃ before v text,
    Json.Blanks before ∧ Json.Spells (.value v) text ∧ p = before ++ (text ++ rest) := by
  have hword {c : Char} {word p : Text} {v : Json} (hspells : Json.Spells (.value v) (c :: word))
      (hbegins : word.isPrefixOf p = true) :
      ∃ text, Json.Spells (.value v) text ∧ c :: p = text ++ p.drop word.length :=
    ⟨c :: word, hspells, by rw [List.cons_append, ← keyword_of_isPrefixOf hbegins]⟩
  suffices hvalue : ∃ v text, Json.Spells (.value v) text ∧ ws p = text ++ rest by
    obtain ⟨v, text, htext, hp⟩ := hvalue
    obtain ⟨before, hbefore, heq⟩ := ws_eq p
    exact ⟨before, v, text, hbefore, htext, by rw [← hp, ← heq]⟩
  rw [scanValue] at h
  split_ifs at h
  split at h
  · next p hws =>
    rw [hws]
    split_ifs at h with hclose
    · obtain rfl := Option.some.inj h
      obtain ⟨blanks, hblanks, hp⟩ := ws_head hclose
      refine ⟨_, _, .emptyObj hblanks, ?_⟩
      rw [List.cons_append, List.append_assoc, List.singleton_append, ← hp]
    · obtain ⟨blanks, hblanks, hp⟩ := ws_eq p
      obtain ⟨ms, text, htext, hrest⟩ := ih.members h
      refine ⟨_, _, .obj (htext.behind nofun hblanks), ?_⟩
      rw [hp, hrest]
      simp
  · next p hws =>
    rw [hws]
    split_ifs at h with hclose
    · obtain rfl := Option.some.inj h
      obtain ⟨blanks, hblanks, hp⟩ := ws_head hclose
      refine ⟨_, _, .emptyArr hblanks, ?_⟩
      rw [List.cons_append, List.append_assoc, List.singleton_append, ← hp]
    · obtain ⟨blanks, hblanks, hp⟩ := ws_eq p
      obtain ⟨vs, text, htext, hrest⟩ := ih.items h
      refine ⟨_, _, .arr (htext.behind nofun hblanks), ?_⟩
      rw [hp, hrest]
      simp
  · next p hws =>
    rw [hws]
    obtain ⟨body, units, hbody, rfl⟩ := scanBody_sound h
    exact ⟨_, _, .str hbody, by simp⟩
  · next p hws =>
    rw [hws]
    split_ifs at h with hprefix
    obtain rfl := Option.some.inj h
    exact ⟨_, hword (.bool true) hprefix⟩
  · next p hws =>
    rw [hws]
    split_ifs at h with hprefix
    obtain rfl := Option.some.inj h
    exact ⟨_, hword (.bool false) hprefix⟩
  · next p hws =>
    rw [hws]
    split_ifs at h with hprefix
    obtain rfl := Option.some.inj h
    exact ⟨_, hword .null hprefix⟩
  · obtain ⟨⟨isInt, after⟩, hscan, rfl⟩ := Option.map_eq_some_iff.mp h
    obtain ⟨text, htext, hp⟩ := scanNumber_sound hscan
    exact ⟨_, text, .num htext, hp⟩

theorem scanItems_sound (h : scanItems (fuel + 1) depth p = some rest) : ∃ vs text,
    Json.Spells (.items vs) text ∧ p = text ++ ']' :: rest := by
  obtain ⟨after, hvalue, hafter⟩ := Option.bind_eq_some_iff.mp h
  obtain ⟨before, v, text, hbefore, htext, rfl⟩ := ih.value hvalue
  split at hafter
  · next p hws =>
    obtain ⟨vs, more, hmore, rfl⟩ := ih.items hafter
    obtain ⟨text', htext', heq⟩ := padded_of_value hbefore htext hws
    exact ⟨_, _, .items htext' hmore, by rw [heq]; simp⟩
  · next p hws =>
    obtain rfl := Option.some.inj hafter
    obtain ⟨text', htext', heq⟩ := padded_of_value hbefore htext hws
    exact ⟨_, _, .item htext', heq⟩
  · exact absurd hafter nofun

theorem scanMembers_sound (h : scanMembers (fuel + 1) depth p = some rest) : ∃ ms text,
    Json.Spells (.members ms) text ∧ p = text ++ '}' :: rest := by
  obtain ⟨afterKey, hkey, hcolon⟩ := Option.bind_eq_some_iff.mp h
  obtain ⟨first, hfirst, hp⟩ := ws_eq p
  obtain ⟨body, units, hbody, hquoted⟩ : ∃ body units, Json.Body body units ∧
      ws p = '"' :: (body ++ '"' :: afterKey) := by
    unfold scanString at hkey
    split at hkey
    · next hws =>
      obtain ⟨body, units, hbody, rfl⟩ := scanBody_sound hkey
      exact ⟨body, units, hbody, hws⟩
    · exact absurd hkey nofun
  split at hcolon
  · next value hws =>
    obtain ⟨second, hsecond, rfl⟩ := ws_cons hws
    obtain ⟨after, hvalue, hafter⟩ := Option.bind_eq_some_iff.mp hcolon
    obtain ⟨before, v, text, hbefore, htext, rfl⟩ := ih.value hvalue
    rw [hp, hquoted]
    split at hafter
    · next q hws =>
      obtain ⟨ms, more, hmore, rfl⟩ := ih.members hafter
      obtain ⟨text', htext', heq⟩ := padded_of_value hbefore htext hws
      exact ⟨_, _, .members (.pair hfirst hbody hsecond htext') hmore, by rw [heq]; simp⟩
    · next q hws =>
      obtain rfl := Option.some.inj hafter
      obtain ⟨text', htext', heq⟩ := padded_of_value hbefore htext hws
      exact ⟨_, _, .member (.pair hfirst hbody hsecond htext'), by rw [heq]; simp⟩
    · exact absurd hafter nofun
  · exact absurd hcolon nofun

end

theorem scansSoundly (fuel : ℕ) : ScansSoundly fuel := by
  induction fuel with
  | zero => exact ⟨nofun, nofun, nofun⟩
  | succ fuel ih => exact ⟨scanValue_sound ih, scanMembers_sound ih, scanItems_sound ih⟩

/-- Whatever the check accepts is a text of the grammar. -/
theorem spells_of_mongoJsonValid {text : Text} (h : mongoJsonValid text = true) :
    ∃ v, Json.Spells (.padded v) text := by
  obtain ⟨rest, hscan, hrest⟩ := (Option.any_eq_true _ _).mp h
  obtain ⟨before, v, value, hbefore, hvalue, rfl⟩ := (scansSoundly _).value hscan
  obtain ⟨after, hafter, hend⟩ := ws_eq rest
  obtain rfl : rest = after := by simpa [of_decide_eq_true hrest] using hend
  exact ⟨v, .padded hbefore hvalue hafter⟩

/-! ## Fuel -/

theorem length_ws_le (p : Text) : (ws p).length ≤ p.length := (List.dropWhile_sublist _).length_le

/-- More fuel than a text can use up changes nothing. -/
structure FuelSuffices (fuel : ℕ) : Prop where
  value : ∀ {depth p}, 2 * p.length + 1 ≤ fuel → scanValue (fuel + 1) depth p = scanValue fuel depth p
  members : ∀ {depth p}, 2 * p.length + 2 ≤ fuel → scanMembers (fuel + 1) depth p = scanMembers fuel depth p
  items : ∀ {depth p}, 2 * p.length + 2 ≤ fuel → scanItems (fuel + 1) depth p = scanItems fuel depth p

theorem length_scanValue {fuel depth : ℕ} {p rest : Text} (h : scanValue fuel depth p = some rest) :
    rest.length < p.length := by
  obtain ⟨before, v, text, _, htext, rfl⟩ := (scansSoundly fuel).value h
  have hpos := htext.length_pos
  simp only [List.length_append]
  omega

theorem length_scanString {p rest : Text} (h : scanString p = some rest) : rest.length < p.length := by
  unfold scanString at h
  split at h
  · obtain ⟨body, units, _, rfl⟩ := scanBody_sound h
    simp only [List.length_append, List.length_cons]
    omega
  · exact absurd h nofun

theorem length_of_ws {p rest : Text} {c : Char} (h : ws p = c :: rest) : rest.length < p.length := by
  have hle := length_ws_le p
  rw [h, List.length_cons] at hle
  omega

theorem scanValue_succ {fuel depth : ℕ} {p : Text} (ih : FuelSuffices fuel) (h : 2 * p.length ≤ fuel) :
    scanValue (fuel + 2) depth p = scanValue (fuel + 1) depth p := by
  rw [scanValue, scanValue]
  split_ifs with hdepth
  · rfl
  have hinner {c : Char} {q : Text} (hws : ws p = c :: q) : 2 * (ws q).length + 2 ≤ fuel := by
    have hlt := length_of_ws hws
    have hle := length_ws_le q
    omega
  split
  · next q hws => rw [ih.members (hinner hws)]
  · next q hws => rw [ih.items (hinner hws)]
  all_goals rfl

theorem scanItems_succ {fuel depth : ℕ} {p : Text} (ih : FuelSuffices fuel) (h : 2 * p.length + 1 ≤ fuel) :
    scanItems (fuel + 2) depth p = scanItems (fuel + 1) depth p := by
  rw [scanItems, scanItems, ih.value h]
  cases hvalue : scanValue fuel (depth + 1) p with
  | none => rfl
  | some after =>
    have hafter := length_scanValue hvalue
    simp only [Option.bind_eq_bind, Option.bind_some]
    split
    · next q hws =>
      have hq := length_of_ws hws
      rw [ih.items (by omega)]
    all_goals rfl

theorem scanMembers_succ {fuel depth : ℕ} {p : Text} (ih : FuelSuffices fuel) (h : 2 * p.length + 1 ≤ fuel) :
    scanMembers (fuel + 2) depth p = scanMembers (fuel + 1) depth p := by
  rw [scanMembers, scanMembers]
  cases hkey : scanString (ws p) with
  | none => rfl
  | some afterKey =>
    have hle := length_ws_le p
    have hafterKey := length_scanString hkey
    simp only [Option.bind_eq_bind, Option.bind_some]
    split
    · next q hcolon =>
      have hq := length_of_ws hcolon
      rw [ih.value (by omega)]
      cases hvalue : scanValue fuel (depth + 1) q with
      | none => rfl
      | some after =>
        have hafter := length_scanValue hvalue
        simp only [Option.bind_some]
        split
        · next r hws =>
          have hr := length_of_ws hws
          rw [ih.members (by omega)]
        all_goals rfl
    · rfl

theorem fuelSuffices (fuel : ℕ) : FuelSuffices fuel := by
  induction fuel with
  | zero => exact ⟨fun h ↦ absurd h (by omega), fun h ↦ absurd h (by omega), fun h ↦ absurd h (by omega)⟩
  | succ fuel ih =>
    exact ⟨fun h ↦ scanValue_succ ih (by omega), fun h ↦ scanMembers_succ ih (by omega),
      fun h ↦ scanItems_succ ih (by omega)⟩

/-- `mongo_json_valid` does not depend on the fuel of the model. -/
theorem mongoJsonValid_fuel (text : Text) (more : ℕ) :
    mongoJsonValid text = (scanValue (2 * text.length + 2 + more) 0 text).any fun p ↦ ws p = [] := by
  induction more with
  | zero => rfl
  | succ more ih => rw [ih, ← Nat.add_assoc, (fuelSuffices _).value (by omega)]

end Squaero.Mongo
