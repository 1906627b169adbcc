import Squaero.Lib.JsonPrint
import Squaero.Mongo.Documents

/-!
# Writing commands

`drivers/mongodb/src/utils/strutil.c`: the string literals and the collection references that the builders
write. Whatever a collection is called, the command parser finds it, and the call behind it.
-/

namespace Squaero.Mongo

open Squaero.Lib

/-- A character of `mongo_sb_js_string`. -/
def jsEscape (c : Char) : Text :=
  if c = '"' then ['\\', '"']
  else if c = '\\' then ['\\', '\\']
  else if c = '\n' then ['\\', 'n']
  else if c = '\r' then ['\\', 'r']
  else if c = '\t' then ['\\', 't']
  else if c.toNat < 0x20 then "\\u00".toList ++ [(c.toNat / 16).digitChar, (c.toNat % 16).digitChar]
  else [c]

/-- `mongo_sb_js_string`. -/
def jsString (s : Text) : Text := '"' :: (s.flatMap jsEscape ++ ['"'])

/-- The loop of `mongo_name_is_simple`. -/
def nameLoop : Bool → Text → Bool
  | segStart, [] => !segStart
  | segStart, ch :: rest =>
    if ch = '.' then if segStart then false else nameLoop true rest
    else if isWordChar ch ∨ ch.isDigit ∧ !segStart then nameLoop false rest
    else false

/-- `mongo_name_is_simple`. -/
def nameIsSimple (name : Text) : Bool := nameLoop true name

/-- `mongo_sb_coll_ref`. -/
def collRef (name : Text) : Text :=
  if nameIsSimple name then "db.".toList ++ name
  else "db.getCollection(".toList ++ (jsString name ++ [')'])

/-! ## String literals -/

/-- The cases of an escaped character. -/
theorem jsEscape_cases {P : Char → Text → Prop} (hquote : P '"' ['\\', '"']) (hslash : P '\\' ['\\', '\\'])
    (hn : P '\n' ['\\', 'n']) (hr : P '\r' ['\\', 'r']) (ht : P '\t' ['\\', 't'])
    (hcontrol : ∀ c : Char, c.toNat < 0x20 →
      P c ("\\u00".toList ++ [(c.toNat / 16).digitChar, (c.toNat % 16).digitChar]))
    (hself : ∀ c : Char, c ≠ '"' → c ≠ '\\' → 0x20 ≤ c.toNat → P c [c]) (c : Char) : P c (jsEscape c) := by
  unfold jsEscape
  split_ifs with h1 h2 h3 h4 h5 h6
  · exact h1 ▸ hquote
  · exact h2 ▸ hslash
  · exact h3 ▸ hn
  · exact h4 ▸ hr
  · exact h5 ▸ ht
  · exact hcontrol c h6
  · exact hself c h1 h2 (by omega)

theorem body_jsEscape (c : Char) {text : Text} {units : List ℕ} (h : Json.Body text units) :
    Json.Body (jsEscape c ++ text) (c.toNat :: units) :=
  jsEscape_cases (P := fun c piece ↦ Json.Body (piece ++ text) (c.toNat :: units)) (.escape rfl h)
    (.escape rfl h) (.escape rfl h) (.escape rfl h) (.escape rfl h)
    (fun c hc ↦ .unit (Json.hex4_digitChar c.toNat hc) h)
    (fun _ hquote hslash hcontrol ↦ .plain hquote hslash hcontrol h) c

theorem body_jsString (s : Text) : Json.Body (s.flatMap jsEscape) (s.map Char.toNat) := by
  induction s with
  | nil => exact .nil
  | cons c s ih => exact body_jsEscape c ih

theorem spells_jsString (s : Text) : Json.Spells (.value (.str s)) (jsString s) := by
  have hspells := Json.Spells.str (body_jsString s)
  rwa [Json.ofUnits_toNat] at hspells

theorem unquoteLoop_plain {quote c : Char} (hquote : c ≠ quote) (hslash : c ≠ '\\') (rest : Text) :
    unquoteLoop quote 0 false (c :: rest) =
      (unquoteLoop quote 0 false rest).map fun r ↦ (c :: r.1, r.2) := by
  rw [unquoteLoop, if_neg hquote, if_neg hslash]

theorem unquoteLoop_escaped (c : Char) (hu : c ≠ 'u') (rest : Text) :
    unquoteLoop '"' 0 false ('\\' :: c :: rest) =
      (unquoteLoop '"' 0 false rest).map fun r ↦ (simpleEscape c :: r.1, r.2) := by
  rw [unquoteLoop, if_neg (by decide), if_pos rfl, unquoteLoop, if_neg hu]

theorem hex4_control : ∀ n < 0x20, ['0', '0', (n / 16).digitChar, (n % 16).digitChar].foldlM
    (fun v c ↦ (hexDigit c).map (v * 16 + ·)) 0 = some n := by
  decide

theorem unquoteLoop_control {c : Char} (hc : c.toNat < 0x20) (rest : Text) :
    unquoteLoop '"' 0 false ("\\u00".toList ++ [(c.toNat / 16).digitChar, (c.toNat % 16).digitChar] ++ rest) =
      (unquoteLoop '"' 0 false rest).map fun r ↦ (c :: r.1, r.2) := by
  have hhex : hex4 ('0' :: '0' :: (c.toNat / 16).digitChar :: (c.toNat % 16).digitChar :: rest) =
      some c.toNat := by
    have hfold := hex4_control c.toNat hc
    unfold hex4
    simpa using hfold
  have hescape : unicodeEscape ('0' :: '0' :: (c.toNat / 16).digitChar :: (c.toNat % 16).digitChar :: rest) =
      some (c.toNat, 4) := by
    have hsurrogate : ¬ 0xD800 ≤ c.toNat := by omega
    unfold unicodeEscape
    rw [hhex]
    cases hex4 (('0' :: '0' :: (c.toNat / 16).digitChar :: (c.toNat % 16).digitChar :: rest).drop 6) <;>
      simp [hsurrogate]
  have hutf8 : putUtf8 c.toNat = [c] := by
    unfold putUtf8
    rw [if_pos (by omega), Char.ofNat_toNat]
  change unquoteLoop '"' 0 false ('\\' :: 'u' ::
    ('0' :: '0' :: (c.toNat / 16).digitChar :: (c.toNat % 16).digitChar :: rest)) = _
  rw [unquoteLoop, if_neg (by decide), if_pos rfl, unquoteLoop, if_pos rfl, hescape]
  simp [unquoteLoop, hutf8]

theorem unquoteLoop_jsEscape (c : Char) (rest : Text) : unquoteLoop '"' 0 false (jsEscape c ++ rest) =
    (unquoteLoop '"' 0 false rest).map fun r ↦ (c :: r.1, r.2) :=
  jsEscape_cases (P := fun c piece ↦ unquoteLoop '"' 0 false (piece ++ rest) =
      (unquoteLoop '"' 0 false rest).map fun r ↦ (c :: r.1, r.2))
    (unquoteLoop_escaped '"' (by decide) rest) (unquoteLoop_escaped '\\' (by decide) rest)
    (unquoteLoop_escaped 'n' (by decide) rest) (unquoteLoop_escaped 'r' (by decide) rest)
    (unquoteLoop_escaped 't' (by decide) rest) (fun _ hc ↦ unquoteLoop_control hc rest)
    (fun _ hquote hslash _ ↦ unquoteLoop_plain hquote hslash rest) c

theorem unquoteLoop_jsString (s rest : Text) :
    unquoteLoop '"' 0 false (s.flatMap jsEscape ++ '"' :: rest) = some (s, rest) := by
  induction s with
  | nil => rfl
  | cons c s ih =>
    rw [List.flatMap_cons, List.append_assoc, unquoteLoop_jsEscape, ih]
    rfl

theorem unquote_jsString {s : Text} (hs : '\x00' ∉ s) : unquote (jsString s) = some s := by
  have hcString : cString s = s := by
    refine List.takeWhile_eq_self_iff.mpr fun c hc ↦ ?_
    exact decide_eq_true fun heq ↦ hs (heq ▸ hc)
  have hloop := unquoteLoop_jsString s []
  have hskip : skipWs (jsString s) = jsString s := rfl
  unfold unquote
  rw [hskip]
  unfold jsString
  simp only [isQuote, hloop]
  simp [skipWs, hcString]

/-! ## Calls -/

/-- What may stand in a name without quotes. -/
def isNameChar (c : Char) : Bool := isWordChar c || c.isDigit || c = '.'

theorem nameChars_of_nameLoop {segStart : Bool} {name : Text} (h : nameLoop segStart name = true) :
    ∀ c ∈ name, isNameChar c = true := by
  induction name generalizing segStart with
  | nil => exact nofun
  | cons c name ih =>
    rw [nameLoop] at h
    refine List.forall_mem_cons.mpr ?_
    split_ifs at h with hdot hstart hpart
    · exact ⟨by simp [isNameChar, hdot], ih h⟩
    · refine ⟨?_, ih h⟩
      unfold isNameChar
      obtain hword | hdigit := hpart
      · simp [hword]
      · simp [hdigit.1]

theorem ne_paren_of_isNameChar {c : Char} (h : isNameChar c = true) : c ≠ '(' := by
  rintro rfl
  exact absurd h (by decide)

theorem isSpace_of_isNameChar {c : Char} (h : isNameChar c = true) : isSpace c = false := by
  simp only [isNameChar, Bool.or_eq_true, decide_eq_true_eq] at h
  obtain (hword | hdigit) | rfl := h
  · by_contra hspace
    rw [isWordChar_of_isSpace (by simpa using hspace)] at hword
    exact Bool.false_ne_true hword
  · exact isSpace_of_isDigit hdigit
  · decide

theorem isNameChar_of_isAlpha {c : Char} (h : c.isAlpha = true) : isNameChar c = true := by
  simp [isNameChar, isWordChar, h]

/-- The name of a method. -/
structure IsMethod (method : Text) : Prop where
  ne_nil : method ≠ []
  alpha : ∀ c ∈ method, c.isAlpha = true

theorem takeWhile_paren {word : Text} (h : ∀ c ∈ word, c ≠ '(') (rest : Text) :
    (word ++ '(' :: rest).takeWhile (· ≠ '(') = word ∧
      (word ++ '(' :: rest).dropWhile (· ≠ '(') = '(' :: rest := by
  have hpos : ∀ c ∈ word, decide (c ≠ '(') = true := fun c hc ↦ decide_eq_true (h c hc)
  constructor
  · rw [List.takeWhile_append_of_pos hpos]
    simp
  · rw [List.dropWhile_append_of_pos hpos]
    simp

theorem skipWsBack_of_isNameChar {word : Text} (h : ∀ c ∈ word, isNameChar c = true) :
    skipWsBack word = word := by
  refine List.rdropWhile_eq_self_iff.mpr fun hne ↦ ?_
  simp [isSpace_of_isNameChar (h _ (List.getLast_mem hne))]

theorem rtakeWhile_method {method : Text} (h : ∀ c ∈ method, c.isAlpha = true) (before : Text)
    (hbefore : ∀ c, before.getLast? = some c → c.isAlpha = false) :
    (before ++ method).rtakeWhile Char.isAlpha = method ∧
      (before ++ method).rdropWhile Char.isAlpha = before := by
  have hmethod : ∀ c ∈ method.reverse, c.isAlpha = true := fun c hc ↦ h c (List.mem_reverse.mp hc)
  have hstop : before.reverse.takeWhile Char.isAlpha = [] ∧
      before.reverse.dropWhile Char.isAlpha = before.reverse := by
    cases hreverse : before.reverse with
    | nil => exact ⟨rfl, rfl⟩
    | cons c more =>
      have hlast : before.getLast? = some c := by rw [List.getLast?_eq_head?_reverse, hreverse, List.head?_cons]
      simp [hbefore c hlast]
  unfold List.rtakeWhile List.rdropWhile
  rw [List.reverse_append, List.takeWhile_append_of_pos hmethod, List.dropWhile_append_of_pos hmethod,
    hstop.1, hstop.2]
  simp

section

variable {method : Text} (hmethod : IsMethod method)

include hmethod

theorem locateMethod_named (named rest : Text) :
    locateMethod (some named) (method ++ '(' :: rest) = .ok ⟨some named, method, '(' :: rest⟩ := by
  have hchars : ∀ c ∈ method, isNameChar c = true := fun c hc ↦ isNameChar_of_isAlpha (hmethod.alpha c hc)
  obtain ⟨htake, hdrop⟩ := takeWhile_paren (fun c hc ↦ ne_paren_of_isNameChar (hchars c hc)) rest
  obtain ⟨hrtake, hrdrop⟩ := rtakeWhile_method hmethod.alpha [] nofun
  rw [List.nil_append] at hrtake hrdrop
  unfold locateMethod
  simp only [htake, hdrop, skipWsBack_of_isNameChar hchars, hrtake, hrdrop]
  simp [hmethod.ne_nil]

/-- The characters in front of the call of a method. -/
theorem ne_paren_of_call {name : Text} (hname : '(' ∉ name) : ∀ c ∈ name ++ ['.'] ++ method, c ≠ '(' := by
  intro c hc
  simp only [List.mem_append, List.mem_singleton] at hc
  obtain (hc | rfl) | hc := hc
  · exact ne_of_mem_of_not_mem hc hname
  · decide
  · exact ne_paren_of_isNameChar (isNameChar_of_isAlpha (hmethod.alpha c hc))

theorem locateMethod_simple {name : Text} (hname : name ≠ []) (hparen : '(' ∉ name) (rest : Text) :
    locateMethod none (name ++ '.' :: (method ++ '(' :: rest)) = .ok ⟨some name, method, '(' :: rest⟩ := by
  obtain ⟨htake, hdrop⟩ := takeWhile_paren (ne_paren_of_call hmethod hparen) rest
  obtain ⟨hrtake, hrdrop⟩ := rtakeWhile_method hmethod.alpha (name ++ ['.']) (by simp)
  have hback : skipWsBack (name ++ ['.'] ++ method) = name ++ ['.'] ++ method := by
    refine List.rdropWhile_eq_self_iff.mpr fun hne ↦ ?_
    have hlast := hmethod.alpha _ (List.getLast_mem hmethod.ne_nil)
    rw [List.getLast_append_of_ne_nil hne hmethod.ne_nil]
    simp [isSpace_of_isNameChar (isNameChar_of_isAlpha hlast)]
  have htext : name ++ '.' :: (method ++ '(' :: rest) = name ++ ['.'] ++ method ++ '(' :: rest := by simp
  rw [htext]
  unfold locateMethod
  simp only [htake, hdrop, hback, hrtake, hrdrop]
  simp [hmethod.ne_nil, hname]

omit hmethod in
/-- A name without a parenthesis is not taken for `getCollection(`. -/
theorem isGetCollection_simple {name : Text} (hparen : '(' ∉ name) (rest : Text) :
    isGetCollection (name ++ '.' :: rest) = false := by
  have hchars : '(' ∉ name ++ ['.'] := by simpa using hparen
  have hdot : '.' ∈ name ++ ['.'] := by simp
  rw [List.append_cons]
  generalize name ++ ['.'] = word at hchars hdot
  by_contra hget
  simp only [isGetCollection, Bool.not_eq_false, Bool.and_eq_true, decide_eq_true_eq,
    List.isPrefixOf_iff_prefix] at hget
  obtain ⟨hbegins, hhead⟩ := hget
  obtain hbegins | hbegins := List.prefix_or_prefix_of_prefix hbegins (List.prefix_append word _)
  · obtain ⟨more, rfl⟩ := hbegins
    have hmore : '.' ∈ more := by
      obtain hmem | hmem := List.mem_append.mp hdot
      · exact absurd hmem (by decide)
      · exact hmem
    have hdrop : ("getCollection".toList ++ more ++ rest).drop 13 = more ++ rest := rfl
    cases hskip : more.dropWhile isSpace with
    | nil => exact absurd (List.dropWhile_eq_nil_iff.mp hskip '.' hmore) (by decide)
    | cons c more' =>
      have hmem : c ∈ more := (List.dropWhile_suffix isSpace).subset (hskip ▸ .head _)
      rw [hdrop, skipWs, List.dropWhile_append, hskip] at hhead
      have hc : c = '(' := Option.some.inj hhead
      exact hchars (List.mem_append_right _ (hc ▸ hmem))
  · exact absurd (hbegins.subset hdot) (by decide)

theorem skipWs_method (rest : Text) : skipWs (method ++ rest) = method ++ rest := by
  obtain ⟨c, more, rfl⟩ := List.exists_cons_of_ne_nil hmethod.ne_nil
  have hc := isSpace_of_isNameChar (isNameChar_of_isAlpha (hmethod.alpha c (.head _)))
  exact List.dropWhile_cons_of_neg (by simp [hc])

/-- The name of a collection is read back from a literal of it. -/
theorem parseNamed_literal {lit name : Text} {depth : ℕ} (hlit : Passes depth lit)
    (hdepth : depth + 1 ≤ stackSize) (hunquote : unquote lit = some name) (hname : name ≠ []) (rest : Text) :
    parseNamed ("getCollection(".toList ++ (lit ++ ')' :: '.' :: (method ++ rest))) =
      .ok (name, method ++ rest) := by
  have hbracket : matchBracket ('(' :: (lit ++ ')' :: '.' :: (method ++ rest))) =
      some (lit, '.' :: (method ++ rest)) := (matchBracket_outer parens hlit _).trans (if_pos hdepth)
  have hdrop : ("getCollection(".toList ++ (lit ++ ')' :: '.' :: (method ++ rest))).drop 13 =
      '(' :: (lit ++ ')' :: '.' :: (method ++ rest)) := rfl
  have hparen (p : Text) : skipWs ('(' :: p) = '(' :: p := rfl
  have hdot (p : Text) : skipWs ('.' :: p) = '.' :: p := rfl
  unfold parseNamed
  rw [hdrop, hparen, hbracket]
  simp [hunquote, hdot, hname, skipWs_method hmethod rest]

end

/-- The parser finds the collection `name` behind `ref`, and any call on it. -/
def RefersTo (ref name : Text) : Prop := ∀ method, IsMethod method → ∀ rest,
  parseCall (ref ++ '.' :: (method ++ '(' :: rest)) = .ok ⟨some name, method, '(' :: rest⟩

theorem skipWs_db (p : Text) : skipWs ("db.".toList ++ p) = "db.".toList ++ p ∧
    "db.".toList.isPrefixOf ("db.".toList ++ p) = true ∧ ("db.".toList ++ p).drop 3 = p :=
  ⟨rfl, List.isPrefixOf_iff_prefix.mpr (List.prefix_append _ _), rfl⟩

theorem refersTo_plain {name : Text} (hname : name ≠ []) (hparen : '(' ∉ name) :
    RefersTo ("db.".toList ++ name) name := by
  intro method hmethod rest
  obtain ⟨hskip, hbegins, hdrop⟩ := skipWs_db (name ++ '.' :: (method ++ '(' :: rest))
  rw [List.append_assoc]
  unfold parseCall
  simp only [hskip, hbegins, hdrop, isGetCollection_simple hparen, Bool.not_true, Bool.false_eq_true,
    if_false]
  exact locateMethod_simple hmethod hname hparen rest

theorem refersTo_literal {lit name : Text} {depth : ℕ} (hlit : Passes depth lit)
    (hdepth : depth + 1 ≤ stackSize) (hunquote : unquote lit = some name) (hname : name ≠ []) :
    RefersTo ("db.getCollection(".toList ++ (lit ++ [')'])) name := by
  intro method hmethod rest
  have htext : "db.getCollection(".toList ++ (lit ++ [')']) ++ '.' :: (method ++ '(' :: rest) =
      "db.".toList ++ ("getCollection(".toList ++ (lit ++ ')' :: '.' :: (method ++ '(' :: rest))) := by
    simp
  obtain ⟨hskip, hbegins, hdrop⟩ :=
    skipWs_db ("getCollection(".toList ++ (lit ++ ')' :: '.' :: (method ++ '(' :: rest)))
  have hget : isGetCollection ("getCollection(".toList ++
      (lit ++ ')' :: '.' :: (method ++ '(' :: rest))) = true := by
    unfold isGetCollection
    rw [Bool.and_eq_true]
    exact ⟨rfl, rfl⟩
  rw [htext]
  unfold parseCall
  simp only [hskip, hbegins, hdrop, hget, Bool.not_true, Bool.false_eq_true, if_false, if_true,
    parseNamed_literal hmethod hlit hdepth hunquote hname]
  exact locateMethod_named hmethod name rest

theorem not_mem_paren_of_isNameChar {name : Text} (h : ∀ c ∈ name, isNameChar c = true) : '(' ∉ name :=
  fun hmem ↦ ne_paren_of_isNameChar (h _ hmem) rfl

/-- The parser finds the collection, whatever it is called. -/
theorem refersTo_collRef {name : Text} (hname : name ≠ []) (hnul : '\x00' ∉ name) :
    RefersTo (collRef name) name := by
  unfold collRef
  split_ifs with hsimple
  · exact refersTo_plain hname (not_mem_paren_of_isNameChar (nameChars_of_nameLoop hsimple))
  · exact refersTo_literal (passes_string (body_jsString name)) (by decide) (unquote_jsString hnul) hname

/-! ## Commands on a collection -/

/-- A method that runs on a collection, other than a query. -/
structure OnCollection (m : MethodDef) : Prop where
  isMethod : IsMethod m.name.toList
  found : findMethod m.name.toList = some m
  needsColl : m.needsColl = true
  generic : m.name.toList ∉ ["find".toList, "findOne".toList, "aggregate".toList]

/-- The stack of the bracket scan has to hold the brackets of the arguments and the call's own. -/
theorem mongoQueryParse_call {m : MethodDef} (hm : OnCollection m) {ref name : Text}
    (href : RefersTo ref name) {depth : ℕ} {body : Text} (hbody : Passes depth body) :
    mongoQueryParse (ref ++ '.' :: (m.name.toList ++ '(' :: (body ++ [')']))) =
      if depth + 1 ≤ stackSize then
        parseGeneric m (splitArgs body [')']) { op := m.op, collection := some name }
      else syntaxError "unbalanced parentheses" := by
  have hcall := href _ hm.isMethod (body ++ [')'])
  have hbracket := matchBracket_outer parens hbody []
  have hgeneric := hm.generic
  simp only [List.mem_cons, List.not_mem_nil, or_false, not_or] at hgeneric
  unfold mongoQueryParse
  rw [hcall]
  simp only [if_neg hgeneric.1, if_neg hgeneric.2.1, if_neg hgeneric.2.2]
  unfold finishGeneric
  simp only [hm.found, hm.needsColl, Option.isNone_some, Bool.true_eq_false, if_false, hbracket]
  split_ifs
  · dsimp only
    cases hargs : parseGeneric m (splitArgs body [')']) { op := m.op, collection := some name } <;> rfl
  · rfl

section

variable {m : MethodDef} {ms ms' : List (Text × Json)} {doc doc' : Text}
  (h : Json.Spells (.value (.obj ms)) doc) (out : Query)

include h

theorem shapeOk_document {shape : Char} (hshape : shape = 'd' ∨ shape = 'u') : shapeOk shape doc = true := by
  obtain ⟨inner, rfl, _⟩ := document_inner h
  rcases hshape with rfl | rfl <;> rfl

theorem parseGeneric_one {shapes : Text} (hshapes : m.shapes = 'd' :: shapes) (hmin : m.minArgs = 1) :
    parseGeneric m (some [doc]) out = .ok { out with args := [doc] } := by
  have htrim := trim_document h (nofun : ∀ c ∈ ([] : Text), isSpace c = true)
  rw [List.nil_append] at htrim
  have hkept : (some [doc]).filter (·.length ≤ m.shapes.length) = some [doc] := by
    simp [Option.filter, hshapes]
  unfold parseGeneric
  simp only [hkept]
  simp [hshapes, hmin, checkShapes, htrim, shapeOk_document h, Except.map]

theorem parseGeneric_two (h' : Json.Spells (.value (.obj ms')) doc') {second : Char} {shapes : Text}
    (hshapes : m.shapes = 'd' :: second :: shapes) (hsecond : second = 'd' ∨ second = 'u')
    (hmin : m.minArgs ≤ 2) :
    parseGeneric m (some [doc, ' ' :: doc']) out = .ok { out with args := [doc, doc'] } := by
  have htrim := trim_document h (nofun : ∀ c ∈ ([] : Text), isSpace c = true)
  have htrim' := trim_document h' (by decide : ∀ c ∈ [' '], isSpace c = true)
  rw [List.nil_append] at htrim
  rw [List.singleton_append] at htrim'
  have hkept : (some [doc, ' ' :: doc']).filter (·.length ≤ m.shapes.length) = some [doc, ' ' :: doc'] := by
    simp [Option.filter, hshapes]
  unfold parseGeneric
  simp only [hkept]
  simp [hshapes, hmin.not_gt, checkShapes, htrim, htrim', shapeOk_document h (.inl rfl),
    shapeOk_document h' hsecond, Except.map]

end

end Squaero.Mongo
