import Mathlib
import Squaero.Lib.Text

/-!
# Keyboard shortcuts

`utils/shortcuts.ts`: a label such as `Mod+Shift+F` parsed into a combination of keys, matched against key
events and written back in one spelling. `findConflicts` compares the spellings, while events are matched with
exceptions of their own: Shift is ignored on symbols, `+` is also matched by `=`, and named keys are compared
in lower case. What two labels have in common as events is therefore stated apart from their spelling.
-/

namespace Squaero.Front.Shortcuts

open Squaero.Lib

/-- `KEY_NAMES`: keys that the browser spells differently from the label. -/
def keyNames : List (Text × Text) :=
  [("escape".toList, "Esc".toList), ("esc".toList, "Esc".toList), (" ".toList, "Space".toList),
    ("spacebar".toList, "Space".toList), ("cancel".toList, "Pause".toList), ("break".toList, "Pause".toList)]

/-- `toUpperCase` of a single character and `toLowerCase`, with what the Unicode case mappings keep. -/
structure CaseMapping where
  upper : Char → Text
  lower : Text → Text
  upper_ascii : ∀ c, c.toNat < 0x80 → upper c = [c.toUpper]
  lower_ascii : ∀ t, (∀ c ∈ t, c.toNat < 0x80) → lower t = t.map Char.toLower
  upper_single : ∀ c d, upper c = [d] → upper d = [d]
  upper_ne_nil : ∀ c, upper c ≠ []
  upper_plain : ∀ c, isJsSpace c = false → c ≠ '+' → ∀ d ∈ upper c, isJsSpace d = false ∧ d ≠ '+'
  lower_upper : ∀ c name, keyNames.lookup (lower (upper c)) = some name → keyNames.lookup (lower [c]) ≠ none
  lower_equals : ∀ t, lower t = ['='] → t = ['=']
  mem_lower_plus : ∀ t, '+' ∈ lower t ↔ '+' ∈ t
  trimmed_lower : ∀ t, jsTrim (lower t) = lower t ↔ jsTrim t = t

/-- `Combo`. -/
@[ext]
structure Combo where
  mod : Bool
  alt : Bool
  shift : Bool
  key : Text
  deriving DecidableEq, Repr

/-- The modifiers of a `Combo`. -/
inductive Flag
  | mod
  | alt
  | shift
  deriving DecidableEq, Repr

/-- `MODIFIER_TOKENS`. -/
def modifierTokens : List (Text × Flag) :=
  [("mod".toList, .mod), ("ctrl".toList, .mod), ("control".toList, .mod), ("meta".toList, .mod),
    ("cmd".toList, .mod), ("command".toList, .mod), ("alt".toList, .alt), ("option".toList, .alt),
    ("shift".toList, .shift)]

/-- `KeyEventLike`. -/
structure KeyEvent where
  key : Text
  ctrlKey : Bool
  metaKey : Bool
  shiftKey : Bool
  altKey : Bool
  code : Option Text

/-- The fields of `Shortcut` that are read here. -/
structure Shortcut (ActionId : Type*) where
  id : ActionId
  keys : Text
  aliases : Option (List Text)

/-- A single printable character, as opposed to a named key. -/
def isCharacter (key : Text) : Bool := jsLength key = 1

/-- `/^[A-Z0-9]$/i`. -/
def isAlphanumeric : Text → Bool
  | [c] => c.isAlphanum
  | _ => false

/-- A symbol: a character that does not take Shift literally. -/
def isSymbol (key : Text) : Bool := isCharacter key && !isAlphanumeric key

/-- `combo[flag] = true`. -/
def Combo.set (combo : Combo) : Flag → Combo
  | .mod => { combo with mod := true }
  | .alt => { combo with alt := true }
  | .shift => { combo with shift := true }

/-- `codeChar`: the letter or digit of a physical key code. -/
def codeChar : Option Text → Option Text
  | some ['K', 'e', 'y', c] => if c.isUpper || c.isDigit then some [c] else none
  | some ['D', 'i', 'g', 'i', 't', c] => if c.isUpper || c.isDigit then some [c] else none
  | _ => none

/-- The parts of a label: its modifiers and its key. Two empty parts at the end are the plus key. -/
def labelParts (keys : Text) : List Text × Text :=
  let parts := keys.splitOn '+'
  let key := parts.getLastD []
  let parts := parts.dropLast
  if key = [] ∧ parts.getLast? = some [] then (parts.dropLast, ['+']) else (parts, key)

/-- `formatCombo`. -/
def formatCombo (c : Combo) : Text :=
  ['+'].intercalate ((if c.mod then ["Mod".toList] else []) ++ (if c.alt then ["Alt".toList] else []) ++
    (if c.shift then ["Shift".toList] else []) ++ [c.key])

/-- `MODIFIER_KEYS`. -/
def modifierKeys : List Text :=
  ["control".toList, "shift".toList, "alt".toList, "meta".toList, "os".toList, "altgraph".toList,
    "dead".toList, "unidentified".toList, "process".toList]

section

variable (cm : CaseMapping)

def normalizeKey (key : Text) : Text :=
  match keyNames.lookup (cm.lower key) with
  | some named => named
  | none => if isCharacter key then key.flatMap cm.upper else key

/-- The loop of `parseCombo` over the modifiers. -/
def setFlags (combo : Combo) : List Text → Option Combo
  | [] => some combo
  | part :: parts =>
    match modifierTokens.lookup (cm.lower (jsTrim part)) with
    | some flag => setFlags (combo.set flag) parts
    | none => none

def parseCombo (keys : Text) : Option Combo :=
  let (parts, key) := labelParts keys
  let key := jsTrim key
  if key = [] then none
  else
    (setFlags cm ⟨false, false, false, normalizeKey cm key⟩ parts).map fun combo ↦
      if isSymbol combo.key then { combo with shift := false } else combo

def normalizeKeys (keys : Text) : Option Text := (parseCombo cm keys).map formatCombo

def eventKey (e : KeyEvent) : Text :=
  let key := normalizeKey cm e.key
  if !e.altKey || isAlphanumeric key then key else (codeChar e.code).getD key

def matchesCombo (c : Combo) (e : KeyEvent) : Bool :=
  let key := eventKey cm e
  let mod := e.ctrlKey || e.metaKey
  if c.mod ≠ mod ∨ c.alt ≠ e.altKey then false
  else if isSymbol c.key then c.key = key ∨ c.key = ['+'] ∧ key = ['=']
  else if c.shift ≠ e.shiftKey then false
  else if isCharacter c.key then c.key = key
  else cm.lower c.key = cm.lower key

def comboFromEvent (e : KeyEvent) : Option Text :=
  if e.key = [] ∨ cm.lower e.key ∈ modifierKeys then none
  else normalizeKeys cm (formatCombo ⟨e.ctrlKey || e.metaKey, e.altKey, e.shiftKey, eventKey cm e⟩)

variable {ActionId : Type*} [DecidableEq ActionId]

/-- The labels of a shortcut as they are written. -/
def Shortcut.labels (sc : Shortcut ActionId) : List Text := sc.keys :: sc.aliases.getD []

def labelsOf (sc : Shortcut ActionId) : List Text := sc.labels.filterMap (normalizeKeys cm)

def findConflicts (keys : Text) (id : ActionId) (table : List (Shortcut ActionId)) : List (Shortcut ActionId) :=
  match normalizeKeys cm keys with
  | none => []
  | some wanted => table.filter fun sc ↦ sc.id ≠ id ∧ wanted ∈ labelsOf cm sc

/-! ## What the labels promise -/

/-- A key event that a label answers to. -/
def Answers (label : Text) (e : KeyEvent) : Prop := ∃ c, parseCombo cm label = some c ∧ matchesCombo cm c e = true

/-- The conflicts are the other actions with a label that has an event in common with `keys`. -/
def ConflictsExact (keys : Text) (id : ActionId) (table : List (Shortcut ActionId)) : Prop :=
  ∀ sc, sc ∈ findConflicts cm keys id table ↔
    sc ∈ table ∧ sc.id ≠ id ∧ ∃ label ∈ sc.labels, ∃ e, Answers cm label e ∧ Answers cm keys e

/-- Formatting and parsing undo each other, and the spelling that is stored stands for the same events. -/
def RoundTrips (keys : Text) : Prop :=
  (∀ c, parseCombo cm keys = some c → parseCombo cm (formatCombo c) = some c) ∧
    ∀ label, normalizeKeys cm keys = some label →
      normalizeKeys cm label = some label ∧ ∀ e, Answers cm label e ↔ Answers cm keys e

/-- A label captured from an event is one that the event answers to. -/
def Captures (e : KeyEvent) : Prop := ∀ label, comboFromEvent cm e = some label → Answers cm label e

/-- Two combinations that a key event can match at once although they are written differently: `+` and `=`, or
two spellings of one named key. -/
def SpelledApart (c d : Combo) : Prop :=
  c.mod = d.mod ∧ c.alt = d.alt ∧
    (c.key = ['+'] ∧ d.key = ['='] ∨ c.key = ['='] ∧ d.key = ['+'] ∨
      c ≠ d ∧ ¬(isCharacter c.key = true ∧ isCharacter d.key = true) ∧ cm.lower c.key = cm.lower d.key ∧
        (c.shift = d.shift ∨ isSymbol c.key = true ∨ isSymbol d.key = true))

/-- A key as the browser reports it: no blank around it, and no plus sign but the plus key. -/
def PlainKey (key : Text) : Prop := jsTrim key = key ∧ ('+' ∈ key → key = ['+'])

instance : DecidablePred PlainKey := fun _ ↦ inferInstanceAs (Decidable (_ ∧ _))

instance (c d : Combo) : Decidable (SpelledApart cm c d) := inferInstanceAs (Decidable (_ ∧ _ ∧ (_ ∨ _)))

/-- An event whose key is no key, a modifier, plain, or a text that no label ends in. -/
def PlainEvent (e : KeyEvent) : Prop :=
  e.key = [] ∨ cm.lower e.key ∈ modifierKeys ∨ PlainKey (eventKey cm e) ∨ parseCombo cm (eventKey cm e) = none

/-! ## One key -/

theorem isCharacter_iff {key : Text} : isCharacter key = true ↔ ∃ c, key = [c] ∧ c.toNat < 0x10000 := by
  unfold isCharacter jsLength
  rw [decide_eq_true_iff]
  match key with
  | [] => simp
  | [c] =>
    by_cases h : c.toNat < 0x10000 <;> simp [h]
  | c :: d :: rest =>
    have hc : 1 ≤ if c.toNat < 0x10000 then 1 else 2 := by split <;> omega
    have hd : 1 ≤ if d.toNat < 0x10000 then 1 else 2 := by split <;> omega
    simp only [List.map_cons, List.sum_cons, List.cons.injEq, reduceCtorEq, false_and, and_false, exists_false,
      iff_false]
    omega

theorem mem_of_lookup {name named : Text} (h : keyNames.lookup name = some named) :
    named ∈ ["Esc".toList, "Space".toList, "Pause".toList] := by
  obtain ⟨before, after, hsplit, -⟩ := List.lookup_eq_some_iff.mp h
  have hall : ∀ pair ∈ keyNames, pair.2 ∈ ["Esc".toList, "Space".toList, "Pause".toList] := by decide
  exact hall (name, named) (by simp [hsplit])

@[simp]
theorem normalizeKey_of_lookup {key named : Text} (h : keyNames.lookup (cm.lower key) = some named) :
    normalizeKey cm key = named := by
  rw [normalizeKey, h]

theorem normalizeKey_of_none {key : Text} (h : keyNames.lookup (cm.lower key) = none) :
    normalizeKey cm key = if isCharacter key then key.flatMap cm.upper else key := by
  rw [normalizeKey, h]

theorem normalizeKey_normalizeKey (key : Text) : normalizeKey cm (normalizeKey cm key) = normalizeKey cm key := by
  cases h : keyNames.lookup (cm.lower key) with
  | some named =>
    rw [normalizeKey_of_lookup cm h]
    have hascii : ∀ t ∈ ["Esc".toList, "Space".toList, "Pause".toList], (∀ c ∈ t, c.toNat < 0x80) ∧
        isCharacter t = false ∧ (keyNames.lookup (t.map Char.toLower)).getD t = t := by decide
    obtain ⟨hlow, hchar, hlookup⟩ := hascii named (mem_of_lookup h)
    rw [normalizeKey, cm.lower_ascii named hlow, hchar]
    cases hnamed : keyNames.lookup (named.map Char.toLower) with
    | none => rfl
    | some other =>
      rw [hnamed] at hlookup
      exact hlookup
  | none =>
    rw [normalizeKey_of_none cm h]
    by_cases hchar : isCharacter key = true
    · obtain ⟨c, rfl, -⟩ := isCharacter_iff.mp hchar
      rw [if_pos hchar]
      have hupper : [c].flatMap cm.upper = cm.upper c := List.flatMap_singleton _ _
      rw [hupper]
      cases hname : keyNames.lookup (cm.lower (cm.upper c)) with
      | some name => exact absurd h (cm.lower_upper c name hname)
      | none =>
        rw [normalizeKey_of_none cm hname]
        by_cases hsingle : isCharacter (cm.upper c) = true
        · obtain ⟨d, hd, -⟩ := isCharacter_iff.mp hsingle
          rw [if_pos hsingle, hd, List.flatMap_singleton, cm.upper_single c d hd]
        · rw [if_neg hsingle]
    · rw [if_neg hchar, normalizeKey_of_none cm h, if_neg hchar]

theorem normalizeKey_plain {key : Text} (hne : key ≠ []) (h : PlainKey key) :
    normalizeKey cm key ≠ [] ∧ PlainKey (normalizeKey cm key) := by
  cases hlookup : keyNames.lookup (cm.lower key) with
  | some named =>
    rw [normalizeKey_of_lookup cm hlookup]
    have hnamed : ∀ t ∈ ["Esc".toList, "Space".toList, "Pause".toList], t ≠ [] ∧ jsTrim t = t ∧ '+' ∉ t := by
      decide
    obtain ⟨hne, htrim, hplus⟩ := hnamed named (mem_of_lookup hlookup)
    exact ⟨hne, htrim, fun hmem ↦ absurd hmem hplus⟩
  | none =>
    rw [normalizeKey_of_none cm hlookup]
    by_cases hchar : isCharacter key = true
    · obtain ⟨c, rfl, -⟩ := isCharacter_iff.mp hchar
      rw [if_pos hchar, List.flatMap_singleton]
      refine ⟨cm.upper_ne_nil c, ?_⟩
      by_cases hplus : c = '+'
      · subst hplus
        rw [cm.upper_ascii '+' (by decide)]
        exact ⟨by decide, fun _ ↦ by decide⟩
      · have hspace : isJsSpace c = false := by
          by_contra hspace
          have htrim : jsTrim [c] = [] := by
            rw [jsTrim, jsTrimStart, List.dropWhile_cons_of_pos (by simpa using hspace)]
            rfl
          exact hne (h.1.symm.trans htrim)
        have hplain := cm.upper_plain c hspace hplus
        exact ⟨jsTrim_of_forall fun d hd ↦ (hplain d hd).1, fun hmem ↦ absurd rfl (hplain '+' hmem).2⟩
    · rw [if_neg hchar]
      exact ⟨hne, h⟩

/-! ## Labels -/

theorem splitOn_intercalate_concat {pre : List Text} (hpre : ∀ p ∈ pre, '+' ∉ p) (k : Text) :
    (['+'].intercalate (pre ++ [k])).splitOn '+' = pre ++ k.splitOn '+' := by
  induction pre with
  | nil => simp
  | cons p pre ih =>
    have hjoin : ['+'].intercalate (p :: pre ++ [k]) = p ++ '+' :: ['+'].intercalate (pre ++ [k]) := by
      rw [List.cons_append, List.intercalate_cons_of_ne_nil (by simp)]
      simp
    rw [hjoin, List.splitOn_append_cons_self_of_not_mem (hpre p List.mem_cons_self),
      ih fun q hq ↦ hpre q (List.mem_cons_of_mem p hq), List.cons_append]

theorem not_mem_of_mem_splitOn {d : Char} {text part : Text} (h : part ∈ text.splitOn d) : d ∉ part := by
  induction text generalizing part with
  | nil =>
    rw [List.splitOn_nil, List.mem_singleton] at h
    simp [h]
  | cons c text ih =>
    obtain ⟨first, parts, hparts⟩ := List.exists_cons_of_ne_nil (List.splitOn_ne_nil d text)
    rw [List.splitOn_cons_eq_if_modifyHead, hparts] at h
    split at h
    · obtain rfl | h := List.mem_cons.mp h
      · exact List.not_mem_nil
      · exact ih (hparts ▸ h)
    · next hc =>
      obtain rfl | h := List.mem_cons.mp h
      · have hfirst : d ∉ first := ih (hparts ▸ List.mem_cons_self)
        rintro hmem
        obtain rfl | hmem := List.mem_cons.mp hmem
        · simp at hc
        · exact hfirst hmem
      · exact ih (hparts ▸ List.mem_cons_of_mem first h)

/-- The key of a label holds no plus sign unless it is the plus key. -/
theorem labelParts_key (keys : Text) : '+' ∈ (labelParts keys).2 → (labelParts keys).2 = ['+'] := by
  unfold labelParts
  dsimp only
  split
  · exact fun _ ↦ rfl
  · intro hmem
    have hlast : (keys.splitOn '+').getLastD [] ∈ keys.splitOn '+' := by
      rw [List.getLastD_eq_getLast?, List.getLast?_eq_some_getLast (List.splitOn_ne_nil '+' keys)]
      exact List.getLast_mem _
    exact absurd hmem (not_mem_of_mem_splitOn hlast)

theorem labelParts_of_plain {k : Text} (hne : k ≠ []) (hplus : '+' ∈ k → k = ['+']) : labelParts k = ([], k) := by
  by_cases hmem : '+' ∈ k
  · rw [hplus hmem]
    decide
  · unfold labelParts
    rw [List.splitOn_eq_singleton hmem]
    simp [hne]

/-- Modifiers in front of a label stay in front of its parts. -/
theorem labelParts_intercalate {pre : List Text} (hpre : ∀ p ∈ pre, '+' ∉ p) {k : Text} (hne : k ≠ []) :
    labelParts (['+'].intercalate (pre ++ [k])) = (pre ++ (labelParts k).1, (labelParts k).2) := by
  have hparts := List.splitOn_ne_nil '+' k
  have hsingle : k.splitOn '+' ≠ [[]] := by
    intro h
    have hback := @List.intercalate_splitOn _ k _ _ '+'
    rw [h] at hback
    exact hne (hback.symm.trans rfl)
  unfold labelParts
  rw [splitOn_intercalate_concat hpre]
  generalize k.splitOn '+' = parts at hparts hsingle
  obtain ⟨init, last, rfl⟩ : ∃ init last, parts = init ++ [last] :=
    ⟨parts.dropLast, parts.getLast hparts, (List.dropLast_append_getLast hparts).symm⟩
  rw [← List.append_assoc]
  simp only [List.getLastD_concat, List.dropLast_concat]
  by_cases hlast : last = []
  · have hinit : init ≠ [] := fun hinit ↦ hsingle (by rw [hinit, hlast, List.nil_append])
    rw [List.getLast?_append_of_ne_nil _ hinit, List.dropLast_append_of_ne_nil hinit]
    split <;> rfl
  · rw [if_neg (fun h ↦ hlast h.1), if_neg (fun h ↦ hlast h.1)]

/-- The tokens that `formatCombo` puts in front of the key. -/
def flagTokens (mod alt shift : Bool) : List Text :=
  (if mod then ["Mod".toList] else []) ++ (if alt then ["Alt".toList] else []) ++
    (if shift then ["Shift".toList] else [])

theorem formatCombo_eq (c : Combo) :
    formatCombo c = ['+'].intercalate (flagTokens c.mod c.alt c.shift ++ [c.key]) := rfl

theorem setFlags_append (combo : Combo) (xs ys : List Text) :
    setFlags cm combo (xs ++ ys) = (setFlags cm combo xs).bind fun combo ↦ setFlags cm combo ys := by
  fun_induction setFlags cm combo xs with
  | case1 combo => rfl
  | case2 combo part parts flag h ih =>
    rw [List.cons_append, setFlags, h]
    exact ih
  | case3 combo part parts h =>
    rw [List.cons_append, setFlags, h]
    rfl

theorem setFlags_key {combo combo' : Combo} {parts : List Text} (h : setFlags cm combo parts = some combo') :
    combo'.key = combo.key := by
  fun_induction setFlags cm combo parts with
  | case1 combo =>
    cases h
    rfl
  | case2 combo part parts flag _ ih =>
    rw [ih h]
    cases flag <;> rfl
  | case3 => cases h

theorem setFlags_flagTokens (mod alt shift : Bool) (key : Text) :
    setFlags cm ⟨false, false, false, key⟩ (flagTokens mod alt shift) = some ⟨mod, alt, shift, key⟩ := by
  have htoken : ∀ t ∈ ["Mod".toList, "Alt".toList, "Shift".toList], cm.lower (jsTrim t) = t.map Char.toLower := by
    have hascii : ∀ t ∈ ["Mod".toList, "Alt".toList, "Shift".toList], jsTrim t = t ∧ ∀ c ∈ t, c.toNat < 0x80 := by
      decide
    intro t ht
    rw [(hascii t ht).1, cm.lower_ascii t (hascii t ht).2]
  have hmod (combo : Combo) (parts : List Text) :
      setFlags cm combo ("Mod".toList :: parts) = setFlags cm (combo.set .mod) parts := by
    rw [setFlags, htoken _ (by decide)]
    rfl
  have halt (combo : Combo) (parts : List Text) :
      setFlags cm combo ("Alt".toList :: parts) = setFlags cm (combo.set .alt) parts := by
    rw [setFlags, htoken _ (by decide)]
    rfl
  have hshift (combo : Combo) (parts : List Text) :
      setFlags cm combo ("Shift".toList :: parts) = setFlags cm (combo.set .shift) parts := by
    rw [setFlags, htoken _ (by decide)]
    rfl
  have hnil (combo : Combo) : setFlags cm combo [] = some combo := rfl
  cases mod <;> cases alt <;> cases shift <;>
    simp only [flagTokens, Bool.false_eq_true, if_false, if_true, List.nil_append, List.cons_append, hmod, halt,
      hshift, hnil, Combo.set]

theorem flagTokens_plain (mod alt shift : Bool) : ∀ p ∈ flagTokens mod alt shift, '+' ∉ p := by
  cases mod <;> cases alt <;> cases shift <;> decide

/-- A combination as it is parsed: its key is canonical and plain, and a symbol carries no Shift. -/
structure Canonical (c : Combo) : Prop where
  key_ne : c.key ≠ []
  plain : PlainKey c.key
  fixed : normalizeKey cm c.key = c.key
  symbol : isSymbol c.key = true → c.shift = false

theorem canonical_of_parse {keys : Text} {c : Combo} (h : parseCombo cm keys = some c) : Canonical cm c := by
  unfold parseCombo at h
  dsimp only at h
  split at h
  · cases h
  · next hne =>
    obtain ⟨combo, hflags, hc⟩ := Option.map_eq_some_iff.mp h
    have hkey := setFlags_key cm hflags
    have hplain : PlainKey (jsTrim (labelParts keys).2) := by
      refine ⟨jsTrim_jsTrim _, fun hmem ↦ ?_⟩
      have hplus := labelParts_key keys (mem_of_mem_jsTrim hmem)
      rw [hplus]
      decide
    obtain ⟨hkey_ne, hkey_plain⟩ := normalizeKey_plain cm hne hplain
    have hc_key : c.key = normalizeKey cm (jsTrim (labelParts keys).2) := by
      rw [← hc]
      split <;> exact hkey
    refine ⟨hc_key ▸ hkey_ne, hc_key ▸ hkey_plain, by rw [hc_key, normalizeKey_normalizeKey], fun hsymbol ↦ ?_⟩
    rw [← hc] at hsymbol ⊢
    split at hsymbol
    · next hs => rw [if_pos hs]
    · next hs => exact absurd hsymbol hs

/-- What a formatted combination parses to, whatever its key. -/
theorem parseCombo_formatCombo (mod alt shift : Bool) {k : Text} (hne : k ≠ []) :
    parseCombo cm (formatCombo ⟨mod, alt, shift, k⟩) =
      if jsTrim (labelParts k).2 = [] then none
      else (setFlags cm ⟨mod, alt, shift, normalizeKey cm (jsTrim (labelParts k).2)⟩ (labelParts k).1).map fun combo ↦
        if isSymbol combo.key then { combo with shift := false } else combo := by
  rw [parseCombo, formatCombo_eq, labelParts_intercalate (flagTokens_plain mod alt shift) hne]
  dsimp only
  rw [setFlags_append, setFlags_flagTokens, Option.bind_some]

theorem parseCombo_formatCombo_of_plain (mod alt shift : Bool) {k : Text} (hne : k ≠ []) (hplain : PlainKey k) :
    parseCombo cm (formatCombo ⟨mod, alt, shift, k⟩) =
      some ⟨mod, alt, shift && !isSymbol (normalizeKey cm k), normalizeKey cm k⟩ := by
  rw [parseCombo_formatCombo cm mod alt shift hne, labelParts_of_plain hne hplain.2]
  dsimp only
  rw [hplain.1, if_neg hne, setFlags, Option.map_some]
  by_cases hsymbol : isSymbol (normalizeKey cm k) = true
  · rw [if_pos hsymbol, hsymbol]
    simp
  · rw [if_neg hsymbol, Bool.not_eq_true _ |>.mp hsymbol]
    simp

theorem Canonical.parse_format {c : Combo} (h : Canonical cm c) : parseCombo cm (formatCombo c) = some c := by
  have hparse := parseCombo_formatCombo_of_plain cm c.mod c.alt c.shift h.key_ne h.plain
  have hshift : (c.shift && !isSymbol c.key) = c.shift := by
    cases hsymbol : isSymbol c.key with
    | true => rw [h.symbol hsymbol]; rfl
    | false => simp
  rw [h.fixed, hshift] at hparse
  exact hparse

theorem answers_iff {label : Text} {c : Combo} (h : parseCombo cm label = some c) (e : KeyEvent) :
    Answers cm label e ↔ matchesCombo cm c e = true := by
  constructor
  · rintro ⟨d, hd, hmatch⟩
    exact Option.some.inj (hd.symm.trans h) ▸ hmatch
  · exact fun hmatch ↦ ⟨c, h, hmatch⟩

theorem roundTrips (keys : Text) : RoundTrips cm keys := by
  have hback {c : Combo} (hc : parseCombo cm keys = some c) : parseCombo cm (formatCombo c) = some c :=
    (canonical_of_parse cm hc).parse_format
  refine ⟨fun c hc ↦ hback hc, fun label hlabel ↦ ?_⟩
  obtain ⟨c, hc, rfl⟩ := Option.map_eq_some_iff.mp hlabel
  refine ⟨by rw [normalizeKeys, hback hc, Option.map_some], fun e ↦ ?_⟩
  rw [answers_iff cm (hback hc), answers_iff cm hc]

/-! ## Events -/

theorem matchesCombo_iff (c : Combo) (e : KeyEvent) :
    matchesCombo cm c e = true ↔ (c.mod = (e.ctrlKey || e.metaKey) ∧ c.alt = e.altKey) ∧
      (isSymbol c.key = true ∧ (c.key = eventKey cm e ∨ c.key = ['+'] ∧ eventKey cm e = ['=']) ∨
        isSymbol c.key = false ∧ c.shift = e.shiftKey ∧
          (isCharacter c.key = true ∧ c.key = eventKey cm e ∨
            isCharacter c.key = false ∧ cm.lower c.key = cm.lower (eventKey cm e))) := by
  unfold matchesCombo
  dsimp only
  by_cases hmods : c.mod ≠ (e.ctrlKey || e.metaKey) ∨ c.alt ≠ e.altKey
  · rw [if_pos hmods]
    have hnot : ¬(c.mod = (e.ctrlKey || e.metaKey) ∧ c.alt = e.altKey) := by tauto
    simp [hnot]
  · have hyes : c.mod = (e.ctrlKey || e.metaKey) ∧ c.alt = e.altKey := by tauto
    rw [if_neg hmods]
    cases isSymbol c.key <;> cases isCharacter c.key <;> by_cases hshift : c.shift = e.shiftKey <;>
      simp [hyes, hshift]

theorem eventKey_of_fixed {key : Text} (h : normalizeKey cm key = key) (mod shift alt : Bool) :
    eventKey cm ⟨key, mod, false, shift, alt, none⟩ = key := by
  unfold eventKey
  rw [h]
  exact ite_self _

/-- A symbol shares an event only with a named key of the same letters. -/
theorem named_of_symbol {c d k : Text} (hcs : isSymbol c = true) (hck : c = k ∨ c = ['+'] ∧ k = ['='])
    (hds : isSymbol d = false)
    (hdk : isCharacter d = true ∧ d = k ∨ isCharacter d = false ∧ cm.lower d = cm.lower k) :
    isCharacter d = false ∧ cm.lower c = cm.lower d := by
  have hequals : cm.lower ['='] = ['='] := cm.lower_ascii ['='] (by decide)
  have hsymbol : isSymbol ['='] = true := by decide
  obtain ⟨-, rfl⟩ | ⟨hdchar, hlower⟩ := hdk
  · obtain rfl | ⟨-, rfl⟩ := hck
    · exact absurd hcs (by simp [hds])
    · exact absurd hsymbol (by simp [hds])
  · obtain rfl | ⟨-, rfl⟩ := hck
    · exact ⟨hdchar, hlower.symm⟩
    · rw [cm.lower_equals d (hlower.trans hequals)] at hdchar
      exact absurd hdchar (by decide)

/-- Two combinations share an event when they are one, or are spelled apart. -/
theorem spelledApart_of_overlap {c d : Combo} (hc : Canonical cm c) (hd : Canonical cm d) {e : KeyEvent}
    (hce : matchesCombo cm c e = true) (hde : matchesCombo cm d e = true) : c = d ∨ SpelledApart cm c d := by
  obtain ⟨⟨hcmod, hcalt⟩, hce⟩ := (matchesCombo_iff cm c e).mp hce
  obtain ⟨⟨hdmod, hdalt⟩, hde⟩ := (matchesCombo_iff cm d e).mp hde
  have hmod : c.mod = d.mod := hcmod.trans hdmod.symm
  have halt : c.alt = d.alt := hcalt.trans hdalt.symm
  by_cases heq : c = d
  · exact .inl heq
  obtain ⟨hcs, hck⟩ | ⟨hcs, hcshift, hck⟩ := hce <;> obtain ⟨hds, hdk⟩ | ⟨hds, hdshift, hdk⟩ := hde
  · have hshift : c.shift = d.shift := (hc.symbol hcs).trans (hd.symbol hds).symm
    obtain hck | ⟨hck, hk⟩ := hck <;> obtain hdk | ⟨hdk, hk'⟩ := hdk
    · exact .inl (Combo.ext hmod halt hshift (hck.trans hdk.symm))
    · exact .inr ⟨hmod, halt, .inr (.inl ⟨hck.trans hk', hdk⟩)⟩
    · exact .inr ⟨hmod, halt, .inl ⟨hck, hdk.trans hk⟩⟩
    · exact .inl (Combo.ext hmod halt hshift (hck.trans hdk.symm))
  · obtain ⟨hdchar, hlower⟩ := named_of_symbol cm hcs hck hds hdk
    exact .inr ⟨hmod, halt, .inr (.inr ⟨heq, fun h ↦ by simp [hdchar] at h, hlower, .inr (.inl hcs)⟩)⟩
  · obtain ⟨hcchar, hlower⟩ := named_of_symbol cm hds hdk hcs hck
    exact .inr ⟨hmod, halt, .inr (.inr ⟨heq, fun h ↦ by simp [hcchar] at h, hlower.symm, .inr (.inr hds)⟩)⟩
  · have hshift : c.shift = d.shift := hcshift.trans hdshift.symm
    obtain ⟨-, hck⟩ | ⟨hcchar, hck⟩ := hck <;> obtain ⟨-, hdk⟩ | ⟨hdchar, hdk⟩ := hdk
    · exact .inl (Combo.ext hmod halt hshift (hck.trans hdk.symm))
    · exact .inr ⟨hmod, halt, .inr (.inr ⟨heq, fun h ↦ by simp [hdchar] at h, by rw [hck, hdk], .inl hshift⟩)⟩
    · exact .inr ⟨hmod, halt, .inr (.inr ⟨heq, fun h ↦ by simp [hcchar] at h, by rw [hck, hdk], .inl hshift⟩)⟩
    · exact .inr ⟨hmod, halt, .inr (.inr ⟨heq, fun h ↦ by simp [hcchar] at h, hck.trans hdk.symm, .inl hshift⟩)⟩

/-- The event that gives the key as it is written matches. -/
theorem matchesCombo_self {c : Combo} (hc : Canonical cm c) :
    matchesCombo cm c ⟨c.key, c.mod, false, c.shift, c.alt, none⟩ = true := by
  rw [matchesCombo_iff, eventKey_of_fixed cm hc.fixed]
  cases hsymbol : isSymbol c.key <;> cases hchar : isCharacter c.key <;> simp

/-- A character and a named key of the same letters share the event of the character, two named keys the event
of either one. -/
theorem overlap_of_letters {c d : Combo} (hd : Canonical cm d) (hmod : c.mod = d.mod) (halt : c.alt = d.alt)
    (hcchar : isCharacter c.key = false) (hlower : cm.lower c.key = cm.lower d.key)
    (hshift : c.shift = d.shift ∨ isSymbol d.key = true) :
    ∃ e, matchesCombo cm c e = true ∧ matchesCombo cm d e = true := by
  have hcs : isSymbol c.key = false := by simp [isSymbol, hcchar]
  refine ⟨⟨d.key, d.mod, false, c.shift, d.alt, none⟩, ?_, ?_⟩
  · rw [matchesCombo_iff, eventKey_of_fixed cm hd.fixed]
    simp [hmod, halt, hcs, hcchar, hlower]
  · rw [matchesCombo_iff, eventKey_of_fixed cm hd.fixed]
    obtain hshift | hsymbol := hshift
    · cases isSymbol d.key <;> cases isCharacter d.key <;> simp [hshift]
    · simp [hsymbol]

theorem overlap_iff {c d : Combo} (hc : Canonical cm c) (hd : Canonical cm d) :
    (∃ e, matchesCombo cm c e = true ∧ matchesCombo cm d e = true) ↔ c = d ∨ SpelledApart cm c d := by
  constructor
  · rintro ⟨e, hce, hde⟩
    exact spelledApart_of_overlap cm hc hd hce hde
  · -- the event of `=` also matches `+`
    have hplus {c d : Combo} (hd : Canonical cm d) (hmod : c.mod = d.mod) (halt : c.alt = d.alt)
        (hck : c.key = ['+']) (hdk : d.key = ['=']) :
        matchesCombo cm c ⟨d.key, d.mod, false, d.shift, d.alt, none⟩ = true := by
      have hsymbol : isSymbol ['+'] = true := by decide
      rw [matchesCombo_iff, eventKey_of_fixed cm hd.fixed]
      simp [hmod, halt, hck, hdk, hsymbol]
    rintro (rfl | ⟨hmod, halt, ⟨hck, hdk⟩ | ⟨hck, hdk⟩ | ⟨-, hchar, hlower, hshift⟩⟩)
    · exact ⟨_, matchesCombo_self cm hc, matchesCombo_self cm hc⟩
    · exact ⟨_, hplus hd hmod halt hck hdk, matchesCombo_self cm hd⟩
    · exact ⟨_, matchesCombo_self cm hc, hplus hc hmod.symm halt.symm hdk hck⟩
    · cases hcchar : isCharacter c.key with
      | false =>
        refine overlap_of_letters cm hd hmod halt hcchar hlower (hshift.imp_right fun h ↦ h.resolve_left ?_)
        simp [isSymbol, hcchar]
      | true =>
        have hdchar : isCharacter d.key = false := by
          cases hdchar : isCharacter d.key with
          | false => rfl
          | true => exact absurd ⟨hcchar, hdchar⟩ hchar
        have hshift' : d.shift = c.shift ∨ isSymbol c.key = true := by
          obtain h | h | h := hshift
          · exact .inl h.symm
          · exact .inr h
          · simp [isSymbol, hdchar] at h
        obtain ⟨e, hde, hce⟩ := overlap_of_letters cm hc hmod.symm halt.symm hdchar hlower.symm hshift'
        exact ⟨e, hce, hde⟩

omit [DecidableEq ActionId] in
theorem mem_labelsOf {sc : Shortcut ActionId} {wanted : Combo} (hwanted : Canonical cm wanted) :
    formatCombo wanted ∈ labelsOf cm sc ↔ ∃ label ∈ sc.labels, parseCombo cm label = some wanted := by
  unfold labelsOf normalizeKeys
  simp only [List.mem_filterMap, Option.map_eq_some_iff]
  constructor
  · rintro ⟨label, hmem, c, hc, hformat⟩
    have hback := (canonical_of_parse cm hc).parse_format
    rw [hformat, hwanted.parse_format] at hback
    exact ⟨label, hmem, hback ▸ hc⟩
  · rintro ⟨label, hmem, hlabel⟩
    exact ⟨label, hmem, wanted, hlabel, rfl⟩

/-- The conflicts are exact when every other action that is spelled apart has a label spelled the same too. -/
theorem conflictsExact_iff {keys : Text} {c : Combo} (hc : parseCombo cm keys = some c) (id : ActionId)
    (table : List (Shortcut ActionId)) :
    ConflictsExact cm keys id table ↔ ∀ sc ∈ table, sc.id ≠ id →
      (∃ label ∈ sc.labels, ∃ d, parseCombo cm label = some d ∧ SpelledApart cm c d) →
        ∃ label ∈ sc.labels, parseCombo cm label = some c := by
  have hcanon := canonical_of_parse cm hc
  have hfound (sc : Shortcut ActionId) : sc ∈ findConflicts cm keys id table ↔
      sc ∈ table ∧ sc.id ≠ id ∧ ∃ label ∈ sc.labels, parseCombo cm label = some c := by
    unfold findConflicts normalizeKeys
    rw [hc, Option.map_some]
    simp only [List.mem_filter, decide_eq_true_eq, mem_labelsOf cm hcanon]
  have hoverlap (label : Text) : (∃ e, Answers cm label e ∧ Answers cm keys e) ↔
      ∃ d, parseCombo cm label = some d ∧ (c = d ∨ SpelledApart cm c d) := by
    constructor
    · rintro ⟨e, ⟨d, hd, hde⟩, hce⟩
      exact ⟨d, hd, (overlap_iff cm hcanon (canonical_of_parse cm hd)).mp ⟨e, (answers_iff cm hc e).mp hce, hde⟩⟩
    · rintro ⟨d, hd, h⟩
      obtain ⟨e, hce, hde⟩ := (overlap_iff cm hcanon (canonical_of_parse cm hd)).mpr h
      exact ⟨e, ⟨d, hd, hde⟩, (answers_iff cm hc e).mpr hce⟩
  unfold ConflictsExact
  simp only [hfound, hoverlap]
  constructor
  · rintro h sc hsc hid ⟨label, hlabel, d, hd, hapart⟩
    exact ((h sc).mpr ⟨hsc, hid, label, hlabel, d, hd, .inr hapart⟩).2.2
  · refine fun h sc ↦ and_congr_right fun hsc ↦ and_congr_right fun hid ↦ ⟨?_, ?_⟩
    · rintro ⟨label, hlabel, hparse⟩
      exact ⟨label, hlabel, c, hparse, .inl rfl⟩
    · rintro ⟨label, hlabel, d, hd, rfl | hapart⟩
      · exact ⟨label, hlabel, hd⟩
      · exact h sc hsc hid ⟨label, hlabel, d, hd, hapart⟩

/-! ## Captured labels -/

theorem normalizeKey_ne_nil {key : Text} (h : key ≠ []) : normalizeKey cm key ≠ [] := by
  cases hlookup : keyNames.lookup (cm.lower key) with
  | some named =>
    have hnamed : ∀ t ∈ ["Esc".toList, "Space".toList, "Pause".toList], t ≠ [] := by decide
    rw [normalizeKey_of_lookup cm hlookup]
    exact hnamed named (mem_of_lookup hlookup)
  | none =>
    rw [normalizeKey_of_none cm hlookup]
    split
    · next hchar =>
      obtain ⟨c, rfl, -⟩ := isCharacter_iff.mp hchar
      rw [List.flatMap_singleton]
      exact cm.upper_ne_nil c
    · exact h

theorem codeChar_eq_some {code : Option Text} {key : Text} (h : codeChar code = some key) :
    ∃ c, key = [c] ∧ (c.isUpper || c.isDigit) = true := by
  unfold codeChar at h
  split at h
  · next c =>
    split at h
    · next hc =>
      cases h
      exact ⟨c, rfl, hc⟩
    · cases h
  · next c =>
    split at h
    · next hc =>
      cases h
      exact ⟨c, rfl, hc⟩
    · cases h
  · cases h

theorem normalizeKey_codeChar {c : Char} (h : (c.isUpper || c.isDigit) = true) : normalizeKey cm [c] = [c] := by
  have hval : c.toNat = c.val.toNat := rfl
  have hbounds : 'A'.val.toNat = 65 ∧ 'Z'.val.toNat = 90 ∧ '0'.val.toNat = 48 ∧ '9'.val.toNat = 57 :=
    ⟨rfl, rfl, rfl, rfl⟩
  have hcode : 48 ≤ c.toNat ∧ c.toNat ≤ 90 := by
    simp only [Char.isUpper, Char.isDigit, Bool.or_eq_true, Bool.and_eq_true, decide_eq_true_eq, ge_iff_le,
      UInt32.le_iff_toNat_le] at h
    omega
  obtain ⟨n, hn, rfl⟩ : ∃ n, n < 91 ∧ c = Char.ofNat n := ⟨c.toNat, by omega, (Char.ofNat_toNat c).symm⟩
  have hall : ∀ n < 91, ((Char.ofNat n).isUpper || (Char.ofNat n).isDigit) = true →
      keyNames.lookup [(Char.ofNat n).toLower] = none ∧ (Char.ofNat n).toUpper = Char.ofNat n ∧
        isCharacter [Char.ofNat n] = true ∧ (Char.ofNat n).toNat < 0x80 := by decide +kernel
  obtain ⟨hlookup, hupper, hchar, hascii⟩ := hall n hn h
  have hlower : cm.lower [Char.ofNat n] = [(Char.ofNat n).toLower] :=
    cm.lower_ascii _ (List.forall_mem_singleton.mpr hascii)
  rw [normalizeKey_of_none cm (hlower ▸ hlookup), if_pos hchar, List.flatMap_singleton, cm.upper_ascii _ hascii,
    hupper]

theorem normalizeKey_eventKey (e : KeyEvent) : normalizeKey cm (eventKey cm e) = eventKey cm e := by
  unfold eventKey
  dsimp only
  split
  · exact normalizeKey_normalizeKey cm e.key
  · cases hcode : codeChar e.code with
    | none => exact normalizeKey_normalizeKey cm e.key
    | some key =>
      obtain ⟨c, rfl, hc⟩ := codeChar_eq_some hcode
      exact normalizeKey_codeChar cm hc

theorem eventKey_ne_nil {e : KeyEvent} (h : e.key ≠ []) : eventKey cm e ≠ [] := by
  unfold eventKey
  dsimp only
  split
  · exact normalizeKey_ne_nil cm h
  · cases hcode : codeChar e.code with
    | none => exact normalizeKey_ne_nil cm h
    | some key =>
      obtain ⟨c, rfl, -⟩ := codeChar_eq_some hcode
      exact List.cons_ne_nil c []

theorem setFlags_eq_none_iff {combo : Combo} {parts : List Text} :
    setFlags cm combo parts = none ↔ ∃ part ∈ parts, modifierTokens.lookup (cm.lower (jsTrim part)) = none := by
  fun_induction setFlags cm combo parts with
  | case1 combo => simp
  | case2 combo part parts flag h ih => rw [ih, List.exists_mem_cons_iff, h]; simp
  | case3 combo part parts h => exact iff_of_true rfl ⟨part, List.mem_cons_self, h⟩

/-- The modifiers in front do not decide whether a label is one. -/
theorem parse_format_eq_none_iff (mod alt shift : Bool) {k : Text} (hne : k ≠ []) :
    parseCombo cm (formatCombo ⟨mod, alt, shift, k⟩) = none ↔ parseCombo cm k = none := by
  rw [parseCombo_formatCombo cm mod alt shift hne, parseCombo]
  dsimp only
  split
  · exact Iff.rfl
  · rw [Option.map_eq_none_iff, Option.map_eq_none_iff, setFlags_eq_none_iff, setFlags_eq_none_iff]

/-- A canonical combination is not matched by an event whose key is not plain. -/
theorem plain_of_matches {c : Combo} (hc : Canonical cm c) {e : KeyEvent} (h : matchesCombo cm c e = true) :
    PlainKey (eventKey cm e) := by
  obtain ⟨-, ⟨-, hkey | ⟨-, hkey⟩⟩ | ⟨-, -, ⟨-, hkey⟩ | ⟨hchar, hlower⟩⟩⟩ := (matchesCombo_iff cm c e).mp h
  · exact hkey ▸ hc.plain
  · rw [hkey]
    exact ⟨by decide, fun h ↦ absurd h (by decide)⟩
  · exact hkey ▸ hc.plain
  · have hplus : '+' ∉ c.key := by
      intro hmem
      rw [hc.plain.2 hmem] at hchar
      exact absurd hchar (by decide)
    refine ⟨?_, fun hmem ↦ absurd ?_ hplus⟩
    · rw [← cm.trimmed_lower, ← hlower]
      exact (cm.trimmed_lower c.key).mpr hc.plain.1
    · rw [← cm.mem_lower_plus, hlower]
      exact (cm.mem_lower_plus _).mpr hmem

theorem captures_iff (e : KeyEvent) : Captures cm e ↔ PlainEvent cm e := by
  unfold Captures PlainEvent comboFromEvent
  by_cases hnone : e.key = [] ∨ cm.lower e.key ∈ modifierKeys
  · rw [if_pos hnone]
    refine iff_of_true (fun label h ↦ by cases h) ?_
    exact hnone.imp_right .inl
  · have hne : eventKey cm e ≠ [] := eventKey_ne_nil cm fun h ↦ hnone (.inl h)
    rw [if_neg hnone]
    constructor
    · intro h
      refine .inr (.inr ?_)
      cases hparse : parseCombo cm (formatCombo ⟨e.ctrlKey || e.metaKey, e.altKey, e.shiftKey, eventKey cm e⟩) with
      | none => exact .inr ((parse_format_eq_none_iff cm _ _ _ hne).mp hparse)
      | some c =>
        have hcanon := canonical_of_parse cm hparse
        have hanswers := h (formatCombo c) (by rw [normalizeKeys, hparse, Option.map_some])
        exact .inl (plain_of_matches cm hcanon ((answers_iff cm hcanon.parse_format e).mp hanswers))
    · rintro (hkey | hmodifier | hplain | hparse)
      · exact absurd (.inl hkey) hnone
      · exact absurd (.inr hmodifier) hnone
      · intro label hlabel
        have hparse := parseCombo_formatCombo_of_plain cm (e.ctrlKey || e.metaKey) e.altKey e.shiftKey hne hplain
        rw [normalizeKey_eventKey] at hparse
        rw [normalizeKeys, hparse, Option.map_some] at hlabel
        cases hlabel
        have hcanon := canonical_of_parse cm hparse
        rw [answers_iff cm hcanon.parse_format, matchesCombo_iff]
        dsimp only
        cases isSymbol (eventKey cm e) <;> cases isCharacter (eventKey cm e) <;> simp
      · intro label hlabel
        rw [normalizeKeys, (parse_format_eq_none_iff cm _ _ _ hne).mpr hparse] at hlabel
        cases hlabel

end

/-- A letter is lowered to itself or to a letter. -/
theorem toLower_eq_of_not_isAlpha {c d : Char} (h : c.toLower = d) (hd : d.isAlpha = false) : c = d := by
  by_cases hc : c.isUpper = true
  · have halpha : c.toLower.isAlpha = c.isAlpha := Char.isAlpha_toLower_eq_isAlpha c
    rw [h, hd] at halpha
    simp [Char.isAlpha, hc] at halpha
  · rwa [Char.toLower_eq_of_not_isUpper hc] at h

theorem isJsSpace_of_isAlpha {c : Char} (h : c.isAlpha = true) : isJsSpace c = false := by
  cases hspace : isJsSpace c with
  | false => rfl
  | true =>
    have hword := isWordChar_of_isJsSpace hspace
    simp [isWordChar, h] at hword

theorem isJsSpace_toLower (c : Char) : isJsSpace c.toLower = isJsSpace c := by
  by_cases hc : c.isUpper = true
  · have halpha : c.isAlpha = true := by simp [Char.isAlpha, hc]
    rw [isJsSpace_of_isAlpha halpha,
      isJsSpace_of_isAlpha ((Char.isAlpha_toLower_eq_isAlpha c).trans halpha)]
  · rw [Char.toLower_eq_of_not_isUpper hc]

theorem jsTrim_map_toLower (t : Text) : jsTrim (t.map Char.toLower) = (jsTrim t).map Char.toLower := by
  have hspace : isJsSpace ∘ Char.toLower = isJsSpace := funext isJsSpace_toLower
  unfold jsTrim jsTrimEnd jsTrimStart List.rdropWhile
  rw [List.dropWhile_map, hspace, ← List.map_reverse, List.dropWhile_map, hspace, ← List.map_reverse]

/-- ASCII. -/
def asciiCase : CaseMapping where
  upper c := [c.toUpper]
  lower t := t.map Char.toLower
  upper_ascii _ _ := rfl
  lower_ascii _ _ := rfl
  upper_single c d h := by
    rw [← (List.cons.inj h).1, Char.toUpper_toUpper_eq_toUpper]
  upper_ne_nil _ := List.cons_ne_nil _ _
  upper_plain c hspace hplus := by
    rw [List.forall_mem_singleton]
    by_cases hc : c.isLower = true
    · have halpha : c.toUpper.isAlpha = true := by
        rw [Char.isAlpha_toUpper_eq_isAlpha, Char.isAlpha, hc, Bool.or_true]
      refine ⟨isJsSpace_of_isAlpha halpha, fun h ↦ ?_⟩
      rw [h] at halpha
      exact absurd halpha (by decide)
    · rw [Char.toUpper_eq_of_not_isLower hc]
      exact ⟨hspace, hplus⟩
  lower_upper c name h := by
    rw [List.map_cons, List.map_nil, Char.toLower_toUpper_eq_toLower] at h
    rw [List.map_cons, List.map_nil, h]
    exact Option.some_ne_none name
  lower_equals t h := by
    obtain ⟨c, rfl, hc⟩ := List.map_eq_singleton_iff.mp h
    rw [toLower_eq_of_not_isAlpha hc (by decide)]
  mem_lower_plus t := by
    rw [List.mem_map]
    constructor
    · rintro ⟨c, hc, hlower⟩
      exact toLower_eq_of_not_isAlpha hlower (by decide) ▸ hc
    · exact fun h ↦ ⟨'+', h, rfl⟩
  trimmed_lower t := by
    have hsublist : (jsTrim t).Sublist t :=
      (List.rdropWhile_prefix _ _).sublist.trans (List.dropWhile_suffix _).sublist
    rw [jsTrim_map_toLower]
    constructor
    · intro h
      have hlength := congrArg List.length h
      rw [List.length_map, List.length_map] at hlength
      exact hsublist.eq_of_length hlength
    · exact fun h ↦ by rw [h]

/-- Zooming in and out, as far as their keys go. -/
def zoomTable : List (Shortcut ℕ) := [⟨0, "Mod++".toList, none⟩, ⟨1, "Mod+-".toList, none⟩]

/-- The event of Ctrl and `K`. -/
def ctrlK : KeyEvent := ⟨"k".toList, true, false, false, false, none⟩

end Squaero.Front.Shortcuts
