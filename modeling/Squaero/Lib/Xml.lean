import Mathlib.Data.List.Infix
import Squaero.Lib.Json
import Squaero.Lib.Text

/-!
# XML documents

A reader of XML: the characters of a document, its line ends, tags with attributes, character data with its
references, and the tree they stand for. Comments, `CDATA` sections, document types and blanks around an equals
sign are not read. A text that is built of elements is read as these elements, whatever their character data.
-/

namespace Squaero.Lib.Xml

/-- The characters of a document. -/
def isXmlChar (c : Char) : Bool :=
  c = '\t' || c = '\n' || c = '\r' || (0x20 ≤ c.toNat && c.toNat ≠ 0xFFFE && c.toNat ≠ 0xFFFF)

/-- Each line end as a line feed. -/
def lineEnds : Text → Text
  | '\r' :: '\n' :: rest => '\n' :: lineEnds rest
  | '\r' :: rest => '\n' :: lineEnds rest
  | c :: rest => c :: lineEnds rest
  | [] => []

attribute [local grind =] lineEnds

inductive Node
  | text (value : Text)
  | element (name : Text) (attributes : List (Text × Text)) (children : List Node)

/-! ## References -/

/-- The character of a reference by its number. -/
def charOf (n : ℕ) : Option Char :=
  if n.isValidChar ∧ isXmlChar (Char.ofNat n) then some (Char.ofNat n) else none

/-- What stands between `&` and `;`. -/
def reference (name : Text) : Option Char :=
  if name = "amp".toList then some '&'
  else if name = "lt".toList then some '<'
  else if name = "gt".toList then some '>'
  else if name = "quot".toList then some '"'
  else if name = "apos".toList then some '\''
  else
    match name with
    | '#' :: 'x' :: digits => do
      let values ← digits.mapM hexDigit
      if digits = [] then none else charOf (values.foldl (fun n d ↦ n * 16 + d) 0)
    | '#' :: digits => if digits ≠ [] ∧ digits.all Char.isDigit then charOf (Json.natOfDigits digits) else none
    | _ => none

/-- Character data with its references replaced; `name` is the open reference, last character first. -/
def decode : Option Text → Text → Option Text
  | none, [] => some []
  | none, c :: rest => if c = '&' then decode (some []) rest else (decode none rest).map (c :: ·)
  | some _, [] => none
  | some name, c :: rest =>
    if c = ';' then do
      let d ← reference name.reverse
      (decode none rest).map (d :: ·)
    else decode (some (c :: name)) rest

attribute [local grind =] decode

/-- Some text may stand for the character in character data. -/
def escape (c : Char) : Text :=
  if c = '&' then "&amp;".toList
  else if c = '<' then "&lt;".toList
  else if c = '>' then "&gt;".toList
  else if c = '"' then "&quot;".toList
  else if c = '\'' then "&apos;".toList
  else [c]

/-! ## Tags -/

inductive Event
  | opening (name : Text) (attributes : List (Text × Text))
  | closing (name : Text)
  | characters (value : Text)

/-- A start tag as far as it is read, the last attribute first. -/
structure Tag where
  name : Text
  attributes : List (Text × Text)

def Tag.opening (tag : Tag) : Event := .opening tag.name tag.attributes.reverse

/-- Where the reader is; what it has of a piece of text stands last character first. -/
inductive Mode
  | content (acc : Text)
  | markup
  | instruction (question : Bool)
  | closing (acc : Text)
  | name (acc : Text)
  | inside (tag : Tag)
  | key (tag : Tag) (acc : Text)
  | equals (tag : Tag) (key : Text)
  | value (tag : Tag) (key : Text) (quote : Char) (acc : Text)
  | after (tag : Tag)
  | slash (tag : Tag)

def isBlank (c : Char) : Bool := c = ' ' || c = '\t' || c = '\n' || c = '\r'

def isNameStart (c : Char) : Bool := c.isAlpha || c = '_' || c = ':' || isWide c

def isNameChar (c : Char) : Bool := isNameStart c || c.isDigit || c = '-' || c = '.'

/-- The character data in front of a tag or the end. -/
def flush (acc : Text) : Option (List Event) :=
  if acc = [] then some []
  else if "]]>".toList <:+: acc.reverse then none
  else (decode none acc.reverse).map fun value ↦ [.characters value]

/-- What may stand behind a name or an attribute in a start tag. -/
def endOrBlank (tag : Tag) (c : Char) : Option (Mode × List Event) :=
  if isBlank c then some (.inside tag, [])
  else if c = '/' then some (.slash tag, [])
  else if c = '>' then some (.content [], [tag.opening])
  else none

def step : Mode → Char → Option (Mode × List Event)
  | .content acc, c => if c = '<' then (flush acc).map (.markup, ·) else some (.content (c :: acc), [])
  | .markup, c =>
    if c = '/' then some (.closing [], [])
    else if c = '?' then some (.instruction false, [])
    else if isNameStart c then some (.name [c], [])
    else none
  | .instruction question, c => some (if question ∧ c = '>' then .content [] else .instruction (c = '?'), [])
  | .closing acc, c =>
    if c = '>' then some (.content [], [.closing acc.reverse])
    else if isNameChar c then some (.closing (c :: acc), [])
    else none
  | .name acc, c => if isNameChar c then some (.name (c :: acc), []) else endOrBlank ⟨acc.reverse, []⟩ c
  | .inside tag, c => if isNameStart c then some (.key tag [c], []) else endOrBlank tag c
  | .key tag acc, c =>
    if isNameChar c then some (.key tag (c :: acc), [])
    else if c = '=' then some (.equals tag acc.reverse, [])
    else none
  | .equals tag key, c => if c = '"' ∨ c = '\'' then some (.value tag key c [], []) else none
  | .value tag key quote acc, c =>
    if c = quote then
      (decode none (acc.reverse.map fun c ↦ if isBlank c then ' ' else c)).map fun value ↦
        (.after ⟨tag.name, (key, value) :: tag.attributes⟩, [])
    else if c = '<' then none
    else some (.value tag key quote (c :: acc), [])
  | .after tag, c => endOrBlank tag c
  | .slash tag, c => if c = '>' then some (.content [], [tag.opening, .closing tag.name]) else none

def steps : Mode → Text → Option (Mode × List Event)
  | m, [] => some (m, [])
  | m, c :: rest => do
    let (next, events) ← step m c
    (steps next rest).map fun r ↦ (r.1, events ++ r.2)

/-- The events of a whole text. -/
def events (text : Text) : Option (List Event) := do
  let (m, events) ← steps (.content []) text
  match m with
  | .content acc => (flush acc).map (events ++ ·)
  | _ => none

/-! ## The tree -/

/-- An element that is open, its last child first. -/
structure Frame where
  name : Text
  attributes : List (Text × Text)
  children : List Node

def Frame.push (f : Frame) (nodes : List Node) : Frame := { f with children := nodes.reverse ++ f.children }

def place : List Frame → Event → Option (List Frame)
  | stack, .opening name attributes =>
    if (attributes.map Prod.fst).Nodup then some (⟨name, attributes, []⟩ :: stack) else none
  | f :: stack, .characters value => some (f.push [.text value] :: stack)
  | f :: g :: stack, .closing name =>
    if f.name = name then some (g.push [.element f.name f.attributes f.children.reverse] :: stack) else none
  | _, _ => none

def Node.isBlank : Node → Bool
  | .text value => value.all Xml.isBlank
  | _ => false

/-- The element that the document consists of. -/
def root (nodes : List Node) : Option Node :=
  match nodes.filter (!·.isBlank) with
  | [.element name attributes children] => some (.element name attributes children)
  | _ => none

def treeOf (events : List Event) : Option Node := do
  let stack ← events.foldlM place [⟨[], [], []⟩]
  match stack with
  | [document] => root document.children.reverse
  | _ => none

/-- The element of a well-formed document. -/
def parse (text : Text) : Option Node :=
  if text.all isXmlChar then (events (lineEnds text)).bind treeOf else none

/-! ## What a tree is asked for -/

mutual

/-- The elements of a name, a node itself first. -/
def Node.named (wanted : Text) : Node → List Node
  | .text _ => []
  | .element name attributes children =>
    (if name = wanted then [.element name attributes children] else []) ++ namedAll wanted children

def namedAll (wanted : Text) : List Node → List Node
  | [] => []
  | n :: nodes => n.named wanted ++ namedAll wanted nodes

end

/-- `getElementsByTagName` -/
def Node.elements (wanted : Text) : Node → List Node
  | .text _ => []
  | .element _ _ children => namedAll wanted children

mutual

def Node.textContent : Node → Text
  | .text value => value
  | .element _ _ children => textContentAll children

def textContentAll : List Node → Text
  | [] => []
  | n :: nodes => n.textContent ++ textContentAll nodes

end

/-- `getAttribute` -/
def Node.attribute (wanted : Text) : Node → Option Text
  | .text _ => none
  | .element _ attributes _ => attributes.lookup wanted

theorem namedAll_map {ι : Type*} (wanted : Text) (l : List ι) (f : ι → Node) :
    namedAll wanted (l.map f) = l.flatMap fun i ↦ (f i).named wanted := by
  induction l with
  | nil => rfl
  | cons i l ih => rw [List.map_cons, namedAll, ih, List.flatMap_cons]

/-! ## Character data -/

theorem escape_of_plain {c : Char} (h : c ∉ ['&', '<', '>', '"', '\'']) : escape c = [c] := by
  simp only [List.mem_cons, not_or] at h
  unfold escape
  rw [if_neg h.1, if_neg h.2.1, if_neg h.2.2.1, if_neg h.2.2.2.1, if_neg h.2.2.2.2.1]

theorem escape_ne_nil (c : Char) : escape c ≠ [] := by
  unfold escape
  split_ifs <;> exact List.cons_ne_nil _ _

theorem not_mem_escape {c d : Char} (h : d ∈ ['<', '>', '\r', '\n']) (hd : d ≠ c ∨ d ∈ ['<', '>']) :
    d ∉ escape c := by
  have hclosed : ∀ piece ∈ ["&amp;", "&lt;", "&gt;", "&quot;", "&apos;"], ∀ d ∈ ['<', '>', '\r', '\n'],
      d ∉ piece.toList := by decide
  have hmeta : ∀ d ∈ ['<', '>'], d ∈ ['&', '<', '>', '"', '\''] := by decide
  by_cases hplain : c ∈ ['&', '<', '>', '"', '\'']
  · have hpiece : ∃ piece ∈ ["&amp;", "&lt;", "&gt;", "&quot;", "&apos;"], escape c = piece.toList := by
      have hall : ∀ c ∈ ['&', '<', '>', '"', '\''],
          ∃ piece ∈ ["&amp;", "&lt;", "&gt;", "&quot;", "&apos;"], escape c = piece.toList := by decide
      exact hall c hplain
    obtain ⟨piece, hmem, heq⟩ := hpiece
    exact heq ▸ hclosed piece hmem d h
  · rw [escape_of_plain hplain, List.mem_singleton]
    obtain hne | hmem := hd
    · exact hne
    · exact fun hcd ↦ hplain (hcd ▸ hmeta d hmem)

theorem decode_escape (c : Char) (rest : Text) :
    decode none (escape c ++ rest) = (decode none rest).map (c :: ·) := by
  by_cases hplain : c ∈ ['&', '<', '>', '"', '\'']
  · simp only [List.mem_cons, List.not_mem_nil, or_false] at hplain
    rcases hplain with rfl | rfl | rfl | rfl | rfl <;> rfl
  · have hc : c ≠ '&' := fun h ↦ hplain (h ▸ List.mem_cons_self)
    rw [escape_of_plain hplain, List.singleton_append, decode, if_neg hc]

theorem decode_flatMap_escape (value : Text) : decode none (value.flatMap escape) = some value := by
  induction value with
  | nil => rfl
  | cons c value ih => rw [List.flatMap_cons, decode_escape, ih, Option.map_some]

/-- Without `&` there are no references. -/
theorem decode_of_plain {raw : Text} (h : '&' ∉ raw) : decode none raw = some raw := by
  induction raw with
  | nil => rfl
  | cons c raw ih =>
    rw [List.mem_cons, not_or] at h
    rw [decode, if_neg (Ne.symm h.1), ih h.2, Option.map_some]

/-! ## Line ends -/

theorem lineEnds_cons {c : Char} (h : c ≠ '\r') (rest : Text) : lineEnds (c :: rest) = c :: lineEnds rest := by
  rw [lineEnds]
  · exact fun _ hc ↦ absurd hc h
  · exact fun hc ↦ absurd hc h

theorem lineEnds_return {rest : Text} (h : rest.head? ≠ some '\n') :
    lineEnds ('\r' :: rest) = '\n' :: lineEnds rest := by
  rw [lineEnds]
  rintro more rfl
  exact h rfl

theorem lineEnds_of_not_mem {text : Text} (h : '\r' ∉ text) : lineEnds text = text := by
  induction text with
  | nil => rfl
  | cons c text ih =>
    rw [List.mem_cons, not_or] at h
    rw [lineEnds_cons (Ne.symm h.1), ih h.2]

theorem not_mem_lineEnds (text : Text) : '\r' ∉ lineEnds text := by
  fun_induction lineEnds text with
  | case1 rest ih => exact List.not_mem_cons_of_ne_of_not_mem (by decide) ih
  | case2 rest _ ih => exact List.not_mem_cons_of_ne_of_not_mem (by decide) ih
  | case3 c rest _ hc ih => exact List.not_mem_cons_of_ne_of_not_mem (fun h ↦ hc h.symm) ih
  | case4 => exact List.not_mem_nil

theorem lineEnds_append_of_not_mem {text : Text} (h : '\r' ∉ text) (more : Text) :
    lineEnds (text ++ more) = text ++ lineEnds more := by
  induction text with
  | nil => rfl
  | cons c text ih =>
    rw [List.mem_cons, not_or] at h
    rw [List.cons_append, lineEnds_cons (Ne.symm h.1), ih h.2, List.cons_append]

theorem lineEnds_append (text : Text) {more : Text} (h : more.head? ≠ some '\n') :
    lineEnds (text ++ more) = lineEnds text ++ lineEnds more := by
  fun_induction lineEnds text with
  | case1 rest ih => rw [List.cons_append, List.cons_append, lineEnds, ih, List.cons_append]
  | case2 rest hrest ih =>
    have hhead : (rest ++ more).head? ≠ some '\n' := by
      cases rest with
      | nil => exact h
      | cons c rest => exact fun hc ↦ hrest rest (by rw [Option.some.inj hc])
    rw [List.cons_append, lineEnds_return hhead, ih, List.cons_append]
  | case3 c rest _ hc ih => rw [List.cons_append, lineEnds_cons hc, ih, List.cons_append]
  | case4 => rfl

/-- Escaped text keeps its line ends. -/
theorem lineEnds_flatMap_escape (value : Text) :
    lineEnds (value.flatMap escape) = (lineEnds value).flatMap escape := by
  fun_induction lineEnds value with
  | case1 rest ih => exact congrArg ('\n' :: ·) ih
  | case2 rest hrest ih =>
    have hhead : (rest.flatMap escape).head? ≠ some '\n' := by
      cases rest with
      | nil => exact fun h ↦ nomatch h
      | cons c rest =>
        rw [List.flatMap_cons, List.head?_append_of_ne_nil _ (escape_ne_nil c)]
        have hc : '\n' ≠ c := fun h ↦ hrest rest (by rw [h])
        exact fun h ↦ not_mem_escape (by decide) (Or.inl hc) (List.mem_of_head? h)
    calc lineEnds ('\r' :: rest.flatMap escape)
      _ = '\n' :: lineEnds (rest.flatMap escape) := lineEnds_return hhead
      _ = '\n' :: (lineEnds rest).flatMap escape := by rw [ih]
  | case3 c rest _ hc ih =>
    have hpiece : '\r' ∉ escape c := not_mem_escape (by decide) (Or.inl fun h ↦ hc h.symm)
    rw [List.flatMap_cons, List.flatMap_cons, lineEnds_append_of_not_mem hpiece, ih]
  | case4 => rfl

/-! ## Scanning -/

theorem steps_cons {m next : Mode} {c : Char} {events : List Event} (h : step m c = some (next, events))
    (rest : Text) : steps m (c :: rest) = (steps next rest).map fun r ↦ (r.1, events ++ r.2) := by
  rw [steps, h]
  rfl

theorem steps_append {m next last : Mode} {a b : Text} {first second : List Event}
    (ha : steps m a = some (next, first)) (hb : steps next b = some (last, second)) :
    steps m (a ++ b) = some (last, first ++ second) := by
  induction a generalizing m first with
  | nil =>
    cases ha
    exact hb
  | cons c a ih =>
    rw [steps, Option.bind_eq_bind, Option.bind_eq_some_iff] at ha
    obtain ⟨⟨middle, events⟩, hstep, ha⟩ := ha
    obtain ⟨⟨after, later⟩, hrest, hsame⟩ := Option.map_eq_some_iff.mp ha
    cases hsame
    rw [List.cons_append, steps_cons hstep, ih hrest, Option.map_some, List.append_assoc]

theorem steps_one {m next : Mode} {c : Char} {events : List Event} (h : step m c = some (next, events)) :
    steps m [c] = some (next, events) := by
  rw [steps_cons h, steps, Option.map_some, List.append_nil]

/-- Characters that a mode collects. -/
theorem steps_collect {mode : Text → Mode} {text : Text}
    (h : ∀ c ∈ text, ∀ acc, step (mode acc) c = some (mode (c :: acc), [])) (acc : Text) :
    steps (mode acc) text = some (mode (text.reverse ++ acc), []) := by
  induction text generalizing acc with
  | nil => rfl
  | cons c text ih =>
    rw [steps_cons (h c List.mem_cons_self acc), ih (fun d hd ↦ h d (List.mem_cons_of_mem c hd)), Option.map_some,
      List.reverse_cons, List.append_assoc]
    rfl

def isName : Text → Bool
  | [] => false
  | c :: rest => isNameStart c && rest.all isNameChar

/-- What an attribute may say in plain characters. -/
def IsPlain (value : Text) : Prop := ∀ c ∈ value, c ∉ ['"', '<', '&', '\t', '\n', '\r']

def attributeText (pair : Text × Text) : Text := ' ' :: (pair.1 ++ '=' :: '"' :: (pair.2 ++ ['"']))

/-- A start tag up to its end. -/
def openTag (name : Text) (attributes : List (Text × Text)) : Text :=
  '<' :: (name ++ attributes.flatMap attributeText)

def closeTag (name : Text) : Text := '<' :: '/' :: (name ++ ['>'])

/-- A mode in which a start tag may end or go on. -/
def Ends (m : Mode) (tag : Tag) : Prop := ∀ c ∈ [' ', '/', '>'], step m c = endOrBlank tag c

theorem ends_name (acc : Text) : Ends (.name acc) ⟨acc.reverse, []⟩ := by
  intro c hc
  have hall : ∀ c ∈ [' ', '/', '>'], isNameChar c = false := by decide
  rw [step, hall c hc]
  rfl

theorem steps_attribute {m : Mode} {tag : Tag} (hm : Ends m tag) {key value : Text} (hkey : isName key = true)
    (hvalue : IsPlain value) :
    steps m (attributeText (key, value)) = some (.after ⟨tag.name, (key, value) :: tag.attributes⟩, []) := by
  cases key with
  | nil => cases hkey
  | cons k key =>
    obtain ⟨hstart, hrest⟩ := Bool.and_eq_true_iff.mp hkey
    have hblank : step m ' ' = some (.inside tag, []) := by
      rw [hm ' ' (by decide)]
      rfl
    have hfirst : step (.inside tag) k = some (.key tag [k], []) := by rw [step, if_pos hstart]
    have hkeys := @steps_collect (.key tag) key (fun c hc acc ↦ by
      rw [step, if_pos (List.all_eq_true.mp hrest c hc)]) [k]
    have hequals : step (.key tag (key.reverse ++ [k])) '=' = some (.equals tag (k :: key), []) := by
      have hreverse : (key.reverse ++ [k]).reverse = k :: key := by simp
      rw [step, if_neg (by decide), if_pos rfl, hreverse]
    have hquote : step (.equals tag (k :: key)) '"' = some (.value tag (k :: key) '"' [], []) := rfl
    have hvalues := @steps_collect (.value tag (k :: key) '"') value (fun c hc acc ↦ by
      have hplain := hvalue c hc
      simp only [List.mem_cons, not_or] at hplain
      rw [step, if_neg hplain.1, if_neg hplain.2.1]) []
    have hmap : value.map (fun c ↦ if isBlank c then ' ' else c) = value := by
      refine (List.map_congr_left fun c hc ↦ ?_).trans (List.map_id' _)
      have hplain := hvalue c hc
      simp only [List.mem_cons, not_or] at hplain
      split_ifs with hblank
      · exact Eq.symm (by simpa [isBlank, hplain] using hblank)
      · rfl
    have hdecode : decode none value = some value := decode_of_plain fun h ↦ hvalue '&' h (by decide)
    have hclose : step (.value tag (k :: key) '"' (value.reverse ++ [])) '"' =
        some (.after ⟨tag.name, (k :: key, value) :: tag.attributes⟩, []) := by
      rw [step, if_pos rfl, List.append_nil, List.reverse_reverse, hmap, hdecode]
      rfl
    calc steps m (attributeText (k :: key, value))
      _ = steps m ([' '] ++ ([k] ++ (key ++ (['='] ++ (['"'] ++ (value ++ ['"'])))))) := rfl
      _ = some (.after ⟨tag.name, (k :: key, value) :: tag.attributes⟩, []) :=
        steps_append (steps_one hblank) (steps_append (steps_one hfirst) (steps_append hkeys
          (steps_append (steps_one hequals) (steps_append (steps_one hquote) (steps_append hvalues (steps_one hclose))))))

theorem ends_after (tag : Tag) : Ends (.after tag) tag := fun _ _ ↦ rfl

theorem steps_attributes {m : Mode} {tag : Tag} (hm : Ends m tag) {attributes : List (Text × Text)}
    (h : ∀ a ∈ attributes, isName a.1 = true ∧ IsPlain a.2) :
    ∃ next, steps m (attributes.flatMap attributeText) = some (next, []) ∧
      Ends next ⟨tag.name, attributes.reverse ++ tag.attributes⟩ := by
  induction attributes generalizing m tag with
  | nil => exact ⟨m, rfl, hm⟩
  | cons a attributes ih =>
    obtain ⟨hkey, hvalue⟩ := h a List.mem_cons_self
    obtain ⟨next, hsteps, hends⟩ := ih (ends_after ⟨tag.name, a :: tag.attributes⟩)
      fun b hb ↦ h b (List.mem_cons_of_mem a hb)
    rw [List.reverse_cons, List.append_assoc]
    exact ⟨next, steps_append (steps_attribute hm hkey hvalue) hsteps, hends⟩

/-- What a start tag is made of. -/
structure TagOk (name : Text) (attributes : List (Text × Text)) : Prop where
  name_ok : isName name = true
  attributes_ok : ∀ a ∈ attributes, isName a.1 = true ∧ IsPlain a.2
  nodup : (attributes.map Prod.fst).Nodup

/-- A start tag up to its end, behind the character data in front of it. -/
theorem steps_openTag {name : Text} {attributes : List (Text × Text)} (h : TagOk name attributes) :
    ∃ next, steps (.content []) (openTag name attributes) = some (next, []) ∧
      Ends next ⟨name, attributes.reverse⟩ := by
  have hname := h.name_ok
  cases name with
  | nil => cases hname
  | cons c name =>
    obtain ⟨hstart, hrest⟩ := Bool.and_eq_true_iff.mp hname
    have hopen : step (.content []) '<' = some (.markup, []) := rfl
    have hfirst : step .markup c = some (.name [c], []) := by
      have hslash : c ≠ '/' := fun h ↦ absurd (h ▸ hstart) (by decide)
      have hquestion : c ≠ '?' := fun h ↦ absurd (h ▸ hstart) (by decide)
      rw [step, if_neg hslash, if_neg hquestion, if_pos hstart]
    have hchars := @steps_collect Mode.name name (fun d hd acc ↦ by
      rw [step, if_pos (List.all_eq_true.mp hrest d hd)]) [c]
    have hreverse : (name.reverse ++ [c]).reverse = c :: name := by simp
    obtain ⟨next, hsteps, hends⟩ := steps_attributes (hreverse ▸ ends_name (name.reverse ++ [c])) h.attributes_ok
    rw [List.append_nil] at hends
    refine ⟨next, ?_, hends⟩
    exact steps_append (steps_one hopen) (steps_append (steps_one hfirst) (steps_append hchars hsteps))

theorem steps_startTag {name : Text} {attributes : List (Text × Text)} (h : TagOk name attributes) :
    steps (.content []) (openTag name attributes ++ ['>']) = some (.content [], [.opening name attributes]) := by
  obtain ⟨next, hsteps, hends⟩ := steps_openTag h
  have hend : step next '>' = some (.content [], [.opening name attributes]) := by
    rw [hends '>' (by decide)]
    calc _ = some (Mode.content [], [Event.opening name attributes.reverse.reverse]) := rfl
      _ = _ := by rw [List.reverse_reverse]
  exact steps_append hsteps (steps_one hend)

theorem steps_emptyTag {name : Text} {attributes : List (Text × Text)} (h : TagOk name attributes) :
    steps (.content []) (openTag name attributes ++ ['/', '>']) =
      some (.content [], [.opening name attributes, .closing name]) := by
  obtain ⟨next, hsteps, hends⟩ := steps_openTag h
  have hslash : step next '/' = some (.slash ⟨name, attributes.reverse⟩, []) := hends '/' (by decide)
  have hend : step (.slash ⟨name, attributes.reverse⟩) '>' =
      some (.content [], [.opening name attributes, .closing name]) := by
    rw [step, if_pos rfl, Tag.opening, List.reverse_reverse]
  exact steps_append hsteps (steps_append (steps_one hslash) (steps_one hend))

theorem steps_closeTag {name : Text} (hname : isName name = true) {acc : Text} {events : List Event}
    (hflush : flush acc = some events) :
    steps (.content acc) (closeTag name) = some (.content [], events ++ [.closing name]) := by
  have hopen : step (.content acc) '<' = some (.markup, events) := by rw [step, if_pos rfl, hflush, Option.map_some]
  have hslash : step .markup '/' = some (.closing [], []) := rfl
  have hchars := @steps_collect Mode.closing name (fun c hc acc ↦ by
    have hchar : isNameChar c = true := by
      cases name with
      | nil => cases hc
      | cons d name =>
        obtain ⟨hstart, hrest⟩ := Bool.and_eq_true_iff.mp hname
        obtain rfl | hc := List.mem_cons.mp hc
        · rw [isNameChar, hstart, Bool.true_or, Bool.true_or, Bool.true_or]
        · exact List.all_eq_true.mp hrest c hc
    have hne : c ≠ '>' := fun h ↦ absurd (h ▸ hchar) (by decide)
    rw [step, if_neg hne, if_pos hchar]) []
  have hend : step (.closing (name.reverse ++ [])) '>' = some (.content [], [.closing name]) := by
    rw [step, if_pos rfl, List.append_nil, List.reverse_reverse]
  exact steps_append (steps_one hopen) (steps_append (steps_one hslash) (steps_append hchars (steps_one hend)))

/-! ## Elements -/

theorem Frame.push_push (f : Frame) (a b : List Node) : (f.push a).push b = f.push (a ++ b) := by
  simp [Frame.push]

/-- A text that is read as some nodes. -/
def Writes (text : Text) (nodes : List Node) : Prop :=
  ∃ events, steps (.content []) text = some (.content [], events) ∧
    ∀ f stack, events.foldlM place (f :: stack) = some (f.push nodes :: stack)

theorem Writes.nil : Writes [] [] := ⟨[], rfl, fun _ _ ↦ rfl⟩

theorem Writes.append {a b : Text} {x y : List Node} (ha : Writes a x) (hb : Writes b y) :
    Writes (a ++ b) (x ++ y) := by
  obtain ⟨first, hfirst, hx⟩ := ha
  obtain ⟨second, hsecond, hy⟩ := hb
  refine ⟨first ++ second, steps_append hfirst hsecond, fun f stack ↦ ?_⟩
  rw [List.foldlM_append, hx, Option.bind_eq_bind, Option.bind_some, hy, Frame.push_push]

theorem Writes.map {ι : Type*} {l : List ι} {text : ι → Text} {node : ι → Node}
    (h : ∀ i ∈ l, Writes (text i) [node i]) : Writes (l.flatMap text) (l.map node) := by
  induction l with
  | nil => exact .nil
  | cons i l ih => exact (h i List.mem_cons_self).append (ih fun j hj ↦ h j (List.mem_cons_of_mem i hj))

section

variable {name : Text} {attributes : List (Text × Text)} (htag : TagOk name attributes)

include htag

/-- An open element takes its nodes, and its end tag puts it where it stands. -/
theorem foldlM_element {inner : List Event} {children : List Node}
    (h : ∀ f stack, inner.foldlM place (f :: stack) = some (f.push children :: stack)) (f : Frame)
    (stack : List Frame) :
    (Event.opening name attributes :: (inner ++ [.closing name])).foldlM place (f :: stack) =
      some (f.push [.element name attributes children] :: stack) := by
  have hopen : place (f :: stack) (.opening name attributes) = some (⟨name, attributes, []⟩ :: f :: stack) :=
    if_pos htag.nodup
  have hclose : place ((Frame.mk name attributes []).push children :: f :: stack) (.closing name) =
      some (f.push [.element name attributes children] :: stack) := by
    have hreverse : ((Frame.mk name attributes []).push children).children.reverse = children := by simp [Frame.push]
    rw [place, hreverse]
    exact if_pos rfl
  rw [List.foldlM_cons, hopen, Option.bind_eq_bind, Option.bind_some, List.foldlM_append, h, Option.bind_eq_bind,
    Option.bind_some, List.foldlM_cons, hclose]
  rfl

theorem Writes.element {inner : Text} {children : List Node} (h : Writes inner children) :
    Writes (openTag name attributes ++ '>' :: (inner ++ closeTag name)) [.element name attributes children] := by
  obtain ⟨events, hsteps, hplace⟩ := h
  have hclose := steps_closeTag htag.name_ok (show flush [] = some [] from rfl)
  refine ⟨.opening name attributes :: (events ++ [.closing name]), ?_, foldlM_element htag hplace⟩
  have hwhole := steps_append (steps_startTag htag) (steps_append hsteps hclose)
  rwa [List.append_assoc] at hwhole

theorem Writes.empty : Writes (openTag name attributes ++ ['/', '>']) [.element name attributes []] :=
  ⟨_, steps_emptyTag htag, @foldlM_element name attributes htag [] [] fun _ _ ↦ rfl⟩

/-- An element with nothing but character data. -/
theorem Writes.characters {raw value : Text} (hraw : ∀ c ∈ raw, c ∉ ['<', '>']) (hvalue : decode none raw = some value) :
    Writes (openTag name attributes ++ '>' :: (raw ++ closeTag name))
      [.element name attributes (if raw = [] then [] else [.text value])] := by
  have hchars := @steps_collect Mode.content raw (fun c hc acc ↦ by
    have hne : c ≠ '<' := fun h ↦ hraw c hc (h ▸ List.mem_cons_self)
    rw [step, if_neg hne]) []
  by_cases hempty : raw = []
  · subst hempty
    exact Writes.element htag .nil
  · have hflush : flush (raw.reverse ++ []) = some [.characters value] := by
      have hinfix : ¬"]]>".toList <:+: raw := fun h ↦ hraw '>' (h.subset (by decide)) (by decide)
      rw [List.append_nil, flush, if_neg (List.reverse_eq_nil_iff.not.mpr hempty), List.reverse_reverse,
        if_neg hinfix, hvalue, Option.map_some]
    rw [if_neg hempty]
    refine ⟨.opening name attributes :: ([.characters value] ++ [.closing name]), ?_,
      foldlM_element htag fun f stack ↦ rfl⟩
    have hwhole := steps_append (steps_startTag htag) (steps_append hchars (steps_closeTag htag.name_ok hflush))
    rwa [List.append_assoc] at hwhole

end

/-- A document of one element behind its prolog. -/
theorem parse_of_writes {text prolog body : Text} {name : Text} {attributes : List (Text × Text)}
    {children : List Node} (hchars : text.all isXmlChar = true) (hends : lineEnds text = prolog ++ body)
    (hprolog : steps (.content []) prolog = some (.content [], []))
    (h : Writes body [.element name attributes children]) : parse text = some (.element name attributes children) := by
  obtain ⟨events', hsteps, hplace⟩ := h
  have hevents : events (lineEnds text) = some events' := by
    rw [hends, events, steps_append hprolog hsteps, Option.bind_eq_bind, Option.bind_some]
    exact congrArg some (List.append_nil _)
  rw [parse, if_pos hchars, hevents, Option.bind_some, treeOf, hplace]
  rfl

end Squaero.Lib.Xml
