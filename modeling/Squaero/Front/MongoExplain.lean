import Squaero.Front.MongoStatements
import Squaero.Lib.Patterns
import Squaero.Mongo.QueryParts

/-!
# Query plans of MongoDB

`mongoExplainStatement` of `frontend/src/utils/mongoStatements.ts` rewrites a query into the command that asks
for its plan. It looks for `.findOne(` and for a trailing `.explain(...)` anywhere in the text, the driver's
parser only where calls stand: the plan is that of the query just if the two agree.
-/

namespace Squaero.Front

open Squaero.Lib Squaero.Mongo

/-! ## The rewriting -/

/-- `replace(/;\s*$/, "")` -/
def dropSemicolon (q : Text) : Text :=
  let body := jsTrimEnd q
  if body.getLast? = some ';' then body.dropLast else q

def explainMark : Text := ".explain(".toList

/-- `/\.explain\([^)]*\)$/.test(q)` -/
def endsExplained (q : Text) : Bool :=
  q.getLast? = some ')' && (cutFirst explainMark (q.dropLast.rtakeWhile (· ≠ ')'))).isSome

def findOneMark : Text := ".findOne(".toList

def findMark : Text := ".find(".toList

def explainCallText : Text := ".explain(\"queryPlanner\")".toList

/-- What is written in place of a command on a collection. -/
def explainText (q : Text) : Text :=
  if endsExplained q then q
  else
    match cutFirst findOneMark q with
    | some (before, after) => before ++ (findMark ++ (after ++ (".limit(1)".toList ++ explainCallText)))
    | none => q ++ explainCallText

def mongoExplainStatement (sql : Text) : Option Text :=
  let q := dropSemicolon (jsTrim sql)
  if "db.".toList.isPrefixOf q then some (explainText q) else none

/-! ## Where a command ends -/

/-- The text at which `parse_chain` stops. -/
def chainTail : ℕ → Text → Text
  | 0, p => p
  | fuel + 1, p =>
    let p := skipWs p
    if p.head? ≠ some '.' then p
    else
      match matchBracket (skipWs ((skipWs (p.drop 1)).dropWhile Char.isAlpha)) with
      | none => p
      | some (_, after) => chainTail fuel after

/-- The text at which the parser stops reading a query. -/
def commandTail (input : Text) : Text :=
  match parseCall input with
  | .error _ => input
  | .ok call =>
    match matchBracket call.paren with
    | none => call.paren
    | some (_, after) => chainTail (after.length + 1) after

/-- Nothing stands behind the call chain but an optional semicolon, and blanks behind that. -/
def EndsWithChain (q : Text) : Prop := ∃ command tail, q = command ++ tail ∧ commandTail (utf8 q) = utf8 tail ∧
  (tail = [] ∨ ∃ blanks, tail = ';' :: blanks ∧ ∀ c ∈ blanks, isJsSpace c = true)

/-! ## Bytes -/

/-- A cut of the bytes in front of an ASCII character is one of the text. -/
theorem exists_of_utf8_eq_append {q A B : Text} {c : Char} (hc : isWide c = false)
    (h : utf8 q = A ++ c :: B) : ∃ a b, q = a ++ c :: b ∧ utf8 a = A ∧ utf8 b = B := by
  induction q generalizing A with
  | nil => exact absurd h.symm (by simp)
  | cons d q ih =>
    rw [utf8_cons] at h
    obtain ⟨more, rfl, hmore⟩ | ⟨more, hbytes, hrest⟩ := List.append_eq_append_iff.mp h
    · obtain ⟨a, b, rfl, ha, hb⟩ := ih hmore
      exact ⟨d :: a, b, rfl, by rw [utf8_cons, ha], hb⟩
    · cases more with
      | nil =>
        obtain ⟨a, b, rfl, ha, hb⟩ := ih (A := []) hrest.symm
        exact ⟨d :: a, b, rfl, by rw [utf8_cons, ha, hbytes, List.append_nil, List.append_nil], hb⟩
      | cons e more =>
        obtain ⟨rfl, hrest⟩ := List.cons.inj hrest
        have hmem : c ∈ utf8Bytes d := by
          rw [hbytes]
          simp
        have hd : d = c := by
          by_contra hne
          exact not_mem_utf8Bytes hc hne hmem
        rw [hd, utf8Bytes_of_not_isWide hc] at hbytes
        obtain rfl : A = [] := by
          cases A with
          | nil => rfl
          | cons a A => exact absurd (congrArg List.length hbytes) (by simp)
        obtain rfl : more = [] := by simpa using hbytes
        exact ⟨[], q, by rw [hd]; rfl, rfl, by simpa using hrest.symm⟩

theorem isPrefixOf_utf8 {mark : Text} (hmark : ∀ c ∈ mark, isWide c = false) (text : Text) :
    mark.isPrefixOf (utf8 text) = mark.isPrefixOf text := by
  rw [Bool.eq_iff_iff]
  constructor
  · intro h
    rw [eq_append_of_isPrefixOf_utf8 hmark h]
    exact List.isPrefixOf_iff_prefix.mpr (List.prefix_append _ _)
  · intro h
    obtain ⟨rest, rfl⟩ := List.isPrefixOf_iff_prefix.mp h
    rw [utf8_append, utf8_of_ascii hmark]
    exact List.isPrefixOf_iff_prefix.mpr (List.prefix_append _ _)

theorem cutFirst_append {mark part rest : Text} {c : Char} {marked : Text} (hmark : mark = c :: marked)
    (hpart : c ∉ part) : cutFirst mark (part ++ rest) =
      (cutFirst mark rest).map fun cut ↦ (part ++ cut.1, cut.2) := by
  induction part with
  | nil => simp
  | cons d part ih =>
    rw [List.mem_cons, not_or] at hpart
    have hopen : ¬ mark.isPrefixOf (d :: (part ++ rest)) = true := by
      rw [hmark, List.isPrefixOf_cons_cons]
      simp [hpart.1]
    rw [List.cons_append, cutFirst, if_neg hopen, ih hpart.2]
    simp [Function.comp_def]

/-- A mark within ASCII stands in the bytes where it stands in the text. -/
theorem cutFirst_utf8 {mark : Text} (hne : mark ≠ []) (hmark : ∀ c ∈ mark, isWide c = false) (text : Text) :
    cutFirst mark (utf8 text) = (cutFirst mark text).map fun cut ↦ (utf8 cut.1, utf8 cut.2) := by
  obtain ⟨c, marked, hcons⟩ := List.exists_cons_of_ne_nil hne
  induction text with
  | nil =>
    rw [utf8_nil, cutFirst, if_neg hne]
    rfl
  | cons d text ih =>
    have hopen := isPrefixOf_utf8 hmark (d :: text)
    rw [cutFirst]
    by_cases hmatch : mark.isPrefixOf (d :: text) = true
    · obtain ⟨rest, hrest⟩ := List.isPrefixOf_iff_prefix.mp hmatch
      rw [if_pos hmatch, ← hrest, List.drop_left, utf8_append, utf8_of_ascii hmark]
      have hat : mark.isPrefixOf (mark ++ utf8 rest) = true :=
        List.isPrefixOf_iff_prefix.mpr (List.prefix_append _ _)
      cases hwhole : mark ++ utf8 rest with
      | nil =>
        rw [hcons] at hwhole
        cases hwhole
      | cons e more =>
        rw [cutFirst, if_pos (hwhole ▸ hat), ← hwhole, List.drop_left]
        rfl
    · rw [if_neg hmatch, utf8_cons]
      have hfirst : isWide c = false := hmark c (hcons ▸ .head _)
      by_cases hd : d = c
      · rw [hd, utf8Bytes_of_not_isWide hfirst, List.singleton_append, cutFirst]
        rw [hd] at hmatch hopen
        rw [utf8_cons, utf8Bytes_of_not_isWide hfirst, List.singleton_append] at hopen
        rw [if_neg (by rw [hopen]; exact hmatch), ih]
        simp [Function.comp_def, utf8Bytes_of_not_isWide hfirst]
      · rw [cutFirst_append hcons (not_mem_utf8Bytes hfirst hd), ih]
        simp [Function.comp_def]

theorem getLast?_utf8_eq_some_iff {text : Text} {c : Char} (hc : isWide c = false) :
    (utf8 text).getLast? = some c ↔ text.getLast? = some c := by
  constructor
  · intro h
    obtain ⟨front, hfront⟩ := List.getLast?_eq_some_iff.mp h
    obtain ⟨a, b, rfl, -, hb⟩ := exists_of_utf8_eq_append hc hfront
    cases b with
    | nil => simp
    | cons d b => exact absurd hb (utf8_ne_nil_iff.mpr (List.cons_ne_nil _ _))
  · intro h
    obtain ⟨front, rfl⟩ := List.getLast?_eq_some_iff.mp h
    rw [utf8_append, utf8_singleton, utf8Bytes_of_not_isWide hc]
    simp

theorem endsExplained_utf8 (q : Text) : endsExplained (utf8 q) = endsExplained q := by
  unfold endsExplained
  by_cases hlast : q.getLast? = some ')'
  · obtain ⟨front, rfl⟩ := List.getLast?_eq_some_iff.mp hlast
    have hwide : ∀ c, isWide c → decide (c ≠ ')') = true := fun c hc ↦
      decide_eq_true (ne_of_isWide hc (by decide))
    rw [utf8_append, (by decide : utf8 [')'] = [')']), List.dropLast_concat, List.dropLast_concat,
      rtakeWhile_utf8 hwide, cutFirst_utf8 (by decide) (by decide)]
    simp
  · have hbytes : (utf8 q).getLast? ≠ some ')' := fun h ↦ hlast ((getLast?_utf8_eq_some_iff (by decide)).mp h)
    simp [hlast, hbytes]

theorem explainText_utf8 (q : Text) : explainText (utf8 q) = utf8 (explainText q) := by
  unfold explainText
  rw [endsExplained_utf8]
  split_ifs
  · rfl
  · rw [cutFirst_utf8 (by decide) (by decide)]
    cases cutFirst findOneMark q with
    | none =>
      rw [utf8_append]
      rfl
    | some cut =>
      rw [Option.map_some]
      simp only [utf8_append]
      rfl

/-! ## What is rewritten -/

theorem chainTail_calls {calls : List Chained} (hcuts : ∀ call ∈ calls, call.Cut) {blanks stop : Text}
    (hblanks : ∀ c ∈ blanks, isSpace c = true) (hstop : Stop stop) {fuel : ℕ}
    (hfuel : (callsText calls ++ (blanks ++ stop)).length < fuel) :
    chainTail fuel (callsText calls ++ (blanks ++ stop)) = stop := by
  induction calls generalizing fuel with
  | nil =>
    obtain ⟨fuel, rfl⟩ := Nat.exists_eq_succ_of_ne_zero (Nat.ne_zero_of_lt hfuel)
    have hnot : stop.head? ≠ some '.' := by
      obtain rfl | hhead := hstop
      · exact nofun
      · rw [hhead]
        decide
    change chainTail (fuel + 1) (blanks ++ stop) = stop
    rw [chainTail]
    simp only [skipWs_stop hblanks hstop]
    exact if_pos hnot
  | cons call calls ih =>
    have hcut := hcuts call (.head _)
    have hpositive := call.text_length_pos
    rw [callsText_cons] at hfuel ⊢
    rw [List.length_append] at hfuel
    obtain ⟨fuel, rfl⟩ := Nat.exists_eq_succ_of_ne_zero (Nat.ne_zero_of_lt hfuel)
    obtain ⟨-, hparen⟩ := hcut.name_parts (call.arg ++ ')' :: (callsText calls ++ (blanks ++ stop)))
    rw [chainTail]
    simp only [hcut.skip_lead, List.head?_cons, List.drop_succ_cons, List.drop_zero, hparen,
      matchBracket_inside hcut.arg, ne_eq, not_true, if_false]
    exact ih (fun c hc ↦ hcuts c (.tail _ hc)) (by omega)

theorem commandTail_text {p : Parts} (h : p.Cut) : commandTail p.text = p.stop := by
  unfold commandTail
  rw [h.parseCall]
  simp only [matchBracket_inside h.body]
  exact chainTail_calls h.calls h.blanks h.stop (Nat.lt_succ_self _)

/-- The head without the blanks in front of it. -/
theorem exists_head {name method head : Text} (h : CallHead name method head) :
    ∃ lead rest, (∀ c ∈ lead, isSpace c = true) ∧ head = lead ++ ("db.".toList ++ rest) ∧
      CallHead name method ("db.".toList ++ rest) := by
  have hnil : ∀ c ∈ ([] : Text), isSpace c = true := nofun
  cases h with
  | @plain blanks call hblanks hname hparen hcall =>
    exact ⟨blanks, _, hblanks, rfl, .plain hnil hname hparen hcall⟩
  | @named blanks before lit behind gap call hblanks hbefore hlit hunquote hname hbehind hgap hcall =>
    refine ⟨blanks, "getCollection".toList ++ (before ++ '(' :: (lit ++ ')' :: (behind ++ '.' :: (gap ++ call)))),
      hblanks, rfl, ?_⟩
    exact .named hnil hbefore hlit hunquote hname hbehind hgap hcall

theorem exists_concat_callsText (body : Text) (calls : List Chained) :
    ∃ front, body ++ ')' :: callsText calls = front ++ [')'] := by
  induction calls using List.reverseRecOn with
  | nil => exact ⟨body, rfl⟩
  | append_singleton calls call _ =>
    refine ⟨body ++ ')' :: (callsText calls ++ (call.lead ++ '.' :: (call.gap ++ (call.name ++
      (call.space ++ '(' :: call.arg))))), ?_⟩
    unfold callsText Chained.text
    simp

theorem eq_of_utf8_eq {a blanks : Text} (hblanks : ∀ c ∈ blanks, isSpace c = true) (h : utf8 a = blanks) :
    a = blanks := by
  have hascii : ∀ c ∈ blanks, isWide c = false := by
    intro c hc
    by_contra hwide
    have hnot := isSpace_of_isWide (by simpa using hwide : isWide c = true)
    rw [hblanks c hc] at hnot
    cases hnot
  rw [← h, utf8_of_ascii (ascii_of_utf8 (h ▸ hascii))]

theorem eq_utf8_of_spaces {blanks : Text} (hblanks : ∀ c ∈ blanks, isSpace c = true) : utf8 blanks = blanks := by
  refine utf8_of_ascii fun c hc ↦ ?_
  by_contra hwide
  have hnot := isSpace_of_isWide (by simpa using hwide : isWide c = true)
  rw [hblanks c hc] at hnot
  cases hnot

theorem isJsSpace_of_isSpace {c : Char} (h : isSpace c = true) : isJsSpace c = true := by
  simp [isJsSpace, h]

theorem jsTrimEnd_paren {front blanks : Text} (hblanks : ∀ c ∈ blanks, isJsSpace c = true) {c : Char}
    (hc : isJsSpace c = false) : jsTrimEnd (front ++ c :: blanks) = front ++ [c] := by
  unfold jsTrimEnd
  rw [List.append_cons, rdropWhile_append_of_forall hblanks]
  exact List.rdropWhile_concat_neg _ _ _ (by simp [hc])

/-- What is rewritten is the query's call and its chain. -/
theorem exists_trimmed {q : Text} {p : Parts} (hcut : p.Cut) (htext : utf8 q = p.text) (hends : EndsWithChain q) :
    ∃ p' : Parts, p'.Cut ∧ p'.stop = [] ∧ utf8 (dropSemicolon (jsTrim q)) = p'.text ∧
      p'.name = p.name ∧ p'.method = p.method ∧ p'.body = p.body ∧ p'.calls = p.calls ∧
      "db.".toList.isPrefixOf (dropSemicolon (jsTrim q)) = true := by
  obtain ⟨command, tail, rfl, htail, hshape⟩ := hends
  obtain ⟨lead, rest, hlead, hhead, hhead'⟩ := exists_head hcut.head
  obtain ⟨front, hfront⟩ := exists_concat_callsText p.body p.calls
  rw [htext, commandTail_text hcut] at htail
  have hcommand : utf8 command = lead ++ 'd' :: ("b.".toList ++ (rest ++ '(' :: front) ++ ')' :: p.blanks) := by
    refine List.append_cancel_right (?_ : _ ++ utf8 tail = _ ++ utf8 tail)
    calc utf8 command ++ utf8 tail = p.text := by rw [← utf8_append, htext]
      _ = p.head ++ '(' :: ((p.body ++ ')' :: callsText p.calls) ++ (p.blanks ++ p.stop)) := by
        unfold Parts.text
        simp
      _ = _ := by
        rw [hhead, hfront, htail]
        simp
  obtain ⟨lead', start, rfl, hlead', hstart⟩ := exists_of_utf8_eq_append (by decide) hcommand
  obtain rfl := eq_of_utf8_eq hlead hlead'
  obtain ⟨front', blanks, rfl, hfront', hblanks⟩ := exists_of_utf8_eq_append (by decide) hstart
  obtain rfl := eq_of_utf8_eq hcut.blanks hblanks
  have hleadJs : ∀ c ∈ lead', isJsSpace c = true := fun c hc ↦ isJsSpace_of_isSpace (hlead c hc)
  have hblanksJs : ∀ c ∈ p.blanks, isJsSpace c = true := fun c hc ↦ isJsSpace_of_isSpace (hcut.blanks c hc)
  have htrimStart : jsTrimStart (lead' ++ 'd' :: (front' ++ ')' :: p.blanks) ++ tail) =
      ('d' :: front') ++ ')' :: (p.blanks ++ tail) := by
    unfold jsTrimStart
    rw [List.append_assoc, List.dropWhile_append_of_pos hleadJs, List.cons_append,
      List.dropWhile_cons_of_neg (by decide)]
    simp
  have hparts {blanks : Text} (hspaces : ∀ c ∈ blanks, isSpace c = true)
      (hresult : dropSemicolon (jsTrim (lead' ++ 'd' :: (front' ++ ')' :: p.blanks) ++ tail)) =
        ('d' :: front') ++ ')' :: blanks) : ∃ p' : Parts, p'.Cut ∧ p'.stop = [] ∧
      utf8 (dropSemicolon (jsTrim (lead' ++ 'd' :: (front' ++ ')' :: p.blanks) ++ tail))) = p'.text ∧
      p'.name = p.name ∧ p'.method = p.method ∧ p'.body = p.body ∧ p'.calls = p.calls ∧
      "db.".toList.isPrefixOf (dropSemicolon (jsTrim (lead' ++ 'd' :: (front' ++ ')' :: p.blanks) ++ tail))) =
        true := by
    have hbytes : utf8 (('d' :: front') ++ ')' :: blanks) = "db.".toList ++ (rest ++ '(' :: front) ++ ')' :: blanks := by
      rw [utf8_append, utf8_cons, utf8_cons, hfront', eq_utf8_of_spaces hspaces]
      rfl
    refine ⟨{ p with head := "db.".toList ++ rest, blanks := blanks, stop := [] },
      ⟨hhead', hcut.body, hcut.calls, hspaces, .inl rfl⟩, rfl, ?_, rfl, rfl, rfl, rfl, ?_⟩
    · rw [hresult, hbytes]
      unfold Parts.text
      have hsplit : p.body ++ ')' :: (callsText p.calls ++ (blanks ++ [])) =
          front ++ [')'] ++ blanks := by
        rw [← hfront]
        simp
      rw [hsplit]
      simp
    · rw [hresult, ← isPrefixOf_utf8 (by decide), hbytes]
      exact List.isPrefixOf_iff_prefix.mpr ⟨(rest ++ '(' :: front) ++ ')' :: blanks, by simp⟩
  obtain rfl | ⟨behind, rfl, hbehind⟩ := hshape
  · have hnil : ∀ c ∈ ([] : Text), isSpace c = true := nofun
    refine hparts hnil ?_
    unfold jsTrim
    rw [htrimStart, List.append_nil, jsTrimEnd_paren hblanksJs (by decide)]
    unfold dropSemicolon
    have hagain : jsTrimEnd (('d' :: front') ++ [')']) = ('d' :: front') ++ [')'] :=
      jsTrimEnd_paren (by exact nofun) (by decide)
    simp only [hagain, List.getLast?_concat]
    rfl
  · refine hparts hcut.blanks ?_
    have hsemicolon (blanks' : Text) (hblanks' : ∀ c ∈ blanks', isJsSpace c = true) :
        jsTrimEnd (('d' :: front') ++ ')' :: (p.blanks ++ ';' :: blanks')) =
          ('d' :: front') ++ ')' :: p.blanks ++ [';'] := by
      have htext : ('d' :: front') ++ ')' :: (p.blanks ++ ';' :: blanks') =
          (('d' :: front') ++ ')' :: p.blanks) ++ ';' :: blanks' := by simp
      rw [htext]
      exact jsTrimEnd_paren hblanks' (by decide)
    unfold jsTrim
    rw [htrimStart, hsemicolon behind hbehind]
    unfold dropSemicolon
    have hagain := hsemicolon [] (by exact nofun)
    have htext : ('d' :: front') ++ ')' :: (p.blanks ++ [';']) = ('d' :: front') ++ ')' :: p.blanks ++ [';'] := by
      simp
    rw [htext] at hagain
    simp only [hagain, List.getLast?_concat, if_true, List.dropLast_concat]

end Squaero.Front
