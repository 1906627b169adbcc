import Squaero.Lib.Utf8
import Squaero.Mongo.Commands

/-!
# Where a command is cut

What the command parser has read does not depend on what stands behind it. An accepted command is a head
up to the first parenthesis of its call, the arguments, and the chained calls; each of these parts is found
again in front of any other text.
-/

namespace Squaero.Mongo

open Squaero.Lib

/-! ## Brackets -/

/-- The scan reads `text` and is then at another place with another stack, unless the text ends there. -/
def Reaches (place : Place) (stack : List Char) (text : Text) (place' : Place) (stack' : List Char) : Prop :=
  ∀ rest ≠ [], matchLoop place stack (text ++ rest) =
    (matchLoop place' stack' rest).map fun r ↦ (text ++ r.1, r.2)

theorem Reaches.nil (place : Place) (stack : List Char) : Reaches place stack [] place stack := by
  intro rest _
  simp

theorem Reaches.append {place place' place'' : Place} {stack stack' stack'' : List Char} {text more : Text}
    (h : Reaches place stack text place' stack') (hmore : Reaches place' stack' more place'' stack'') :
    Reaches place stack (text ++ more) place'' stack'' := by
  intro rest hrest
  have hne : more ++ rest ≠ [] := List.append_ne_nil_of_right_ne_nil _ hrest
  rw [List.append_assoc, h _ hne, hmore _ hrest]
  simp [Function.comp_def]

/-- A string starts with a quote. -/
def Place.Quoted : Place → Prop
  | .plain => True
  | .string quote => isQuote quote = true
  | .escape quote => isQuote quote = true

theorem Place.quoted_plain : Place.plain.Quoted := trivial

/-- The scan goes on behind a character, unless it closes the outermost bracket. -/
theorem matchLoop_cons {place : Place} (hplace : place.Quoted) {stack : List Char} {c : Char} {rest : Text}
    {r : Text × Text} (h : matchLoop place stack (c :: rest) = some r) :
    (∃ place' stack', rest ≠ [] ∧ place'.Quoted ∧ Reaches place stack [c] place' stack' ∧
      (stack ≠ [] → stack' ≠ [] ∧ stack'.getLast? = stack.getLast?)) ∨
    place = .plain ∧ stack = [c] ∧ isCloser c = true ∧ r = ([], rest) := by
  have hne {place' : Place} {stack' : List Char}
      (hmap : (matchLoop place' stack' rest).map (fun r ↦ (c :: r.1, r.2)) = some r) : rest ≠ [] := by
    rintro rfl
    cases hmap
  cases place with
  | escape quote =>
    refine .inl ⟨.string quote, stack, hne h, hplace, fun more _ ↦ ?_, fun hstack ↦ ⟨hstack, rfl⟩⟩
    rw [List.singleton_append, matchLoop]
    rfl
  | string quote =>
    refine .inl ⟨if c = quote then .plain else if c = '\\' then .escape quote else .string quote, stack, hne h, ?_,
      fun more hmore ↦ ?_, fun hstack ↦ ⟨hstack, rfl⟩⟩
    · split_ifs
      · trivial
      · exact hplace
      · exact hplace
    · rw [List.singleton_append, matchLoop]
      simp [stringStep, hmore]
  | plain =>
    simp only [matchLoop] at h
    have hgo (place' : Place) {stack' : List Char} (hrest : rest ≠ []) (hquoted : place'.Quoted)
        (hloop : ∀ more : Text, matchLoop .plain stack (c :: more) =
          (matchLoop place' stack' more).map fun r ↦ (c :: r.1, r.2))
        (hstack : stack ≠ [] → stack' ≠ [] ∧ stack'.getLast? = stack.getLast?) :
        ∃ place' stack', rest ≠ [] ∧ place'.Quoted ∧ Reaches .plain stack [c] place' stack' ∧
          (stack ≠ [] → stack' ≠ [] ∧ stack'.getLast? = stack.getLast?) :=
      ⟨place', stack', hrest, hquoted, fun more _ ↦ hloop more, hstack⟩
    split_ifs at h with hquote hopener hfull hcloser htop hlast
    · refine .inl (hgo (.string c) (hne h) hquote (fun more ↦ ?_) fun hstack ↦ ⟨hstack, rfl⟩)
      rw [matchLoop]
      simp [hquote]
    · refine .inl (hgo .plain (hne h) trivial (fun more ↦ ?_) fun hstack ↦
        ⟨List.cons_ne_nil (closerOf c) stack, ?_⟩)
      · rw [matchLoop]
        simp [hquote, hopener, hfull]
      · rw [List.getLast?_cons, List.getLast?_eq_some_getLast hstack]
        rfl
    · obtain ⟨top, rfl⟩ := List.length_eq_one_iff.mp hlast
      have htop : top = c := by simpa using htop
      cases h
      exact .inr ⟨rfl, by rw [htop], hcloser, rfl⟩
    · obtain ⟨below, rfl⟩ : ∃ below, stack = c :: below := List.head?_eq_some_iff.mp (not_not.mp htop)
      have hbelow : below ≠ [] := by
        rintro rfl
        exact hlast rfl
      refine .inl (hgo .plain (hne h) trivial (fun more ↦ ?_) fun _ ↦ ⟨hbelow, ?_⟩)
      · rw [matchLoop]
        simp [hquote, hopener, hcloser, hbelow]
      · exact (List.getLast?_cons_of_ne_nil hbelow).symm
    · refine .inl (hgo .plain (hne h) trivial (fun more ↦ ?_) fun hstack ↦ ⟨hstack, rfl⟩)
      rw [matchLoop]
      simp [hquote, hopener, hcloser]

/-- A successful scan reaches the closer of the outermost bracket, whatever stands behind it. -/
theorem matchLoop_cut {place : Place} (hplace : place.Quoted) {stack : List Char} {p inner after : Text}
    (h : matchLoop place stack p = some (inner, after)) :
    ∃ closing, isCloser closing = true ∧ p = inner ++ closing :: after ∧
      (stack ≠ [] → stack.getLast? = some closing) ∧ Reaches place stack inner .plain [closing] := by
  induction p generalizing place stack inner with
  | nil => cases h
  | cons c rest ih =>
    obtain ⟨place', stack', hrest, hquoted, hreaches, hstack⟩ | ⟨rfl, rfl, hcloser, hr⟩ :=
      matchLoop_cons hplace h
    · have hloop := hreaches rest hrest
      rw [List.singleton_append, h] at hloop
      obtain ⟨⟨inner', after'⟩, hinner, heq⟩ := Option.map_eq_some_iff.mp hloop.symm
      cases heq
      obtain ⟨closing, hcloser, htext, hlast, hbehind⟩ := ih hquoted hinner
      refine ⟨closing, hcloser, by rw [htext]; rfl, fun hne ↦ ?_, hreaches.append hbehind⟩
      rw [← (hstack hne).2, hlast (hstack hne).1]
    · cases hr
      exact ⟨c, hcloser, rfl, fun _ ↦ rfl, Reaches.nil _ _⟩

theorem matchLoop_of_reaches {place : Place} {stack : List Char} {inner : Text} {closing : Char}
    (hcloser : isCloser closing = true) (h : Reaches place stack inner .plain [closing]) (after : Text) :
    matchLoop place stack (inner ++ closing :: after) = some (inner, after) := by
  have hnot : isQuote closing = false ∧ isOpener closing = false := by
    simp only [isCloser, Bool.or_eq_true, decide_eq_true_eq] at hcloser
    rcases hcloser with (rfl | rfl) | rfl <;> decide
  have hpop : matchLoop .plain [closing] (closing :: after) = some ([], after) := by
    rw [matchLoop]
    simp [hnot, hcloser]
  rw [h _ (List.cons_ne_nil _ _), hpop]
  simp

/-- What stands between a parenthesis and its closer. -/
def Inside (body : Text) : Prop := Reaches .plain [')'] body .plain [')']

theorem matchBracket_inside {body : Text} (h : Inside body) (after : Text) :
    matchBracket ('(' :: (body ++ ')' :: after)) = some (body, after) := by
  have hfirst : matchLoop .plain [] ('(' :: (body ++ ')' :: after)) =
      (matchLoop .plain [')'] (body ++ ')' :: after)).map fun r ↦ ('(' :: r.1, r.2) := by
    rw [matchLoop]
    simp [parens.opener, parens.notQuote, parens.closerOf]
  unfold matchBracket
  rw [hfirst, matchLoop_of_reaches rfl h]
  simp

theorem inside_of_matchBracket {p body after : Text} (h : matchBracket ('(' :: p) = some (body, after)) :
    p = body ++ ')' :: after ∧ Inside body := by
  have hfirst : matchLoop .plain [] ('(' :: p) =
      (matchLoop .plain [')'] p).map fun r ↦ ('(' :: r.1, r.2) := by
    rw [matchLoop]
    simp [parens.opener, parens.notQuote, parens.closerOf]
  unfold matchBracket at h
  rw [hfirst] at h
  obtain ⟨r, hr, heq⟩ := Option.map_eq_some_iff.mp h
  obtain ⟨⟨inner, behind⟩, hinner, rfl⟩ := Option.map_eq_some_iff.mp hr
  cases heq
  obtain ⟨closing, _, htext, hlast, hreaches⟩ := matchLoop_cut Place.quoted_plain hinner
  have hclosing : ')' = closing := Option.some.inj (hlast (List.cons_ne_nil _ _))
  subst hclosing
  exact ⟨htext, hreaches⟩

/-! ## Letters left out -/

theorem reaches_of_append {place : Place} (hplace : place.Quoted) {stack : List Char} {x y after : Text}
    {closing : Char} (h : matchLoop place stack (x ++ (y ++ closing :: after)) = some (x ++ y, after)) :
    ∃ place' stack', place'.Quoted ∧ Reaches place stack x place' stack' ∧
      matchLoop place' stack' (y ++ closing :: after) = some (y, after) := by
  induction x generalizing place stack with
  | nil => exact ⟨place, stack, hplace, Reaches.nil _ _, h⟩
  | cons c x ih =>
    obtain ⟨place', stack', hrest, hquoted, hreaches, -⟩ | ⟨-, -, -, hr⟩ := matchLoop_cons hplace h
    · have hloop : matchLoop place stack (c :: x ++ (y ++ closing :: after)) = _ := hreaches _ hrest
      rw [h] at hloop
      obtain ⟨r, hinner, heq⟩ := Option.map_eq_some_iff.mp hloop.symm
      have hr : r = (x ++ y, after) := by
        simp only [List.cons_append, Prod.mk.injEq, List.cons.injEq] at heq
        exact Prod.ext heq.1.2 heq.2
      obtain ⟨place'', stack'', hquoted', hreaches', hbehind⟩ := ih hquoted (hr ▸ hinner)
      exact ⟨place'', stack'', hquoted', hreaches.append hreaches', hbehind⟩
    · exact absurd (congrArg Prod.fst hr) (List.cons_ne_nil _ _)

/-- The place behind a character that nothing singles out. -/
def Place.resume : Place → Place
  | .escape quote => .string quote
  | place => place

theorem reaches_letter {place : Place} (hplace : place.Quoted) (stack : List Char) {c : Char}
    (hc : c.isAlpha = true) : Reaches place stack [c] place.resume stack := by
  have hne (d : Char) (hd : d.isAlpha = false) : c ≠ d := by
    rintro rfl
    exact absurd hc (by simp [hd])
  have hquote : isQuote c = false := by simp [isQuote, hne '"' (by decide), hne '\'' (by decide)]
  have hopener : isOpener c = false := by
    simp [isOpener, hne '(' (by decide), hne '{' (by decide), hne '[' (by decide)]
  have hcloser : isCloser c = false := by
    simp [isCloser, hne ')' (by decide), hne '}' (by decide), hne ']' (by decide)]
  intro rest _
  cases place with
  | plain =>
    rw [List.singleton_append, matchLoop]
    simp [hquote, hopener, hcloser, Place.resume]
  | string quote =>
    have hother : c ≠ quote := by
      rintro rfl
      exact absurd (show isQuote c = true from hplace) (by simp [hquote])
    rw [List.singleton_append, matchLoop]
    simp [stringStep, hother, hne '\\' (by decide), Place.resume]
  | escape quote =>
    rw [List.singleton_append, matchLoop]
    rfl

theorem Place.Quoted.resume {place : Place} (h : place.Quoted) : place.resume.Quoted := by
  cases place <;> exact h

theorem reaches_letters {place : Place} (hplace : place.Quoted) (stack : List Char) {word : Text}
    (hword : ∀ c ∈ word, c.isAlpha = true) : Reaches place.resume stack word place.resume stack := by
  induction word with
  | nil => exact Reaches.nil _ _
  | cons c word ih =>
    have hfirst := reaches_letter hplace.resume stack (hword c (.head _))
    have hsame : place.resume.resume = place.resume := by cases place <;> rfl
    rw [hsame] at hfirst
    exact hfirst.append (ih fun d hd ↦ hword d (.tail _ hd))

/-- Letters behind a letter may go. -/
theorem Inside.drop_letters {x y word : Text} {d : Char} (hd : d.isAlpha = true)
    (hword : ∀ c ∈ word, c.isAlpha = true) (h : Inside (x ++ d :: (word ++ y))) : Inside (x ++ d :: y) := by
  have hall := matchLoop_of_reaches (by decide) h []
  rw [List.append_assoc] at hall
  obtain ⟨place, stack, hquoted, hx, hbehind⟩ := reaches_of_append Place.quoted_plain hall
  have hletter := reaches_letter hquoted stack hd
  have hletters := hletter.append (reaches_letters hquoted stack hword)
  have hy : matchLoop place.resume stack (y ++ [')']) = some (y, []) := by
    have hsplit := hletters (y ++ [')']) (by simp)
    have htext : [d] ++ word ++ (y ++ [')']) = d :: (word ++ y) ++ [')'] := by simp
    rw [htext, hbehind] at hsplit
    obtain ⟨r, hr, heq⟩ := Option.map_eq_some_iff.mp hsplit.symm
    have hsame : r = (y, []) := by
      simp only [List.cons_append, List.nil_append, Prod.mk.injEq, List.cons.injEq, true_and,
        List.append_cancel_left_eq] at heq
      exact Prod.ext heq.1 heq.2
    rw [hr, hsame]
  obtain ⟨closing, -, htext, -, hreaches⟩ := matchLoop_cut hquoted.resume hy
  have hclosing : ')' = closing := by simpa using htext
  subst hclosing
  exact hx.append (hletter.append hreaches)

/-! ## Arguments -/

theorem join_modifyHead (c : Char) {args : List Text} (h : args ≠ []) :
    [','].intercalate (args.modifyHead (c :: ·)) = c :: [','].intercalate args := by
  obtain ⟨arg, args, rfl⟩ := List.exists_cons_of_ne_nil h
  rw [List.modifyHead_cons]
  cases args with
  | nil => simp
  | cons arg' args => simp [List.intercalate_cons_cons]

/-- The arguments with commas between them are the text they were cut from. -/
theorem join_splitLoop {tail : Text} {skip : ℕ} {place : Place} {p : Text} {args : List Text}
    (h : splitLoop tail skip place p = some args) : args ≠ [] ∧ [','].intercalate args = p := by
  induction p generalizing skip place args with
  | nil =>
    rw [splitLoop] at h
    split_ifs at h
    cases h
    exact ⟨List.cons_ne_nil _ _, rfl⟩
  | cons c rest ih =>
    have hgo {skip : ℕ} {place : Place}
        (hmap : (splitLoop tail skip place rest).map (fun args ↦ args.modifyHead (c :: ·)) = some args) :
        args ≠ [] ∧ [','].intercalate args = c :: rest := by
      obtain ⟨inner, hinner, rfl⟩ := Option.map_eq_some_iff.mp hmap
      obtain ⟨hne, hjoin⟩ := ih hinner
      exact ⟨by simpa using hne, by rw [join_modifyHead c hne, hjoin]⟩
    cases skip with
    | succ skip => exact hgo h
    | zero =>
      cases place with
      | escape quote => exact hgo h
      | string quote => exact hgo h
      | plain =>
        simp only [splitLoop] at h
        split_ifs at h with hopener hquote hcomma
        · cases hmatch : matchBracket (c :: rest ++ tail) with
          | none => rw [hmatch] at h; cases h
          | some r =>
            rw [hmatch] at h
            dsimp only at h
            split_ifs at h
            exact hgo h
        · exact hgo h
        · obtain ⟨inner, hinner, rfl⟩ := Option.map_eq_some_iff.mp h
          obtain ⟨hne, hjoin⟩ := ih hinner
          obtain ⟨arg, more, rfl⟩ := List.exists_cons_of_ne_nil hne
          exact ⟨List.cons_ne_nil _ _, by rw [List.intercalate_cons_cons, hjoin, hcomma]; rfl⟩
        · exact hgo h

/-- A bracket that closes in front of `tail` closes there in front of any text. -/
theorem matchBracket_tail {p tail inner after : Text} (h : matchBracket (p ++ tail) = some (inner, after))
    (hlength : ¬ after.length < tail.length) : ∃ behind, after = behind ++ tail ∧ ∀ tail',
      matchBracket (p ++ tail') = some (inner, behind ++ tail') := by
  unfold matchBracket at h
  obtain ⟨⟨text, after'⟩, hloop, heq⟩ := Option.map_eq_some_iff.mp h
  cases heq
  change ¬ after'.length < tail.length at hlength
  obtain ⟨closing, hcloser, htext, -, hreaches⟩ := matchLoop_cut Place.quoted_plain hloop
  rw [List.append_cons] at htext
  have hcut : ∃ behind, after' = behind ++ tail ∧ p = text ++ [closing] ++ behind := by
    obtain ⟨more, htext, htail⟩ | ⟨behind, hp, hafter⟩ := List.append_eq_append_iff.mp htext
    · have hmore : more = [] := by
        rw [htail, List.length_append] at hlength
        exact List.eq_nil_of_length_eq_zero (by omega)
      subst hmore
      exact ⟨[], htail.symm, by simpa using htext.symm⟩
    · exact ⟨behind, hafter, hp⟩
  obtain ⟨behind, rfl, rfl⟩ := hcut
  refine ⟨behind, rfl, fun tail' ↦ ?_⟩
  have hagain := matchLoop_of_reaches hcloser hreaches (behind ++ tail')
  rw [List.append_cons, ← List.append_assoc] at hagain
  unfold matchBracket
  rw [hagain]
  rfl

/-- What stands behind the arguments does not change how they are cut. -/
theorem splitLoop_tail {tail : Text} {skip : ℕ} {place : Place} {p : Text} {args : List Text}
    (h : splitLoop tail skip place p = some args) (tail' : Text) :
    splitLoop tail' skip place p = some args := by
  induction p generalizing skip place args with
  | nil =>
    rw [splitLoop] at h ⊢
    exact h
  | cons c rest ih =>
    have hgo {skip : ℕ} {place : Place}
        (hmap : (splitLoop tail skip place rest).map (fun args ↦ args.modifyHead (c :: ·)) = some args) :
        (splitLoop tail' skip place rest).map (fun args ↦ args.modifyHead (c :: ·)) = some args := by
      obtain ⟨inner, hinner, hargs⟩ := Option.map_eq_some_iff.mp hmap
      exact Option.map_eq_some_iff.mpr ⟨inner, ih hinner, hargs⟩
    cases skip with
    | succ skip => exact hgo h
    | zero =>
      cases place with
      | escape quote => exact hgo h
      | string quote => exact hgo h
      | plain =>
        simp only [splitLoop] at h ⊢
        split_ifs at h ⊢ with hopener hquote hcomma
        · cases hmatch : matchBracket (c :: rest ++ tail) with
          | none => rw [hmatch] at h; cases h
          | some r =>
            obtain ⟨inner, after⟩ := r
            rw [hmatch] at h
            dsimp only at h
            split_ifs at h with hlength
            obtain ⟨behind, rfl, hbehind⟩ := matchBracket_tail hmatch hlength
            rw [hbehind tail']
            have hcount (tail : Text) :
                rest.length + tail.length - (behind ++ tail).length = rest.length - behind.length := by
              rw [List.length_append]
              omega
            dsimp only
            rw [hcount] at h ⊢
            rw [if_neg (by simp)]
            exact hgo h
        · exact hgo h
        · obtain ⟨inner, hinner, hargs⟩ := Option.map_eq_some_iff.mp h
          exact Option.map_eq_some_iff.mpr ⟨inner, ih hinner, hargs⟩
        · exact hgo h

theorem splitArgs_tail {body tail : Text} {args : List Text} (h : splitArgs body tail = some args)
    (tail' : Text) : splitArgs body tail' = some args := by
  unfold splitArgs at h ⊢
  split_ifs at h ⊢ with hempty
  · exact h
  · obtain ⟨hloop, hfew⟩ := Option.filter_eq_some_iff.mp h
    exact Option.filter_eq_some_iff.mpr ⟨splitLoop_tail hloop tail', hfew⟩

/-! ## The head of a call -/

/-- A name of letters, with blanks behind it, that the parser takes for the method. -/
structure MethodText (text method : Text) : Prop where
  isMethod : IsMethod method
  blanks : ∃ blanks, (∀ c ∈ blanks, isSpace c = true) ∧ text = method ++ blanks

/-- The text up to the parenthesis of a call of `method` on the collection `name`. -/
inductive CallHead (name method : Text) : Text → Prop
  | plain {blanks call : Text} (hblanks : ∀ c ∈ blanks, isSpace c = true) (hname : name ≠ [])
      (hparen : '(' ∉ name) (hcall : MethodText call method) :
      CallHead name method (blanks ++ ("db.".toList ++ (name ++ '.' :: call)))
  | named {blanks before lit behind gap call : Text} (hblanks : ∀ c ∈ blanks, isSpace c = true)
      (hbefore : ∀ c ∈ before, isSpace c = true) (hlit : Inside lit) (hunquote : unquote lit = some name)
      (hname : name ≠ []) (hbehind : ∀ c ∈ behind, isSpace c = true) (hgap : ∀ c ∈ gap, isSpace c = true)
      (hcall : MethodText call method) :
      CallHead name method (blanks ++ ("db.getCollection".toList ++ (before ++
        '(' :: (lit ++ ')' :: (behind ++ '.' :: (gap ++ call))))))

theorem skipWs_append {blanks : Text} (h : ∀ c ∈ blanks, isSpace c = true) (rest : Text) :
    skipWs (blanks ++ rest) = skipWs rest := by
  unfold skipWs
  exact List.dropWhile_append_of_pos h

theorem skipWs_cons {c : Char} (h : isSpace c = false) (rest : Text) : skipWs (c :: rest) = c :: rest :=
  List.dropWhile_cons_of_neg (by simp [h])

theorem exists_skipWs (p : Text) :
    ∃ blanks, (∀ c ∈ blanks, isSpace c = true) ∧ p = blanks ++ skipWs p :=
  ⟨p.takeWhile isSpace, fun _ hc ↦ List.mem_takeWhile_imp hc, List.takeWhile_append_dropWhile.symm⟩

section

variable {method call : Text} (hcall : MethodText call method)

include hcall

theorem MethodText.not_mem_paren : '(' ∉ call := by
  obtain ⟨blanks, hblanks, rfl⟩ := hcall.blanks
  intro hmem
  obtain hmem | hmem := List.mem_append.mp hmem
  · exact absurd (hcall.isMethod.alpha _ hmem) (by decide)
  · exact absurd (hblanks _ hmem) (by decide)

theorem MethodText.skipWsBack (before : Text) : skipWsBack (before ++ call) = before ++ method := by
  obtain ⟨blanks, hblanks, rfl⟩ := hcall.blanks
  unfold Mongo.skipWsBack
  rw [← List.append_assoc, rdropWhile_append_of_forall hblanks]
  refine List.rdropWhile_eq_self_iff.mpr fun hne ↦ ?_
  have hlast := hcall.isMethod.alpha _ (List.getLast_mem hcall.isMethod.ne_nil)
  rw [List.getLast_append_of_ne_nil hne hcall.isMethod.ne_nil]
  simp [isSpace_of_isNameChar (isNameChar_of_isAlpha hlast)]

theorem locateMethod_call (named : Text) (rest : Text) :
    locateMethod (some named) (call ++ '(' :: rest) = .ok ⟨some named, method, '(' :: rest⟩ := by
  have hchars : ∀ c ∈ call, c ≠ '(' := fun c hc ↦ ne_of_mem_of_not_mem hc hcall.not_mem_paren
  obtain ⟨htake, hdrop⟩ := takeWhile_paren hchars rest
  obtain ⟨hrtake, hrdrop⟩ := rtakeWhile_method hcall.isMethod.alpha [] nofun
  have hback := hcall.skipWsBack []
  simp only [List.nil_append] at hrtake hrdrop hback
  unfold locateMethod
  simp only [htake, hdrop, hback, hrtake, hrdrop]
  simp [hcall.isMethod.ne_nil]

theorem locateMethod_plain {name : Text} (hname : name ≠ []) (hparen : '(' ∉ name) (rest : Text) :
    locateMethod none (name ++ '.' :: (call ++ '(' :: rest)) = .ok ⟨some name, method, '(' :: rest⟩ := by
  have hchars : ∀ c ∈ name ++ ['.'] ++ call, c ≠ '(' := by
    intro c hc
    simp only [List.mem_append, List.mem_singleton] at hc
    obtain (hc | rfl) | hc := hc
    · exact ne_of_mem_of_not_mem hc hparen
    · decide
    · exact ne_of_mem_of_not_mem hc hcall.not_mem_paren
  obtain ⟨htake, hdrop⟩ := takeWhile_paren hchars rest
  obtain ⟨hrtake, hrdrop⟩ := rtakeWhile_method hcall.isMethod.alpha (name ++ ['.']) (by simp)
  have hback := hcall.skipWsBack (name ++ ['.'])
  have htext : name ++ '.' :: (call ++ '(' :: rest) = name ++ ['.'] ++ call ++ '(' :: rest := by simp
  rw [htext]
  unfold locateMethod
  simp only [htake, hdrop, hback, hrtake, hrdrop]
  simp [hcall.isMethod.ne_nil, hname]

end

theorem parseNamed_append {before lit behind gap rest name : Text} (hbefore : ∀ c ∈ before, isSpace c = true)
    (hlit : Inside lit) (hunquote : unquote lit = some name) (hname : name ≠ [])
    (hbehind : ∀ c ∈ behind, isSpace c = true) (hgap : ∀ c ∈ gap, isSpace c = true) :
    parseNamed ("getCollection".toList ++ (before ++ '(' :: (lit ++ ')' :: (behind ++ '.' :: (gap ++ rest))))) =
      .ok (name, skipWs rest) := by
  have hdrop (p : Text) : ("getCollection".toList ++ p).drop 13 = p := rfl
  have hdot : skipWs (behind ++ '.' :: (gap ++ rest)) = '.' :: (gap ++ rest) := by
    rw [skipWs_append hbehind, skipWs_cons (by decide)]
  unfold parseNamed
  rw [hdrop, skipWs_append hbefore, skipWs_cons (by decide), matchBracket_inside hlit]
  simp [hunquote, hname, hdot, skipWs_append hgap]

theorem MethodText.skipWs {method call : Text} (hcall : MethodText call method) (rest : Text) :
    skipWs (call ++ rest) = call ++ rest := by
  obtain ⟨blanks, -, rfl⟩ := hcall.blanks
  rw [List.append_assoc]
  exact skipWs_method hcall.isMethod _

/-- The call is found behind its head, whatever the arguments are. -/
theorem parseCall_head {name method head : Text} (h : CallHead name method head) (rest : Text) :
    parseCall (head ++ '(' :: rest) = .ok ⟨some name, method, '(' :: rest⟩ := by
  cases h with
  | @plain blanks call hblanks hname hparen hcall =>
    have htext : blanks ++ ("db.".toList ++ (name ++ '.' :: call)) ++ '(' :: rest =
        blanks ++ ("db.".toList ++ (name ++ '.' :: (call ++ '(' :: rest))) := by simp
    obtain ⟨hskip, hbegins, hdrop⟩ := skipWs_db (name ++ '.' :: (call ++ '(' :: rest))
    rw [htext]
    unfold parseCall
    simp only [skipWs_append hblanks, hskip, hbegins, hdrop, isGetCollection_simple hparen, Bool.not_true,
      Bool.false_eq_true, if_false]
    exact locateMethod_plain hcall hname hparen rest
  | @named blanks before lit behind gap call hblanks hbefore hlit hunquote hname hbehind hgap hcall =>
    have htext : blanks ++ ("db.getCollection".toList ++ (before ++ '(' :: (lit ++ ')' :: (behind ++ '.' ::
        (gap ++ call))))) ++ '(' :: rest = blanks ++ ("db.".toList ++ ("getCollection".toList ++ (before ++
        '(' :: (lit ++ ')' :: (behind ++ '.' :: (gap ++ (call ++ '(' :: rest))))))) := by simp
    obtain ⟨hskip, hbegins, hdrop⟩ := skipWs_db ("getCollection".toList ++ (before ++
      '(' :: (lit ++ ')' :: (behind ++ '.' :: (gap ++ (call ++ '(' :: rest))))))
    have hget : isGetCollection ("getCollection".toList ++ (before ++
        '(' :: (lit ++ ')' :: (behind ++ '.' :: (gap ++ (call ++ '(' :: rest)))))) = true := by
      have hparen (p : Text) : skipWs (before ++ '(' :: p) = '(' :: p := by
        rw [skipWs_append hbefore, skipWs_cons (by decide)]
      unfold isGetCollection
      rw [Bool.and_eq_true]
      refine ⟨List.isPrefixOf_iff_prefix.mpr (List.prefix_append _ _), decide_eq_true ?_⟩
      change (skipWs (before ++ _)).head? = _
      rw [hparen]
      rfl
    rw [htext]
    unfold parseCall
    simp only [skipWs_append hblanks, hskip, hbegins, hdrop, hget, Bool.not_true, Bool.false_eq_true,
      if_false, if_true, parseNamed_append hbefore hlit hunquote hname hbehind hgap, hcall.skipWs]
    exact locateMethod_call hcall name rest

theorem eq_append_of_isPrefixOf {mark text : Text} (h : mark.isPrefixOf text = true) :
    text = mark ++ text.drop mark.length := by
  obtain ⟨rest, rfl⟩ := List.isPrefixOf_iff_prefix.mp h
  rw [List.drop_left]

theorem head?_dropWhile_paren {text : Text} (h : '(' ∈ text) :
    (text.dropWhile (· ≠ '(')).head? = some '(' := by
  obtain ⟨before, after, rfl, hbefore⟩ := List.eq_append_cons_of_mem h
  rw [(takeWhile_paren (fun c hc ↦ ne_of_mem_of_not_mem hc hbefore) after).2, List.head?_cons]

/-- The parts of a call that the parser has found. -/
theorem eq_append_of_locateMethod {named : Option Text} {collStart name method paren : Text}
    (h : locateMethod named collStart = .ok ⟨some name, method, paren⟩) :
    ∃ m call, MethodText call method ∧ collStart = m ++ (call ++ paren) ∧ paren.head? = some '(' ∧
      '(' ∉ m ∧ (named = some name ∧ m = [] ∨ named = none ∧ name ≠ [] ∧ m = name ++ ['.']) := by
  unfold locateMethod at h
  simp only at h
  set before := collStart.takeWhile (· ≠ '(') with hbefore
  set m := (skipWsBack before).rdropWhile Char.isAlpha with hm
  set word := (skipWsBack before).rtakeWhile Char.isAlpha with hword
  by_cases hparen : '(' ∈ collStart
  swap
  · rw [if_pos hparen] at h
    cases h
  rw [if_neg (not_not.mpr hparen)] at h
  by_cases hshape : word = [] ∨ named ≠ none ∧ m ≠ [] ∨ named = none ∧ ¬ (named = none ∧ m = []) ∧
      m.getLast? ≠ some '.'
  · rw [if_pos hshape] at h
    cases h
  rw [if_neg hshape] at h
  by_cases hshort : named = none ∧ ¬ (named = none ∧ m = []) ∧ m.length ≤ 1
  · rw [if_pos hshort] at h
    cases h
  rw [if_neg hshort] at h
  by_cases hlevel : named = none ∧ m = []
  · rw [if_pos hlevel] at h
    cases h
  rw [if_neg hlevel] at h
  simp only [not_or, not_and, not_not] at hshape hshort hlevel
  obtain ⟨hne, hunnamed, hdot⟩ := hshape
  obtain ⟨blanks, hblanks, hbefore'⟩ : ∃ blanks, (∀ c ∈ blanks, isSpace c = true) ∧
      before = skipWsBack before ++ blanks :=
    ⟨before.rtakeWhile isSpace, fun _ hc ↦ List.mem_rtakeWhile_imp hc, (rdropWhile_append_rtakeWhile before).symm⟩
  have hword' : skipWsBack before = m ++ word := (rdropWhile_append_rtakeWhile _).symm
  have hcall : MethodText (word ++ blanks) word :=
    ⟨⟨hne, fun _ hc ↦ List.mem_rtakeWhile_imp hc⟩, blanks, hblanks, rfl⟩
  have htext : collStart = m ++ (word ++ blanks ++ collStart.dropWhile (· ≠ '(')) := by
    calc collStart = before ++ collStart.dropWhile (· ≠ '(') := List.takeWhile_append_dropWhile.symm
      _ = m ++ word ++ blanks ++ collStart.dropWhile (· ≠ '(') := by rw [hbefore', hword']
      _ = _ := by simp only [List.append_assoc]
  have hnot : '(' ∉ m := by
    intro hmem
    have hmem : '(' ∈ before := by
      rw [hbefore', hword']
      exact List.mem_append_left _ (List.mem_append_left _ hmem)
    exact absurd (List.mem_takeWhile_imp hmem) (by decide)
  simp only [Except.ok.injEq, Call.mk.injEq, Option.some.injEq] at h
  obtain ⟨hname, hmethod, hrest⟩ := h
  rw [hmethod] at hcall
  rw [hmethod, hrest] at htext
  refine ⟨m, method ++ blanks, hcall, htext, hrest ▸ head?_dropWhile_paren hparen, hnot, ?_⟩
  cases named with
  | some outer =>
    have hm : m = [] := hunnamed (Option.some_ne_none _)
    exact .inl ⟨by rw [← hname]; rfl, hm⟩
  | none =>
    have hm : m ≠ [] := hlevel rfl
    have hlast : m.getLast? = some '.' := hdot rfl (fun _ ↦ hm)
    have hsplit : m = name ++ ['.'] := by
      rw [← hname]
      exact (List.dropLast_append_getLast? _ hlast).symm
    refine .inr ⟨rfl, fun hempty ↦ ?_, hsplit⟩
    rw [hempty] at hsplit
    rw [hsplit] at hshort
    exact absurd (hshort rfl (fun _ ↦ List.cons_ne_nil _ _)) (by decide)

theorem eq_append_of_parseNamed {collStart name start : Text} (hget : isGetCollection collStart = true)
    (h : parseNamed collStart = .ok (name, start)) :
    ∃ before lit behind gap, (∀ c ∈ before, isSpace c = true) ∧ Inside lit ∧ unquote lit = some name ∧
      name ≠ [] ∧ (∀ c ∈ behind, isSpace c = true) ∧ (∀ c ∈ gap, isSpace c = true) ∧
      collStart = "getCollection".toList ++ (before ++ '(' :: (lit ++ ')' :: (behind ++ '.' :: (gap ++ start)))) := by
  unfold isGetCollection at hget
  rw [Bool.and_eq_true, decide_eq_true_eq] at hget
  obtain ⟨p, hp⟩ := List.head?_eq_some_iff.mp hget.2
  obtain ⟨before, hbefore, hdrop⟩ := exists_skipWs (collStart.drop 13)
  unfold parseNamed at h
  rw [hp] at h
  cases hmatch : matchBracket ('(' :: p) with
  | none =>
    rw [hmatch] at h
    cases h
  | some r =>
    obtain ⟨lit, rest⟩ := r
    obtain ⟨htext, hinside⟩ := inside_of_matchBracket hmatch
    obtain ⟨behind, hbehind, hrest⟩ := exists_skipWs rest
    rw [hmatch] at h
    cases hunquote : unquote lit with
    | none =>
      simp only [hunquote] at h
      cases h
    | some unquoted =>
      simp only [hunquote] at h
      split_ifs at h with hbad
      · cases h
      obtain ⟨hname, hdot⟩ := not_or.mp hbad
      obtain ⟨tail, htail⟩ := List.head?_eq_some_iff.mp (not_not.mp hdot)
      rw [htail] at h hrest
      obtain ⟨gap, hgap, hstart⟩ := exists_skipWs tail
      cases h
      refine ⟨before, lit, behind, gap, hbefore, hinside, hunquote, hname, hbehind, hgap, ?_⟩
      calc collStart = "getCollection".toList ++ collStart.drop 13 := eq_append_of_isPrefixOf hget.1
        _ = "getCollection".toList ++ (before ++ '(' :: (lit ++ ')' :: (behind ++ '.' :: tail))) := by
          rw [hdrop, hp, htext, hrest]
        _ = _ := by
          change _ = "getCollection".toList ++ (before ++ '(' :: (lit ++ ')' :: (behind ++ '.' ::
            (gap ++ skipWs tail))))
          rw [← hstart]

theorem head_of_parseCall {s name method paren : Text} (h : parseCall s = .ok ⟨some name, method, paren⟩) :
    ∃ head rest, paren = '(' :: rest ∧ s = head ++ paren ∧ CallHead name method head := by
  obtain ⟨blanks, hblanks, hs⟩ := exists_skipWs s
  unfold parseCall at h
  dsimp only at h
  split_ifs at h with hdb hget
  · cases h
  · have htext := eq_append_of_isPrefixOf (by simpa using hdb)
    cases hnamed : parseNamed ((skipWs s).drop 3) with
    | error failure =>
      rw [hnamed] at h
      cases h
    | ok named =>
      obtain ⟨outer, start⟩ := named
      rw [hnamed] at h
      obtain ⟨before, lit, behind, gap, hbefore, hlit, hunquote, hname, hbehind, hgap, hstart⟩ :=
        eq_append_of_parseNamed hget hnamed
      obtain ⟨m, call, hcall, hsplit, hhead, -, ⟨hsame, rfl⟩ | ⟨hnone, -⟩⟩ := eq_append_of_locateMethod h
      · cases hsame
        obtain ⟨rest, rfl⟩ := List.head?_eq_some_iff.mp hhead
        refine ⟨_, rest, rfl, ?_, .named hblanks hbefore hlit hunquote hname hbehind hgap hcall⟩
        calc s = blanks ++ ("db.".toList ++ (skipWs s).drop 3) := hs.trans (congrArg (blanks ++ ·) htext)
          _ = _ := by
            rw [hstart, hsplit]
            simp
      · cases hnone
  · have htext := eq_append_of_isPrefixOf (by simpa using hdb)
    obtain ⟨m, call, hcall, hstart, hhead, hparen, ⟨hnamed, -⟩ | ⟨-, hname, rfl⟩⟩ := eq_append_of_locateMethod h
    · cases hnamed
    · obtain ⟨rest, rfl⟩ := List.head?_eq_some_iff.mp hhead
      refine ⟨_, rest, rfl, ?_, .plain hblanks hname (fun hmem ↦ hparen (List.mem_append_left _ hmem)) hcall⟩
      calc s = blanks ++ ("db.".toList ++ (skipWs s).drop 3) := hs.trans (congrArg (blanks ++ ·) htext)
        _ = _ := by
          rw [hstart]
          simp

end Squaero.Mongo
