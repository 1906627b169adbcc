import Squaero.Mongo.JsonRelax

/-!
# Strings under relaxation

Read from left to right a text is made of strings in double quotes, strings in single quotes and characters outside
of both. Whatever `mongo_json_relax` writes for the others, it writes each string in double quotes as it is.
-/

namespace Squaero.Mongo

open Squaero.Lib

/-- What follows an opening quote `q`, with the closing one or without one, up to the end of the text then. -/
inductive Quoted (q : Char) : Bool → Text → Prop
  | close : Quoted q true [q]
  | unclosed : Quoted q false []
  | dangling : Quoted q false ['\\']
  | escaped (c : Char) {closed : Bool} {body : Text} (h : Quoted q closed body) : Quoted q closed ('\\' :: c :: body)
  | plain {c : Char} {closed : Bool} {body : Text} (hquote : c ≠ q) (hescape : c ≠ '\\') (h : Quoted q closed body) :
      Quoted q closed (c :: body)

/-- The second text is the first one with the strings in double quotes as they are, and anything for the rest. -/
inductive KeepsStrings : Text → Text → Prop
  | nil : KeepsStrings [] []
  | double {closed : Bool} {body rest out : Text} (hbody : Quoted '"' closed body) (hend : closed = false → rest = [])
      (h : KeepsStrings rest out) : KeepsStrings ('"' :: (body ++ rest)) ('"' :: (body ++ out))
  | single {closed : Bool} {body rest out : Text} (written : Text) (hbody : Quoted '\'' closed body)
      (hend : closed = false → rest = []) (h : KeepsStrings rest out) :
      KeepsStrings ('\'' :: (body ++ rest)) (written ++ out)
  | other {c : Char} {rest out : Text} (written : Text) (hdouble : c ≠ '"') (hsingle : c ≠ '\'')
      (h : KeepsStrings rest out) : KeepsStrings (c :: rest) (written ++ out)

/-- A part of a text may be written as `out`, whatever follows. -/
def WrittenAs (part out : Text) (after : Text) : Prop :=
  ∀ more, KeepsStrings after more → KeepsStrings (part ++ after) (out ++ more)

section Parts

variable {part out after : Text}

theorem WrittenAs.append {more written : Text} (hpart : WrittenAs part out (more ++ after))
    (hmore : WrittenAs more written after) : WrittenAs (part ++ more) (out ++ written) after := by
  intro rest hrest
  rw [List.append_assoc, List.append_assoc]
  exact hpart _ (hmore rest hrest)

/-- Text without a quote becomes anything. -/
theorem writtenAs_unquoted (hne : part ≠ []) (h : ∀ c ∈ part, c ≠ '"' ∧ c ≠ '\'') : WrittenAs part out after := by
  obtain ⟨c, part, rfl⟩ := List.exists_cons_of_ne_nil hne
  intro more hmore
  obtain ⟨hc, hpart⟩ := List.forall_mem_cons.1 h
  refine .other out hc.1 hc.2 ?_
  clear hne h hc
  induction part with
  | nil => exact hmore
  | cons d part ih =>
    obtain ⟨hd, hpart⟩ := List.forall_mem_cons.1 hpart
    exact .other [] hd.1 hd.2 (ih hpart)

end Parts

/-! ## Strings -/

/-- The text behind an opening quote, up to where `after` begins. -/
def QuotedUpTo (q : Char) (rest body after : Text) : Prop :=
  rest = body ++ after ∧ ∃ closed, Quoted q closed body ∧ (closed = false → after = [])

section QuotedUpTo

variable {q c : Char} {rest body after : Text}

theorem QuotedUpTo.escaped (c : Char) (h : QuotedUpTo q rest body after) :
    QuotedUpTo q ('\\' :: c :: rest) ('\\' :: c :: body) after := by
  obtain ⟨rfl, closed, hbody, hend⟩ := h
  exact ⟨rfl, closed, .escaped c hbody, hend⟩

theorem QuotedUpTo.plain (hquote : c ≠ q) (hescape : ∀ d more, c = '\\' → rest = d :: more → False)
    (h : QuotedUpTo q rest body after) : QuotedUpTo q (c :: rest) (c :: body) after := by
  obtain ⟨hrest, closed, hbody, hend⟩ := h
  by_cases hc : c = '\\'
  · have hnil : rest = [] := by
      cases rest with
      | nil => rfl
      | cons d more => exact (hescape d more hc rfl).elim
    obtain ⟨rfl, rfl⟩ := List.append_eq_nil_iff.1 (hrest.symm.trans hnil)
    subst hc
    subst hnil
    exact ⟨rfl, false, .dangling, fun _ ↦ rfl⟩
  · exact ⟨congrArg (c :: ·) hrest, closed, .plain hquote hc hbody, hend⟩

theorem quotedUpTo_close (q : Char) (rest : Text) : QuotedUpTo q (q :: rest) [q] rest :=
  ⟨rfl, true, .close, fun h ↦ by cases h⟩

theorem quotedUpTo_nil (q : Char) : QuotedUpTo q [] [] [] :=
  ⟨rfl, false, .unclosed, fun _ ↦ rfl⟩

end QuotedUpTo

theorem copyDquote_quoted (rest : Text) : QuotedUpTo '"' rest (copyDquote rest).1 (copyDquote rest).2 := by
  induction rest using copyDquote.induct with
  | case1 => exact quotedUpTo_nil '"'
  | case2 c rest out after heq ih =>
    rw [copyDquote]
    exact ih.escaped c
  | case3 rest => exact quotedUpTo_close '"' rest
  | case4 c rest hescape hquote out after heq ih =>
    rw [copyDquote.eq_4 _ _ hescape hquote]
    exact ih.plain hquote hescape

theorem rewriteSquote_quoted (rest : Text) : ∃ body, QuotedUpTo '\'' rest body (rewriteSquote rest).2 := by
  induction rest using rewriteSquote.induct with
  | case1 => exact ⟨[], quotedUpTo_nil '\''⟩
  | case2 rest out after heq ih =>
    obtain ⟨body, ih⟩ := ih
    rw [rewriteSquote]
    exact ⟨_, ih.escaped '\''⟩
  | case3 c rest hquote out after heq ih =>
    obtain ⟨body, ih⟩ := ih
    rw [rewriteSquote.eq_3 _ _ hquote]
    exact ⟨_, ih.escaped c⟩
  | case4 rest => exact ⟨_, quotedUpTo_close '\'' rest⟩
  | case5 rest out after heq ih =>
    obtain ⟨body, ih⟩ := ih
    rw [rewriteSquote]
    exact ⟨_, ih.plain (by decide) fun d more hc ↦ absurd hc (by decide)⟩
  | case6 c rest hsingle hescape hquote hdouble out after heq ih =>
    obtain ⟨body, ih⟩ := ih
    rw [rewriteSquote.eq_6 _ _ hsingle hescape hquote hdouble]
    exact ⟨_, ih.plain hquote hescape⟩

/-- A string in double quotes is written as it is, -/
theorem writtenAs_double (rest : Text) :
    WrittenAs ('"' :: (copyDquote rest).1) ('"' :: (copyDquote rest).1) (copyDquote rest).2 := by
  obtain ⟨-, closed, hbody, hend⟩ := copyDquote_quoted rest
  exact fun more hmore ↦ .double hbody hend hmore

/-- and one in single quotes in some way. -/
theorem writtenAs_single (rest written : Text) : ∃ body, rest = body ++ (rewriteSquote rest).2 ∧
    WrittenAs ('\'' :: body) written (rewriteSquote rest).2 := by
  obtain ⟨body, hrest, closed, hbody, hend⟩ := rewriteSquote_quoted rest
  exact ⟨body, hrest, fun more hmore ↦ .single written hbody hend hmore⟩

/-! ## Constructors -/

/-- No quotes. -/
def Unquoted (text : Text) : Prop := ∀ c ∈ text, c ≠ '"' ∧ c ≠ '\''

theorem unquoted_of_all {p : Char → Bool} (hdouble : p '"' = false) (hsingle : p '\'' = false) {text : Text}
    (h : ∀ c ∈ text, p c = true) : Unquoted text := by
  intro c hc
  constructor
  · rintro rfl
    exact absurd (h _ hc) (by rw [hdouble]; exact Bool.false_ne_true)
  · rintro rfl
    exact absurd (h _ hc) (by rw [hsingle]; exact Bool.false_ne_true)

theorem unquoted_takeWhile {p : Char → Bool} (hdouble : p '"' = false) (hsingle : p '\'' = false) (text : Text) :
    Unquoted (text.takeWhile p) :=
  unquoted_of_all hdouble hsingle fun _ hc ↦ List.mem_takeWhile_imp hc

theorem exists_skipSp (p : Text) : ∃ blanks, p = blanks ++ skipSp p ∧ Unquoted blanks :=
  ⟨p.takeWhile isSpace, List.takeWhile_append_dropWhile.symm, unquoted_takeWhile (by decide) (by decide) p⟩

theorem exists_ident (p : Text) : p = p.takeWhile isIdentChar ++ p.dropWhile isIdentChar ∧
    Unquoted (p.takeWhile isIdentChar) :=
  ⟨List.takeWhile_append_dropWhile.symm, unquoted_takeWhile (by decide) (by decide) p⟩

theorem Unquoted.append {a b : Text} (ha : Unquoted a) (hb : Unquoted b) : Unquoted (a ++ b) :=
  List.forall_mem_append.2 ⟨ha, hb⟩

theorem unquoted_singleton {c : Char} (hdouble : c ≠ '"') (hsingle : c ≠ '\'') : Unquoted [c] :=
  List.forall_mem_singleton.2 ⟨hdouble, hsingle⟩

theorem ctorArg_written {text arg after : Text} (h : ctorArg text = some (arg, after)) :
    ∃ part, text = part ++ after ∧ WrittenAs part arg after := by
  cases text with
  | nil => cases h
  | cons c rest =>
    rw [ctorArg] at h
    split_ifs at h with hdouble hsingle hnumber
    · cases h
      subst hdouble
      exact ⟨_, congrArg ('"' :: ·) (copyDquote_quoted rest).1, writtenAs_double rest⟩
    · cases h
      subst hsingle
      obtain ⟨body, hrest, hwritten⟩ := writtenAs_single rest ('"' :: (rewriteSquote rest).1)
      exact ⟨_, congrArg ('\'' :: ·) hrest, hwritten⟩
    · obtain ⟨harg, hafter⟩ := Prod.ext_iff.1 (Option.some.inj h)
      dsimp only at harg hafter
      subst hafter
      refine ⟨(c :: rest).takeWhile _, List.takeWhile_append_dropWhile.symm, writtenAs_unquoted ?_ ?_⟩
      · rw [List.takeWhile_cons_of_pos]
        · exact List.cons_ne_nil _ _
        · rcases hnumber with rfl | rfl | hdigit
          · rfl
          · rfl
          · rw [hdigit, Bool.or_true]
      · exact unquoted_takeWhile (by decide) (by decide) _

theorem eq_cons_of_head? {text : Text} {c : Char} (h : text.head? = some c) : ∃ rest, text = c :: rest := by
  cases text with
  | nil => cases h
  | cons d rest =>
    cases h
    exact ⟨rest, rfl⟩

theorem rewriteCtor_written {text out after : Text} (h : rewriteCtor text = some (out, after)) :
    ∃ part, part ≠ [] ∧ text = part ++ after ∧ WrittenAs part out after := by
  unfold rewriteCtor at h
  obtain ⟨⟨name, key⟩, hfind, h⟩ := Option.bind_eq_some_iff.1 h
  dsimp only at h
  split_ifs at h with hopen
  obtain ⟨⟨arg, behind⟩, harg, h⟩ := Option.bind_eq_some_iff.1 h
  dsimp only at h
  split_ifs at h with hclose
  obtain ⟨hout, hafter⟩ := Prod.ext_iff.1 (Option.some.inj h)
  dsimp only at hout hafter
  obtain ⟨hident, hidentUnquoted⟩ := exists_ident text
  have hne : text.takeWhile isIdentChar ≠ [] := by
    have hname := List.find?_some hfind
    rw [← of_decide_eq_true hname]
    have hnames : ∀ ctor ∈ ctors, ctor.1 ≠ [] := by decide
    exact hnames _ (List.mem_of_find?_eq_some hfind)
  obtain ⟨blanks, hblanks, hblanksUnquoted⟩ := exists_skipSp (text.dropWhile isIdentChar)
  obtain ⟨inside, hinside⟩ := eq_cons_of_head? (not_not.1 hopen)
  rw [hinside, List.drop_one, List.tail_cons] at harg
  obtain ⟨blanks', hblanks', hblanksUnquoted'⟩ := exists_skipSp inside
  obtain ⟨part, hpart, hwritten⟩ := ctorArg_written harg
  obtain ⟨blanks'', hblanks'', hblanksUnquoted''⟩ := exists_skipSp behind
  obtain ⟨rest, hrest⟩ := eq_cons_of_head? (not_not.1 hclose)
  rw [hrest, List.drop_one, List.tail_cons] at hafter
  subst hafter
  have hopening : Unquoted (text.takeWhile isIdentChar ++ (blanks ++ ('(' :: blanks'))) :=
    hidentUnquoted.append (hblanksUnquoted.append
      ((unquoted_singleton (by decide) (by decide)).append hblanksUnquoted'))
  have hclosing : Unquoted (blanks'' ++ [')']) :=
    hblanksUnquoted''.append (unquoted_singleton (by decide) (by decide))
  have hbehind : behind = (blanks'' ++ [')']) ++ rest := by
    rw [List.append_assoc, List.singleton_append, ← hrest]
    exact hblanks''
  rw [hbehind] at hpart hwritten
  have hopened : inside = blanks' ++ (part ++ ((blanks'' ++ [')']) ++ rest)) := by rw [← hpart, ← hblanks']
  have htext : text = text.takeWhile isIdentChar ++ (blanks ++ ('(' :: inside)) := by
    rw [← hinside, ← hblanks, ← hident]
  have hall : WrittenAs
      ((text.takeWhile isIdentChar ++ (blanks ++ ('(' :: blanks'))) ++ (part ++ (blanks'' ++ [')'])))
      (('{' :: '"' :: (key ++ ['"', ':'])) ++ (arg ++ ['}'])) rest :=
    (writtenAs_unquoted (List.append_ne_nil_of_left_ne_nil hne _) hopening).append
      (hwritten.append (writtenAs_unquoted (List.append_ne_nil_of_right_ne_nil _ (List.cons_ne_nil _ _)) hclosing))
  have hwhole : ('{' :: '"' :: (key ++ ['"', ':'])) ++ (arg ++ ['}']) = out := by
    rw [← hout]
    simp
  rw [hwhole] at hall
  refine ⟨_, List.append_ne_nil_of_left_ne_nil (List.append_ne_nil_of_left_ne_nil hne _) _, ?_, hall⟩
  refine htext.trans ?_
  rw [hopened]
  simp

/-! ## The loop -/

theorem relaxStep_written {prev next : Option Char} {c : Char} {rest out after : Text}
    (h : relaxStep prev c rest = (out, next, after)) :
    ∃ passed, rest = passed ++ after ∧ WrittenAs (c :: passed) out after := by
  have hident : Unquoted (rest.takeWhile isIdentChar) := unquoted_takeWhile (by decide) (by decide) rest
  have hrest : rest = rest.takeWhile isIdentChar ++ rest.dropWhile isIdentChar :=
    List.takeWhile_append_dropWhile.symm
  have hwritten (hdouble : c ≠ '"') (hsingle : c ≠ '\'') {passed out after : Text} (hpassed : Unquoted passed) :
      WrittenAs (c :: passed) out after :=
    writtenAs_unquoted (List.cons_ne_nil _ _) (List.forall_mem_cons.2 ⟨⟨hdouble, hsingle⟩, hpassed⟩)
  unfold relaxStep at h
  dsimp only at h
  by_cases hspace : isSpace c = true
  · rw [if_pos hspace] at h
    cases h
    have hquote : c ≠ '"' ∧ c ≠ '\'' := by
      constructor <;> rintro rfl <;> revert hspace <;> decide
    exact ⟨[], rfl, hwritten hquote.1 hquote.2 (List.forall_mem_nil _)⟩
  rw [if_neg hspace] at h
  by_cases hdouble : c = '"'
  · rw [if_pos hdouble] at h
    cases h
    subst hdouble
    exact ⟨_, (copyDquote_quoted rest).1, writtenAs_double rest⟩
  rw [if_neg hdouble] at h
  by_cases hsingle : c = '\''
  · rw [if_pos hsingle] at h
    cases h
    subst hsingle
    exact writtenAs_single rest _
  rw [if_neg hsingle] at h
  by_cases hstart : isIdentStart c = true
  swap
  · rw [if_neg hstart] at h
    cases h
    exact ⟨[], rfl, hwritten hdouble hsingle (List.forall_mem_nil _)⟩
  rw [if_pos hstart] at h
  split_ifs at h with hkey hnew
  · cases h
    exact ⟨_, hrest, hwritten hdouble hsingle hident⟩
  · cases h
    obtain ⟨blanks, hblanks, hunquoted⟩ := exists_skipSp (rest.dropWhile isIdentChar)
    refine ⟨rest.takeWhile isIdentChar ++ blanks, ?_, hwritten hdouble hsingle (hident.append hunquoted)⟩
    rw [List.append_assoc, ← hblanks]
    exact hrest
  · cases hctor : rewriteCtor (c :: rest) with
    | none =>
      rw [hctor] at h
      cases h
      exact ⟨_, hrest, hwritten hdouble hsingle hident⟩
    | some result =>
      rw [hctor] at h
      cases h
      obtain ⟨part, hne, hpart, hwritten⟩ := rewriteCtor_written hctor
      obtain ⟨d, passed, rfl⟩ := List.exists_cons_of_ne_nil hne
      obtain ⟨rfl, hpassed⟩ := List.cons.inj hpart
      exact ⟨passed, hpassed, hwritten⟩

theorem relaxLoop_keepsStrings (prev : Option Char) (text : Text) : KeepsStrings text (relaxLoop 0 prev text) := by
  induction hlength : text.length using Nat.strong_induction_on generalizing prev text with
  | _ n ih =>
    cases text with
    | nil => exact .nil
    | cons c rest =>
      rcases hstep : relaxStep prev c rest with ⟨out, next, after⟩
      obtain ⟨passed, rfl, hwritten⟩ := relaxStep_written hstep
      rw [relaxLoop_step hstep]
      refine hwritten _ (ih after.length ?_ next after rfl)
      rw [← hlength, List.length_cons, List.length_append]
      omega

/-- JSON stays as it is, a result that is JSON stays as it is when it is relaxed again, and a string in double quotes
is never touched. -/
theorem mongoJsonRelax_faithful :
    (∀ text, mongoJsonValid text = true → mongoJsonRelax text = text) ∧
      (∀ text, mongoJsonValid (mongoJsonRelax text) = true →
        mongoJsonRelax (mongoJsonRelax text) = mongoJsonRelax text) ∧
      ∀ text, KeepsStrings text (mongoJsonRelax text) :=
  ⟨fun _ h ↦ mongoJsonRelax_of_valid h, fun _ h ↦ mongoJsonRelax_of_valid h,
    fun text ↦ relaxLoop_keepsStrings none text⟩

end Squaero.Mongo
