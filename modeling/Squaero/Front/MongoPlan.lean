import Squaero.Front.MongoExplain

/-!
# The plan of a query is asked for as it was read

Where the mark that `mongoExplainStatement` looks for stands among the parts of an accepted query, and what
the query rewritten there is read as.
-/

namespace Squaero.Front

open Squaero.Lib Squaero.Mongo

/-! ## Calls written behind a query -/

def limitCall (lead : Text) : Chained := ⟨lead, [], "limit".toList, [], ['1']⟩

def explainCall (lead : Text) : Chained := ⟨lead, [], "explain".toList, [], "\"queryPlanner\"".toList⟩

theorem inside_of_passes {depth : ℕ} {text : Text} (h : Passes depth text) (hdepth : depth + 1 ≤ stackSize) :
    Inside text := by
  intro rest _
  rw [h [')'] rest (List.cons_ne_nil _ _) (by decide), if_pos (by rw [List.length_singleton]; omega)]

theorem isMethod_limit : IsMethod "limit".toList := ⟨by decide, by decide⟩

theorem isMethod_explain : IsMethod "explain".toList := ⟨by decide, by decide⟩

theorem cut_limitCall {lead : Text} (h : ∀ c ∈ lead, isSpace c = true) : (limitCall lead).Cut :=
  ⟨h, nofun, isMethod_limit, nofun, inside_of_passes (passes_char (by decide)) (by decide)⟩

theorem cut_explainCall {lead : Text} (h : ∀ c ∈ lead, isSpace c = true) : (explainCall lead).Cut := by
  have hbody : Json.Body "queryPlanner".toList ("queryPlanner".toList.map Char.toNat) :=
    Json.body_flatMap_escape "queryPlanner".toList
  exact ⟨h, nofun, isMethod_explain, nofun, inside_of_passes (passes_string hbody) (by decide)⟩

theorem runCall_explain (explainOnly : Bool) (lead : Text) {out : Query} (h : out.explain = none) :
    runCall explainOnly out (explainCall lead) = .ok { out with explain := some "queryPlanner".toList } := by
  have hunquote : (unquote (trim (explainCall lead).arg)).filter explainVerbosityOk =
      some "queryPlanner".toList := by
    change (unquote (trim "\"queryPlanner\"".toList)).filter explainVerbosityOk = _
    decide
  have hquoted : trim (explainCall lead).arg ≠ [] := by
    change trim "\"queryPlanner\"".toList ≠ []
    decide
  unfold runCall
  rw [if_neg (by simp [h])]
  change setExplain (trim (explainCall lead).arg) out = _
  unfold setExplain
  rw [if_neg hquoted, hunquote]

theorem runCall_limit (lead : Text) {out : Query} (h : out.explain = none) :
    runCall false out (limitCall lead) = .ok { out with limit := 1 } := by
  unfold runCall
  rw [if_neg (by simp [h])]
  rfl

theorem runCall_limit_aggregate (lead : Text) (out out' : Query) :
    runCall true out (limitCall lead) ≠ .ok out' := by
  intro hrun
  have hname : "limit".toList = "explain".toList := (sets_of_runCall hrun).2.2 rfl
  exact absurd hname (by decide)

theorem calls_split {explainOnly : Bool} {done more : List Chained} {call : Chained} {out out' : Query} :
    (done ++ call :: more).foldlM (runCall explainOnly) out = .ok out' ↔ ∃ first second,
      done.foldlM (runCall explainOnly) out = .ok first ∧ runCall explainOnly first call = .ok second ∧
        more.foldlM (runCall explainOnly) second = .ok out' := by
  rw [List.foldlM_append]
  cases hdone : done.foldlM (runCall explainOnly) out with
  | error failure =>
    constructor
    · exact nofun
    · rintro ⟨first, second, hfirst, -⟩
      cases hfirst
  | ok first =>
    change (call :: more).foldlM (runCall explainOnly) first = _ ↔ _
    rw [List.foldlM_cons]
    cases hcall : runCall explainOnly first call with
    | error failure =>
      constructor
      · exact nofun
      · rintro ⟨first', second, hfirst, hsecond, -⟩
        cases hfirst
        rw [hcall] at hsecond
        cases hsecond
    | ok second =>
      constructor
      · intro h
        exact ⟨first, second, rfl, hcall, h⟩
      · rintro ⟨first', second', hfirst, hsecond, h⟩
        cases hfirst
        rw [hcall] at hsecond
        cases hsecond
        exact h

theorem readFind_eq_ok_iff {p : Parts} {out : Query} : p.readFind = .ok out ↔
    ∃ args, readArgs 2 p.body = some args ∧
      p.calls.foldlM (runCall false) (findQuery (some p.name) args) = .ok out := by
  unfold Parts.readFind
  cases readArgs 2 p.body with
  | none =>
    constructor
    · exact nofun
    · rintro ⟨args, hargs, -⟩
      cases hargs
  | some args =>
    constructor
    · intro h
      exact ⟨args, rfl, h⟩
    · rintro ⟨args', hargs, h⟩
      cases hargs
      exact h

/-- The query with a limit of one row, and its plan asked for. -/
def planned (p : Parts) : Parts :=
  { p with calls := p.calls ++ [limitCall p.blanks, explainCall []], blanks := [], stop := [] }

theorem text_planned {p : Parts} (hstop : p.stop = []) :
    (planned p).text = p.text ++ (".limit(1)".toList ++ explainCallText) := by
  have hcalls : callsText (p.calls ++ [limitCall p.blanks, explainCall []]) =
      callsText p.calls ++ (p.blanks ++ (".limit(1)".toList ++ explainCallText)) := by
    unfold callsText limitCall explainCall explainCallText Chained.text
    simp
  unfold planned Parts.text
  simp only [hcalls, hstop]
  simp

section

variable {p : Parts} (hcut : p.Cut)

include hcut

theorem cut_planned : (planned p).Cut := by
  refine ⟨hcut.head, hcut.body, ?_, nofun, .inl rfl⟩
  intro call hcall
  obtain hcall | hcall := List.mem_append.mp hcall
  · exact hcut.calls call hcall
  · simp only [List.mem_cons, List.not_mem_nil, or_false] at hcall
    obtain rfl | rfl := hcall
    · exact cut_limitCall hcut.blanks
    · exact cut_explainCall nofun

/-- A `find` with the calls behind it reads as itself with a limit of one row. -/
theorem planned_find_iff (hmethod : p.method = "find".toList) {out : Query} (hexplain : out.explain = none) :
    mongoQueryParse (planned p).text = .ok { out with explain := some "queryPlanner".toList } ↔
      ∃ out', p.readFind = .ok out' ∧ { out' with limit := 1 } = out := by
  have hread : (planned p).readFind = p.readFind >>= fun out ↦
      [limitCall p.blanks, explainCall []].foldlM (runCall false) out := by
    unfold Parts.readFind planned
    dsimp only
    cases readArgs 2 p.body with
    | none => rfl
    | some args => exact List.foldlM_append
  have hcalls {out' : Query} (hnone : out'.explain = none) :
      [limitCall p.blanks, explainCall []].foldlM (runCall false) out' =
        .ok { out' with limit := 1, explain := some "queryPlanner".toList } := by
    rw [List.foldlM_cons, runCall_limit p.blanks hnone]
    have hlimited : ({ out' with limit := 1 } : Query).explain = none := hnone
    change [explainCall []].foldlM (runCall false) { out' with limit := 1 } = _
    rw [List.foldlM_cons, runCall_explain false [] hlimited]
    rfl
  rw [mongoQueryParse_find (cut_planned hcut) hmethod, hread]
  constructor
  · intro h
    cases hfind : p.readFind with
    | error failure =>
      rw [hfind] at h
      cases h
    | ok out' =>
      rw [hfind] at h
      change [limitCall p.blanks, explainCall []].foldlM (runCall false) out' = _ at h
      refine ⟨out', rfl, ?_⟩
      have hnone : out'.explain = none := by
        rw [List.foldlM_cons] at h
        cases hrun : runCall false out' (limitCall p.blanks) with
        | error failure =>
          rw [hrun] at h
          cases h
        | ok next => exact (sets_of_runCall hrun).2.1
      rw [hcalls hnone] at h
      have hsame := congrArg (fun out : Query ↦ { out with explain := none }) (Except.ok.inj h)
      calc { out' with limit := 1 } = { out' with limit := 1, explain := none } := by rw [← hnone]
        _ = { out with explain := none } := hsame
        _ = out := by rw [← hexplain]
  · rintro ⟨out', hfind, rfl⟩
    rw [hfind]
    exact hcalls hexplain

/-- No other query takes a limit. -/
theorem planned_ne_ok (hmethod : p.method = "findOne".toList ∨ p.method = "aggregate".toList) (out : Query) :
    mongoQueryParse (planned p).text ≠ .ok out := by
  intro h
  obtain hmethod | hmethod := hmethod
  · rw [mongoQueryParse_findOne (cut_planned hcut) hmethod] at h
    have hcalls : (planned p).calls ≠ [] := by simp [planned]
    unfold Parts.readFindOne at h
    cases hargs : readArgs 2 (planned p).body with
    | none =>
      rw [hargs] at h
      cases h
    | some args =>
      rw [hargs] at h
      simp only [hcalls, ne_eq, not_false_eq_true, if_true] at h
      cases h
  · rw [mongoQueryParse_aggregate (cut_planned hcut) hmethod] at h
    unfold Parts.readAggregate at h
    cases hargs : readArgs 1 (planned p).body with
    | none =>
      rw [hargs] at h
      cases h
    | some args =>
      rw [hargs] at h
      dsimp only [planned] at h
      rw [List.foldlM_append] at h
      split at h <;>
      · cases hcalls : p.calls.foldlM (runCall true) _ with
        | error failure =>
          rw [hcalls] at h
          cases h
        | ok next =>
          rw [hcalls] at h
          change [limitCall p.blanks, explainCall []].foldlM (runCall true) next = _ at h
          rw [List.foldlM_cons] at h
          cases hrun : runCall true next (limitCall p.blanks) with
          | error failure =>
            rw [hrun] at h
            cases h
          | ok out' => exact runCall_limit_aggregate _ _ _ hrun

end

/-! ## Where a mark stands -/

/-- A mark stands on one side of a character that it does not hold. -/
theorem append_cons_cases {A B before mark after : Text} {c : Char} (hc : c ∉ mark)
    (h : A ++ c :: B = before ++ (mark ++ after)) :
    (∃ rest, A = before ++ (mark ++ rest) ∧ after = rest ++ c :: B) ∨
      ∃ rest, before = A ++ c :: rest ∧ B = rest ++ (mark ++ after) := by
  rw [← List.append_assoc] at h
  obtain ⟨behind, hfront, hB⟩ | ⟨rest, hA, hafter⟩ := List.append_eq_append_iff.mp h
  · cases behind with
    | nil => exact .inl ⟨[], by simpa using hfront.symm, hB.symm⟩
    | cons d behind =>
      obtain ⟨rfl, hbehind⟩ := List.cons.inj hB
      obtain ⟨rest, -, hmark⟩ | ⟨rest, hbefore, hrest⟩ := List.append_eq_append_iff.mp hfront
      · exact absurd (by simp [hmark]) hc
      · cases rest with
        | nil =>
          rw [List.nil_append] at hrest
          exact absurd (hrest ▸ .head _) hc
        | cons e rest =>
          obtain ⟨rfl, hmarked⟩ := List.cons.inj hrest
          refine .inr ⟨rest, hbefore, ?_⟩
          calc B = behind ++ after := hbehind
            _ = rest ++ mark ++ after := congrArg (· ++ after) hmarked
            _ = _ := List.append_assoc _ _ _
  · exact .inl ⟨rest, by rw [hA, List.append_assoc], hafter⟩

/-- What stands in front of the parenthesis of a mark. -/
def findOneDot : Text := ".findOne".toList

theorem paren_cases {A B before after : Text} (h : A ++ '(' :: B = before ++ (findOneMark ++ after)) :
    A = before ++ findOneDot ∨ (∃ rest, A = before ++ (findOneMark ++ rest) ∧ after = rest ++ '(' :: B) ∨
      ∃ rest, before = A ++ '(' :: rest ∧ B = rest ++ (findOneMark ++ after) := by
  have hmark : before ++ (findOneMark ++ after) = before ++ (findOneDot ++ '(' :: after) := rfl
  rw [hmark] at h
  obtain ⟨rest, hA, hafter⟩ | ⟨rest, hbefore, hB⟩ := append_cons_cases (by decide : '(' ∉ findOneDot) h
  · cases rest with
    | nil => exact .inl (by simpa using hA)
    | cons c rest =>
      obtain ⟨rfl, hbehind⟩ := List.cons.inj hafter
      exact .inr (.inl ⟨rest, hA, hbehind⟩)
  · exact .inr (.inr ⟨rest, hbefore, hB⟩)

/-- A call whose text ends in `.findOne` is written without blanks. -/
theorem eq_of_dot {X before gap method call : Text} (hgap : ∀ c ∈ gap, isSpace c = true)
    (hcall : MethodText call method) (h : X ++ '.' :: (gap ++ call) = before ++ findOneDot) :
    X = before ∧ gap = [] ∧ call = "findOne".toList ∧ method = "findOne".toList := by
  have hfindOne : IsMethod "findOne".toList := ⟨by decide, by decide⟩
  have hback := hcall.skipWsBack (X ++ '.' :: gap)
  have hother : MethodText "findOne".toList "findOne".toList := ⟨hfindOne, [], nofun, rfl⟩
  have hback' := hother.skipWsBack (before ++ ['.'])
  have htext : X ++ '.' :: gap ++ call = before ++ ['.'] ++ "findOne".toList := by
    calc X ++ '.' :: gap ++ call = X ++ '.' :: (gap ++ call) := by simp
      _ = before ++ findOneDot := h
      _ = _ := by
        unfold findOneDot
        simp
  rw [htext, hback'] at hback
  have hstop (c : Char) (hc : (X ++ '.' :: gap).getLast? = some c) : c.isAlpha = false := by
    have hmem : c ∈ '.' :: gap := by
      rw [List.getLast?_append_of_ne_nil _ (List.cons_ne_nil _ _)] at hc
      exact List.mem_of_getLast? hc
    obtain rfl | hmem := List.mem_cons.mp hmem
    · decide
    · have hword := isWordChar_of_isSpace (hgap c hmem)
      by_contra halpha
      simp [isWordChar, halpha] at hword
  obtain ⟨htake, hdrop⟩ := rtakeWhile_method hcall.isMethod.alpha (X ++ '.' :: gap) hstop
  obtain ⟨htake', hdrop'⟩ := rtakeWhile_method hfindOne.alpha (before ++ ['.']) (by simp)
  rw [← hback, htake'] at htake
  rw [← hback, hdrop'] at hdrop
  have hmethod : method = "findOne".toList := htake.symm
  have hgapNil : gap = [] := by
    by_contra hne
    obtain ⟨front, c, rfl⟩ : ∃ front c, gap = front ++ [c] := ⟨_, _, (List.dropLast_concat_getLast hne).symm⟩
    rw [← List.cons_append, ← List.append_assoc] at hdrop
    have hlast := congrArg List.getLast? hdrop
    rw [List.getLast?_concat, List.getLast?_concat] at hlast
    have hc : '.' = c := Option.some.inj hlast
    exact absurd (hgap c (by simp)) (by rw [← hc]; decide)
  rw [hgapNil] at hdrop htext
  have hX : X = before := List.append_cancel_right hdrop.symm
  rw [hX] at htext
  exact ⟨hX, hgapNil, List.append_cancel_left htext, hmethod⟩

theorem arg_of_text {call : Chained} (hcut : call.Cut) (hname : call.name ≠ "findOne".toList) {x y : Text}
    (h : call.text = x ++ (findOneMark ++ y)) : ∃ x' y', call.arg = x' ++ (findOneMark ++ y') ∧
      x = call.lead ++ '.' :: (call.gap ++ (call.name ++ (call.space ++ '(' :: x'))) ∧ y = y' ++ [')'] := by
  have hcall : MethodText (call.name ++ call.space) call.name := ⟨hcut.name, call.space, hcut.space, rfl⟩
  have htext : call.text = (call.lead ++ '.' :: (call.gap ++ (call.name ++ call.space))) ++
      '(' :: (call.arg ++ [')']) := by
    unfold Chained.text
    simp
  rw [htext] at h
  obtain hend | ⟨rest, hrest, -⟩ | ⟨rest, hx, hrest⟩ := paren_cases h
  · exact absurd (eq_of_dot hcut.gap hcall hend).2.2.2 hname
  · have hmem : '(' ∈ call.lead ++ '.' :: (call.gap ++ (call.name ++ call.space)) := by
      rw [hrest]
      exact List.mem_append_right _ (List.mem_append_left _ (by decide))
    simp only [List.mem_append, List.mem_cons] at hmem
    obtain hmem | hmem | hmem | hmem := hmem
    · exact absurd (hcut.lead _ hmem) (by decide)
    · exact absurd hmem (by decide)
    · exact absurd (hcut.gap _ hmem) (by decide)
    · exact absurd (List.mem_append.mpr hmem) hcall.not_mem_paren
  · obtain ⟨rest', harg, hy⟩ | ⟨rest', -, hnil⟩ := append_cons_cases (by decide : ')' ∉ findOneMark) hrest
    · exact ⟨rest, rest', harg, by rw [hx]; simp, hy⟩
    · have hempty := List.append_eq_nil_iff.mp (List.append_eq_nil_iff.mp hnil.symm).2
      exact absurd hempty.1 (by decide)

theorem calls_cases {calls : List Chained} {blanks front after : Text} (hblanks : ∀ c ∈ blanks, isSpace c = true)
    (h : callsText calls ++ blanks = front ++ (findOneMark ++ after)) : ∃ done call more x y,
      calls = done ++ call :: more ∧ call.text = x ++ (findOneMark ++ y) ∧ front = callsText done ++ x ∧
      after = y ++ (callsText more ++ blanks) := by
  induction calls generalizing front with
  | nil =>
    have hmem : '.' ∈ blanks := by
      change blanks = _ at h
      rw [h]
      exact List.mem_append_right _ (List.mem_append_left _ (by decide))
    exact absurd (hblanks _ hmem) (by decide)
  | cons call calls ih =>
    rw [callsText_cons] at h
    obtain ⟨inner, hinner⟩ : ∃ inner, call.text = inner ++ [')'] :=
      ⟨call.lead ++ '.' :: (call.gap ++ (call.name ++ (call.space ++ '(' :: call.arg))), by
        unfold Chained.text
        simp⟩
    rw [hinner, List.append_assoc, List.singleton_append] at h
    obtain ⟨rest, hrest, hafter⟩ | ⟨rest, hfront, hrest⟩ :=
      append_cons_cases (by decide : ')' ∉ findOneMark) h
    · refine ⟨[], call, calls, front, rest ++ [')'], rfl, ?_, rfl, ?_⟩
      · rw [hinner, hrest]
        simp
      · rw [hafter]
        simp
    · obtain ⟨done, call', more, x, y, rfl, htext, hfront', hafter⟩ := ih hrest
      refine ⟨call :: done, call', more, x, y, rfl, htext, ?_, hafter⟩
      rw [hfront, hfront', callsText_cons, hinner]
      simp

/-- The text of a query up to one of its chained calls. -/
def upTo (p : Parts) (calls : List Chained) : Text := p.head ++ '(' :: (p.body ++ ')' :: callsText calls)

/-- Where a mark stands. -/
inductive Stands (p : Parts) (before after : Text) : Prop
  | call (hhead : p.head = before ++ findOneDot)
  | head {rest : Text} (hhead : p.head = before ++ (findOneMark ++ rest))
      (hafter : after = rest ++ '(' :: (p.body ++ ')' :: (callsText p.calls ++ p.blanks)))
  | body {x y : Text} (hbody : p.body = x ++ (findOneMark ++ y)) (hbefore : before = p.head ++ '(' :: x)
      (hafter : after = y ++ ')' :: (callsText p.calls ++ p.blanks))
  | chain {done more : List Chained} {call : Chained} {x y : Text} (hcalls : p.calls = done ++ call :: more)
      (htext : call.text = x ++ (findOneMark ++ y)) (hbefore : before = upTo p done ++ x)
      (hafter : after = y ++ (callsText more ++ p.blanks))

theorem stands {p : Parts} (hcut : p.Cut) (hstop : p.stop = []) {before after : Text}
    (h : p.text = before ++ (findOneMark ++ after)) : Stands p before after := by
  unfold Parts.text at h
  rw [hstop, List.append_nil] at h
  obtain hhead | ⟨rest, hhead, hafter⟩ | ⟨rest, hbefore, hrest⟩ := paren_cases h
  · exact .call hhead
  · exact .head hhead hafter
  · obtain ⟨rest', hbody, hafter⟩ | ⟨rest', hbody, hcalls⟩ :=
      append_cons_cases (by decide : ')' ∉ findOneMark) hrest
    · exact .body hbody hbefore hafter
    · obtain ⟨done, call, more, x, y, hdone, htext, rfl, hafter⟩ := calls_cases hcut.blanks hcalls
      refine .chain hdone htext ?_ hafter
      unfold upTo
      rw [hbefore, hbody]
      simp

/-! ## A mark in the collection's name -/

theorem suffix_of_unquoteLoop {quote : Char} {skip : ℕ} {escaped : Bool} {p s after : Text}
    (h : unquoteLoop quote skip escaped p = some (s, after)) : after <:+ p := by
  induction p generalizing skip escaped s with
  | nil => cases h
  | cons c rest ih =>
    have hmap {skip : ℕ} {escaped : Bool} {put : Text × Text → Text}
        (hmap : (unquoteLoop quote skip escaped rest).map (fun r ↦ (put r, r.2)) = some (s, after)) :
        after <:+ c :: rest := by
      obtain ⟨r, hr, heq⟩ := Option.map_eq_some_iff.mp hmap
      have hafter : r.2 = after := congrArg Prod.snd heq
      have hloop : unquoteLoop quote skip escaped rest = some (r.1, after) := hafter ▸ hr
      exact (ih hloop).trans (List.suffix_cons c rest)
    cases skip with
    | succ skip => exact (ih h).trans (List.suffix_cons c rest)
    | zero =>
      cases escaped with
      | true =>
        rw [unquoteLoop] at h
        split_ifs at h
        · split at h
          · cases h
          · exact hmap h
        · exact hmap h
      | false =>
        rw [unquoteLoop] at h
        split_ifs at h
        · cases h
          exact List.suffix_cons _ _
        · exact (ih h).trans (List.suffix_cons c rest)
        · exact hmap h

/-- What stands in `before` of the literal of the collection's name. -/
def literalText (before : Text) : Text := skipWs ((skipWs ((skipWs before).drop 16)).drop 1)

/-- A NUL ends the name in front of the mark. -/
def NulBefore (before : Text) : Prop := ∃ quote x s, literalText before = quote :: x ∧
  unquoteLoop quote 0 false (x ++ (findOneMark ++ [quote])) = some (s, []) ∧ '\x00' ∈ s

theorem verbatim_mark {quote : Char} (h : isQuote quote = true) :
    Verbatim quote "findOne(".toList ∧ Verbatim quote "find(".toList := by
  unfold isQuote at h
  simp only [Bool.or_eq_true, decide_eq_true_eq] at h
  obtain rfl | rfl := h
  · exact ⟨by unfold Verbatim; decide, by unfold Verbatim; decide⟩
  · exact ⟨by unfold Verbatim; decide, by unfold Verbatim; decide⟩

theorem Inside.drop_mark {x y : Text} (h : Inside (x ++ (findOneMark ++ y))) : Inside (x ++ (findMark ++ y)) := by
  have hfull : x ++ (findOneMark ++ y) = (x ++ ".fin".toList) ++ 'd' :: ("One".toList ++ '(' :: y) := by
    rw [List.append_assoc]
    rfl
  have hshort : x ++ (findMark ++ y) = (x ++ ".fin".toList) ++ 'd' :: ('(' :: y) := by
    rw [List.append_assoc]
    rfl
  rw [hfull] at h
  rw [hshort]
  exact Mongo.Inside.drop_letters (by decide) (by decide) h

theorem cString_append {front : Text} (h : '\x00' ∉ front) (rest : Text) :
    cString (front ++ rest) = front ++ cString rest :=
  List.takeWhile_append_of_pos fun _ hc ↦ decide_eq_true (ne_of_mem_of_not_mem hc h)

theorem cString_of_mem {front : Text} (h : '\x00' ∈ front) (rest : Text) :
    cString (front ++ rest) = cString front := by
  obtain ⟨before, behind, rfl, hbefore⟩ := List.eq_append_cons_of_mem h
  rw [List.append_assoc, cString_append hbefore, cString_append hbefore]
  rfl

/-- A mark inside the literal of a name. -/
theorem unquote_mark {name z y : Text} (h : unquote (z ++ (findOneMark ++ y)) = some name) :
    ∃ quote x front behind, skipWs z = quote :: x ∧
      unquoteLoop quote 0 false (x ++ (findOneMark ++ [quote])) = some (front ++ findOneMark, []) ∧
      name = cString (front ++ (findOneMark ++ behind)) ∧
      unquote (z ++ (findMark ++ y)) = some (cString (front ++ (findMark ++ behind))) := by
  obtain ⟨blanks, hblanks, hz⟩ := exists_skipWs z
  have hskip (rest : Text) (hne : skipWs z ≠ []) : skipWs (z ++ rest) = skipWs z ++ rest := by
    unfold skipWs
    rw [List.dropWhile_append, if_neg (by simpa [skipWs] using hne)]
  cases hx : skipWs z with
  | nil =>
    have hspaces : skipWs (z ++ (findOneMark ++ y)) = findOneMark ++ y := by
      rw [hz, hx, List.append_nil, skipWs_append hblanks]
      rfl
    unfold unquote at h
    rw [hspaces] at h
    cases h
  | cons quote x =>
    have hne : skipWs z ≠ [] := hx ▸ List.cons_ne_nil _ _
    unfold unquote at h
    rw [hskip _ hne, hx] at h
    simp only [List.cons_append] at h
    cases hquote : isQuote quote with
    | false =>
      rw [hquote] at h
      cases h
    | true =>
      rw [hquote] at h
      simp only [Bool.not_true, Bool.false_eq_true, if_false] at h
      obtain ⟨hfull, hshort⟩ := verbatim_mark hquote
      cases hloop : unquoteLoop quote 0 false (x ++ (findOneMark ++ y)) with
      | none =>
        rw [hloop] at h
        cases h
      | some r =>
        obtain ⟨s, after⟩ := r
        rw [hloop] at h
        dsimp only at h
        split_ifs at h with hafter
        have hlength : after.length ≤ y.length := by
          by_contra hlong
          have hparen : '(' :: y <:+ x ++ (findOneMark ++ y) :=
            ⟨x ++ findOneDot, by rw [List.append_assoc]; rfl⟩
          have hsuffix := List.suffix_of_suffix_length_le hparen (suffix_of_unquoteLoop hloop)
            (by rw [List.length_cons]; omega)
          exact absurd (List.dropWhile_eq_nil_iff.mp hafter '(' (hsuffix.subset (.head _))) (by decide)
        obtain ⟨front, behind, rfl, hrest, hagain⟩ := exists_of_unquoteLoop hquote hfull (by simp) hloop hlength
        refine ⟨quote, x, front, behind, rfl, ?_, (Option.some.inj h).symm, ?_⟩
        · have hclose : unquoteLoop quote 0 false [quote] = some ([], []) := by
            rw [unquoteLoop, if_pos rfl]
          have hthere := hagain "findOne(".toList [quote] _ hfull hclose
          rw [List.append_nil] at hthere
          exact hthere
        · have hthere := hagain "find(".toList y _ hshort hrest
          unfold unquote
          rw [hskip _ hne, hx]
          simp only [List.cons_append, hquote, Bool.not_true, Bool.false_eq_true, if_false]
          have hfind : x ++ (findMark ++ y) = x ++ '.' :: ("find(".toList ++ y) := rfl
          rw [hfind, hthere]
          exact if_pos hafter

theorem literalText_named {blanks space z : Text} (hblanks : ∀ c ∈ blanks, isSpace c = true)
    (hspace : ∀ c ∈ space, isSpace c = true) :
    literalText (blanks ++ ("db.getCollection".toList ++ space) ++ '(' :: z) = skipWs z := by
  have hstart : skipWs (blanks ++ ("db.getCollection".toList ++ space) ++ '(' :: z) =
      "db.getCollection".toList ++ (space ++ '(' :: z) := by
    rw [List.append_assoc, skipWs_append hblanks, List.append_assoc]
    rfl
  have hdrop : ("db.getCollection".toList ++ (space ++ '(' :: z)).drop 16 = space ++ '(' :: z := rfl
  unfold literalText
  rw [hstart, hdrop, skipWs_append hspace, skipWs_cons (by decide), List.drop_succ_cons, List.drop_zero]

theorem nulBefore_iff {before x front : Text} {quote : Char} (hx : literalText before = quote :: x)
    (hopen : unquoteLoop quote 0 false (x ++ (findOneMark ++ [quote])) = some (front ++ findOneMark, [])) :
    NulBefore before ↔ '\x00' ∈ front := by
  constructor
  · rintro ⟨quote', x', s, hx', hopen', hmem⟩
    obtain ⟨rfl, rfl⟩ := List.cons.inj (hx.symm.trans hx')
    rw [hopen] at hopen'
    obtain rfl : front ++ findOneMark = s := congrArg Prod.fst (Option.some.inj hopen')
    obtain hmem | hmem := List.mem_append.mp hmem
    · exact hmem
    · exact absurd hmem (by decide)
  · intro hmem
    exact ⟨quote, x, _, hx, hopen, List.mem_append_left _ hmem⟩

/-- The name changes with the mark, unless it ends in front of it. -/
theorem cString_mark_iff (front behind : Text) :
    cString (front ++ (findMark ++ behind)) = cString (front ++ (findOneMark ++ behind)) ↔ '\x00' ∈ front := by
  constructor
  · intro h
    by_contra hnot
    rw [cString_append hnot, cString_append hnot] at h
    have hmarks := List.append_cancel_left h
    have hfind : cString (findMark ++ behind) = findMark ++ cString behind := cString_append (by decide) _
    have hfindOne : cString (findOneMark ++ behind) = findOneMark ++ cString behind :=
      cString_append (by decide) _
    rw [hfind, hfindOne] at hmarks
    have hchars := congrArg (fun text : Text ↦ text[5]?) hmarks
    have hparen : '(' = 'O' := Option.some.inj hchars
    exact absurd hparen (by decide)
  · intro h
    rw [cString_of_mem h, cString_of_mem h]

theorem cString_mark_ne_nil {front behind : Text} (h : cString (front ++ (findOneMark ++ behind)) ≠ []) :
    cString (front ++ (findMark ++ behind)) ≠ [] := by
  by_cases hnul : '\x00' ∈ front
  · rwa [(cString_mark_iff front behind).mpr hnul]
  · rw [cString_append hnul]
    have hfind : cString (findMark ++ behind) = findMark ++ cString behind := cString_append (by decide) _
    rw [hfind]
    exact List.append_ne_nil_of_right_ne_nil _ (List.append_ne_nil_of_left_ne_nil (by decide) _)

/-- A mark in the head stands in the literal of the name, and the text without it is a head still. -/
theorem head_without_mark {name method head before rest : Text} (h : CallHead name method head)
    (hhead : head = before ++ (findOneMark ++ rest)) :
    ∃ name', CallHead name' method (before ++ (findMark ++ rest)) ∧ (name' = name ↔ NulBefore before) := by
  cases h with
  | @plain blanks call hblanks hname hparen hcall =>
    have hmem : '(' ∈ blanks ++ ("db.".toList ++ (name ++ '.' :: call)) := by
      rw [hhead]
      exact List.mem_append_right _ (List.mem_append_left _ (by decide))
    simp only [List.mem_append, List.mem_cons] at hmem
    obtain hmem | hmem | hmem | hmem | hmem := hmem
    · exact absurd (hblanks _ hmem) (by decide)
    · exact absurd hmem (by decide)
    · exact absurd hmem hparen
    · exact absurd hmem (by decide)
    · exact absurd hmem hcall.not_mem_paren
  | @named blanks space lit behind gap call hblanks hspace hlit hunquote hname hbehind hgap hcall =>
    have hsplit : (blanks ++ ("db.getCollection".toList ++ space)) ++
        '(' :: (lit ++ ')' :: (behind ++ '.' :: (gap ++ call))) = before ++ (findOneMark ++ rest) := by
      rw [← hhead]
      simp
    obtain hend | ⟨inner, hinner, -⟩ | ⟨z, hbefore, hbehindParen⟩ := paren_cases hsplit
    · have hlast := congrArg List.getLast? hend
      have hdot : (before ++ findOneDot).getLast? = some 'e' := List.getLast?_append_of_ne_nil _ (by decide)
      rw [hdot] at hlast
      have hmem : 'e' ∈ space ∨ 'n' = 'e' := by
        cases space with
        | nil =>
          rw [List.append_nil, List.getLast?_append_of_ne_nil _ (by decide)] at hlast
          exact .inr (Option.some.inj hlast)
        | cons c space =>
          rw [List.getLast?_append_of_ne_nil _ (by simp),
            List.getLast?_append_of_ne_nil _ (List.cons_ne_nil c space)] at hlast
          exact .inl (List.mem_of_getLast? hlast)
      obtain hmem | hsame := hmem
      · exact absurd (hspace _ hmem) (by decide)
      · exact absurd hsame (by decide)
    · have hmem : '(' ∈ blanks ++ ("db.getCollection".toList ++ space) := by
        rw [hinner]
        exact List.mem_append_right _ (List.mem_append_left _ (by decide))
      simp only [List.mem_append] at hmem
      obtain hmem | hmem | hmem := hmem
      · exact absurd (hblanks _ hmem) (by decide)
      · exact absurd hmem (by decide)
      · exact absurd (hspace _ hmem) (by decide)
    · obtain ⟨y, rfl, hrest⟩ | ⟨inner, -, hinner⟩ :=
        append_cons_cases (by decide : ')' ∉ findOneMark) hbehindParen
      · obtain ⟨quote, x, front, said, hx, hopen, rfl, hshort⟩ := unquote_mark hunquote
        have hliteral : literalText before = quote :: x := by
          rw [hbefore, literalText_named hblanks hspace, hx]
        refine ⟨_, ?_, (cString_mark_iff front said).trans (nulBefore_iff hliteral hopen).symm⟩
        have htext : before ++ (findMark ++ rest) = blanks ++ ("db.getCollection".toList ++ (space ++
            '(' :: (z ++ (findMark ++ y) ++ ')' :: (behind ++ '.' :: (gap ++ call))))) := by
          rw [hbefore, hrest]
          simp
        rw [htext]
        exact .named hblanks hspace (Inside.drop_mark hlit) hshort (cString_mark_ne_nil hname) hbehind hgap hcall
      · have hmem : '(' ∈ behind ++ '.' :: (gap ++ call) := by
          rw [hinner]
          exact List.mem_append_right _ (List.mem_append_left _ (by decide))
        simp only [List.mem_append, List.mem_cons] at hmem
        obtain hmem | hmem | hmem | hmem := hmem
        · exact absurd (hbehind _ hmem) (by decide)
        · exact absurd hmem (by decide)
        · exact absurd (hgap _ hmem) (by decide)
        · exact absurd hmem hcall.not_mem_paren

/-! ## The rewritten query -/

/-- `findOne` is written where the rewriting looks for it. -/
theorem find_of_findOne {name method before : Text} (h : CallHead name method (before ++ findOneDot)) :
    CallHead name "find".toList (before ++ ".find".toList) ∧ method = "findOne".toList := by
  have hnil : ∀ c ∈ ([] : Text), isSpace c = true := nofun
  have hfind : MethodText "find".toList "find".toList := ⟨⟨by decide, by decide⟩, [], hnil, rfl⟩
  generalize hhead : before ++ findOneDot = head at h
  cases h with
  | @plain blanks call hblanks hname hparen hcall =>
    have hsplit : (blanks ++ ("db.".toList ++ name)) ++ '.' :: ([] ++ call) = before ++ findOneDot := by
      rw [hhead]
      simp
    obtain ⟨rfl, -, -, hmethod⟩ := eq_of_dot hnil hcall hsplit
    have htext : blanks ++ ("db.".toList ++ name) ++ ".find".toList =
        blanks ++ ("db.".toList ++ (name ++ '.' :: "find".toList)) := by
      rw [List.append_assoc, List.append_assoc]
      rfl
    rw [htext]
    exact ⟨.plain hblanks hname hparen hfind, hmethod⟩
  | @named blanks space lit behind gap call hblanks hspace hlit hunquote hname hbehind hgap hcall =>
    have hsplit : (blanks ++ ("db.getCollection".toList ++ (space ++ '(' :: (lit ++ ')' :: behind)))) ++
        '.' :: (gap ++ call) = before ++ findOneDot := by
      rw [hhead]
      simp
    obtain ⟨rfl, -, -, hmethod⟩ := eq_of_dot hgap hcall hsplit
    have htext : blanks ++ ("db.getCollection".toList ++ (space ++ '(' :: (lit ++ ')' :: behind))) ++
        ".find".toList = blanks ++ ("db.getCollection".toList ++ (space ++
          '(' :: (lit ++ ')' :: (behind ++ '.' :: ([] ++ "find".toList))))) := by
      simp
    rw [htext]
    exact ⟨.named hblanks hspace hlit hunquote hname hbehind hnil hfind, hmethod⟩

/-- The query with its mark rewritten, and the calls behind it. -/
def rewritten (before after : Text) : Text :=
  before ++ (findMark ++ (after ++ (".limit(1)".toList ++ explainCallText)))

theorem rewritten_eq {p : Parts} (hstop : p.stop = []) {before after : Text}
    (htext : p.text = before ++ (findMark ++ after)) : rewritten before after = (planned p).text := by
  unfold rewritten
  rw [text_planned hstop, htext]
  simp only [List.append_assoc]

/-- Another query than a `find` takes no limit behind it. -/
theorem rewritten_iff {p : Parts} (hcut : p.Cut) (hstop : p.stop = []) {before after : Text}
    (htext : p.text = before ++ (findMark ++ after)) (hmethod : p.method ∈ queryMethods) {out : Query}
    (hexplain : out.explain = none) :
    mongoQueryParse (rewritten before after) = .ok { out with explain := some "queryPlanner".toList } ↔
      p.method = "find".toList ∧ ∃ out', p.readFind = .ok out' ∧ { out' with limit := 1 } = out := by
  rw [rewritten_eq hstop htext]
  by_cases hfind : p.method = "find".toList
  · rw [planned_find_iff hcut hfind hexplain]
    exact (and_iff_right hfind).symm
  · have hother : p.method = "findOne".toList ∨ p.method = "aggregate".toList := by
      unfold queryMethods at hmethod
      rw [List.mem_cons, List.mem_cons, List.mem_singleton] at hmethod
      exact hmethod.resolve_left hfind
    constructor
    · intro h
      exact absurd h (planned_ne_ok hcut hother _)
    · intro h
      exact absurd h.1 hfind

section

variable {p : Parts} (hcut : p.Cut) (hstop : p.stop = []) {before after : Text}
  (htext : p.text = before ++ (findOneMark ++ after)) {out : Query} (hread : mongoQueryParse p.text = .ok out)
  (hexplain : out.explain = none)

include hcut hstop

include htext hread hexplain in
/-- The mark is the call itself. -/
theorem rewritten_call (hhead : p.head = before ++ findOneDot) :
    mongoQueryParse (rewritten before after) = .ok { out with explain := some "queryPlanner".toList } := by
  obtain ⟨hfind, hmethod⟩ := find_of_findOne (hhead ▸ hcut.head)
  let p' : Parts := { p with head := before ++ ".find".toList, method := "find".toList }
  have hcut' : p'.Cut := ⟨hfind, hcut.body, hcut.calls, hcut.blanks, hcut.stop⟩
  have htext' : p'.text = before ++ (findMark ++ after) := by
    have hafter : after = p.body ++ ')' :: (callsText p.calls ++ (p.blanks ++ p.stop)) := by
      unfold Parts.text at htext
      rw [hhead, List.append_assoc] at htext
      have hrest := List.append_cancel_left htext
      exact (List.cons.inj (List.append_cancel_left (hrest : findOneDot ++ _ = findOneDot ++ _))).2.symm
    change before ++ ".find".toList ++ '(' :: (p.body ++ ')' :: (callsText p.calls ++ (p.blanks ++ p.stop))) = _
    rw [← hafter, List.append_assoc]
    rfl
  have hstop' : p'.stop = [] := hstop
  rw [rewritten_eq hstop' htext', planned_find_iff hcut' rfl hexplain]
  rw [mongoQueryParse_findOne hcut hmethod] at hread
  unfold Parts.readFindOne at hread
  cases hargs : readArgs 2 p.body with
  | none =>
    rw [hargs] at hread
    cases hread
  | some args =>
    rw [hargs] at hread
    dsimp only at hread
    by_cases hcalls : p.calls = []
    · rw [if_neg (not_not.mpr hcalls)] at hread
      refine ⟨findQuery (some p.name) args, readFind_eq_ok_iff.mpr ⟨args, hargs, ?_⟩, Except.ok.inj hread⟩
      change p.calls.foldlM _ _ = _
      rw [hcalls]
      rfl
    · rw [if_pos hcalls] at hread
      cases hread

include hread hexplain in
/-- The mark stands in the collection's name. -/
theorem rewritten_head_iff {rest : Text} (hhead : p.head = before ++ (findOneMark ++ rest))
    (hafter : after = rest ++ '(' :: (p.body ++ ')' :: (callsText p.calls ++ p.blanks)))
    (hmethod : p.method ∈ queryMethods) :
    mongoQueryParse (rewritten before after) = .ok { out with explain := some "queryPlanner".toList } ↔
      p.method = "find".toList ∧ out.limit = 1 ∧ NulBefore before := by
  obtain ⟨name', hhead', hname⟩ := head_without_mark hcut.head hhead
  let p' : Parts := { p with name := name', head := before ++ (findMark ++ rest) }
  have hcut' : p'.Cut := ⟨hhead', hcut.body, hcut.calls, hcut.blanks, hcut.stop⟩
  have htext' : p'.text = before ++ (findMark ++ after) := by
    change before ++ (findMark ++ rest) ++ '(' :: (p.body ++ ')' :: (callsText p.calls ++ (p.blanks ++ p.stop))) = _
    rw [hafter, hstop]
    simp
  rw [rewritten_iff hcut' hstop htext' hmethod hexplain]
  change p.method = _ ∧ _ ↔ _
  refine and_congr_right fun hfind ↦ ?_
  rw [mongoQueryParse_find hcut hfind] at hread
  obtain ⟨args, hargs, hcalls⟩ := readFind_eq_ok_iff.mp hread
  have hcollection : out.collection = some p.name := (calls_keep hcalls).2.1
  have hagain : p'.readFind = .ok { out with collection := some name' } := by
    have hmap := calls_collection false p.calls (findQuery (some p.name) args) (some name')
    rw [hcalls] at hmap
    exact readFind_eq_ok_iff.mpr ⟨args, hargs, hmap⟩
  rw [hagain, ← hname]
  constructor
  · rintro ⟨out', hout', hsame⟩
    cases hout'
    have hname' := congrArg Query.collection hsame
    have hlimit := congrArg Query.limit hsame
    rw [hcollection] at hname'
    exact ⟨hlimit.symm, Option.some.inj hname'⟩
  · rintro ⟨hlimit, rfl⟩
    refine ⟨_, rfl, ?_⟩
    rw [← hcollection, ← hlimit]

include hread hexplain in
/-- The mark stands in the arguments. -/
theorem rewritten_body {x y : Text} (hbody : p.body = x ++ (findOneMark ++ y))
    (hbefore : before = p.head ++ '(' :: x) (hafter : after = y ++ ')' :: (callsText p.calls ++ p.blanks))
    (hmethod : p.method ∈ queryMethods) :
    mongoQueryParse (rewritten before after) ≠ .ok { out with explain := some "queryPlanner".toList } := by
  let p' : Parts := { p with body := x ++ (findMark ++ y) }
  have hcut' : p'.Cut := ⟨hcut.head, Inside.drop_mark (hbody ▸ hcut.body), hcut.calls, hcut.blanks, hcut.stop⟩
  have hstop' : p'.stop = [] := hstop
  have htext' : p'.text = before ++ (findMark ++ after) := by
    change p.head ++ '(' :: (x ++ (findMark ++ y) ++ ')' :: (callsText p.calls ++ (p.blanks ++ p.stop))) = _
    rw [hbefore, hafter, hstop]
    simp
  intro h
  obtain ⟨hfind, out', hout', hsame⟩ := (rewritten_iff hcut' hstop' htext' hmethod hexplain).mp h
  have hfilter : out'.filter = out.filter := by rw [← hsame]
  have hprojection : out'.projection = out.projection := by rw [← hsame]
  rw [mongoQueryParse_find hcut hfind] at hread
  obtain ⟨args, hargs, hcalls⟩ := readFind_eq_ok_iff.mp hread
  obtain ⟨args', hargs', hcalls'⟩ := readFind_eq_ok_iff.mp hout'
  have hkeep := calls_keep hcalls
  have hkeep' := calls_keep hcalls'
  -- the filter and the projection hold the letters of the arguments, and the mark had one more of them
  have hletters := letters_findQuery hargs (some p.name)
  have hletters' := letters_findQuery hargs' (some p'.name)
  rw [← hkeep.2.2.1, ← hkeep.2.2.2, hbody, letters_append, letters_append] at hletters
  rw [← hkeep'.2.2.1, ← hkeep'.2.2.2, hfilter, hprojection] at hletters'
  change _ = letters (x ++ (findMark ++ y)) at hletters'
  rw [letters_append, letters_append] at hletters'
  have hone : letters findOneMark = 1 := by decide
  have hnone : letters findMark = 0 := by decide
  omega

include hread hexplain in
/-- The mark stands in a chained call. -/
theorem rewritten_chain_iff {done more : List Chained} {call : Chained} {x y : Text}
    (hcalls : p.calls = done ++ call :: more) (hmark : call.text = x ++ (findOneMark ++ y))
    (hbefore : before = upTo p done ++ x) (hafter : after = y ++ (callsText more ++ p.blanks))
    (hmethod : p.method ∈ queryMethods) :
    mongoQueryParse (rewritten before after) = .ok { out with explain := some "queryPlanner".toList } ↔
      p.method = "find".toList ∧ out.limit = 1 ∧ ∃ later ∈ more, later.name = "sort".toList := by
  have hfind : p.method = "find".toList := by
    unfold queryMethods at hmethod
    rw [List.mem_cons, List.mem_cons, List.mem_singleton] at hmethod
    obtain hmethod | hmethod | hmethod := hmethod
    · exact hmethod
    · rw [mongoQueryParse_findOne hcut hmethod] at hread
      unfold Parts.readFindOne at hread
      cases hargs : readArgs 2 p.body with
      | none =>
        rw [hargs] at hread
        cases hread
      | some args =>
        rw [hargs, hcalls] at hread
        dsimp only at hread
        rw [if_pos (by simp)] at hread
        cases hread
    · rw [mongoQueryParse_aggregate hcut hmethod] at hread
      unfold Parts.readAggregate at hread
      cases hargs : readArgs 1 p.body with
      | none =>
        rw [hargs] at hread
        cases hread
      | some args =>
        rw [hargs, hcalls] at hread
        dsimp only at hread
        obtain ⟨first, second, -, hset, -⟩ := calls_split.mp hread
        have hname := (sets_of_runCall hset).2.2 rfl
        exact absurd hname ((explain_of_calls hread hexplain).2 call (by simp))
  have hcall : call.Cut := hcut.calls call (by rw [hcalls]; simp)
  rw [mongoQueryParse_find hcut hfind] at hread
  obtain ⟨args, hargs, hrun⟩ := readFind_eq_ok_iff.mp hread
  rw [hcalls] at hrun
  obtain ⟨first, second, hdone, hset, hmore⟩ := calls_split.mp hrun
  have hnotExplain := (explain_of_calls hrun hexplain).2 call (by simp)
  obtain ⟨hsets, hfirst, -⟩ := sets_of_runCall hset
  have hname : call.name ≠ "findOne".toList := by
    cases hsets with
    | explain hname => exact absurd hname hnotExplain
    | sort hname => rw [hname]; decide
    | limit hname _ => rw [hname]; decide
    | skip hname _ => rw [hname]; decide
  obtain ⟨x', y', harg, hx, hy⟩ := arg_of_text hcall hname hmark
  have hone : letters findOneMark = 1 := by decide
  have hnone : letters findMark = 0 := by decide
  have hletters : letters (trim call.arg) = letters x' + (1 + letters y') := by
    rw [letters_trim, harg, letters_append, letters_append, hone]
  -- only a sort holds letters in its argument
  have hsort : call.name = "sort".toList ∧ second = { first with sort := some (trim call.arg) } := by
    cases hsets with
    | explain hname => exact absurd hname hnotExplain
    | sort hname => exact ⟨hname, rfl⟩
    | limit hname hnumber =>
      have hzero := letters_strtol hnumber
      omega
    | skip hname hnumber =>
      have hzero := letters_strtol hnumber
      omega
  let call' : Chained := { call with arg := x' ++ (findMark ++ y') }
  have hletters' : letters (trim call'.arg) = letters x' + letters y' := by
    rw [letters_trim, letters_append, letters_append, hnone, Nat.zero_add]
  have hset' : runCall false first call' = .ok { first with sort := some (trim call'.arg) } := by
    unfold runCall chainCall
    rw [if_neg (by simp [hfirst]), if_neg (by rw [hsort.1]; decide), if_neg Bool.false_ne_true, if_pos hsort.1]
  let p' : Parts := { p with calls := done ++ call' :: more }
  have hcut' : p'.Cut := by
    refine ⟨hcut.head, hcut.body, fun c hc ↦ ?_, hcut.blanks, hcut.stop⟩
    obtain hc | hc := List.mem_append.mp hc
    · exact hcut.calls c (by rw [hcalls]; exact List.mem_append_left _ hc)
    · obtain rfl | hc := List.mem_cons.mp hc
      · exact ⟨hcall.lead, hcall.gap, hcall.name, hcall.space, Inside.drop_mark (harg ▸ hcall.arg)⟩
      · exact hcut.calls c (by rw [hcalls]; exact List.mem_append_right _ (.tail _ hc))
  have hstop' : p'.stop = [] := hstop
  have htext' : p'.text = before ++ (findMark ++ after) := by
    have hcall' : call'.text = x ++ (findMark ++ y) := by
      rw [hx, hy]
      change call.lead ++ '.' :: (call.gap ++ (call.name ++ (call.space ++
        '(' :: (x' ++ (findMark ++ y') ++ [')'])))) = _
      simp
    have hwhole : callsText (done ++ call' :: more) = callsText done ++ (call'.text ++ callsText more) := by
      unfold callsText
      rw [List.flatMap_append, List.flatMap_cons]
    change p.head ++ '(' :: (p.body ++ ')' :: (callsText (done ++ call' :: more) ++ (p.blanks ++ p.stop))) = _
    rw [hwhole, hcall', hbefore, hafter, hstop]
    unfold upTo
    simp
  rw [rewritten_iff hcut' hstop' htext' hmethod hexplain]
  refine and_congr_right fun _ ↦ ?_
  rw [hsort.2, calls_sort] at hmore
  obtain ⟨last, hlast, hout⟩ : ∃ last, more.foldlM (runCall false) first = .ok last ∧
      (if ∃ later ∈ more, later.name = "sort".toList then last
        else { last with sort := some (trim call.arg) }) = out := by
    cases hmores : more.foldlM (runCall false) first with
    | error failure =>
      rw [hmores] at hmore
      cases hmore
    | ok last =>
      rw [hmores] at hmore
      exact ⟨last, rfl, Except.ok.inj hmore⟩
  have hread' : p'.readFind = .ok (if ∃ later ∈ more, later.name = "sort".toList then last
      else { last with sort := some (trim call'.arg) }) := by
    refine readFind_eq_ok_iff.mpr ⟨args, hargs, calls_split.mpr ⟨first, _, hdone, hset', ?_⟩⟩
    rw [calls_sort, hlast]
    rfl
  rw [hread']
  by_cases hlater : ∃ later ∈ more, later.name = "sort".toList
  · rw [if_pos hlater] at hout ⊢
    constructor
    · rintro ⟨out', hout', hsame⟩
      refine ⟨?_, hlater⟩
      rw [← hsame]
    · rintro ⟨hlimit, -⟩
      refine ⟨last, rfl, ?_⟩
      rw [hout, ← hlimit]
  · rw [if_neg hlater] at hout ⊢
    constructor
    · rintro ⟨out', hout', hsame⟩
      cases hout'
      have hsorts := congrArg Query.sort (hsame.trans hout.symm)
      have hsame' : letters (trim call'.arg) = letters (trim call.arg) := congrArg letters (Option.some.inj hsorts)
      omega
    · rintro ⟨-, hthere⟩
      exact absurd hthere hlater

end

/-! ## Which plans are asked for -/

/-- The query with its plan asked for. -/
def asked (p : Parts) : Parts := { p with calls := p.calls ++ [explainCall p.blanks], blanks := [], stop := [] }

theorem text_asked {p : Parts} (hstop : p.stop = []) : (asked p).text = p.text ++ explainCallText := by
  have hcalls : callsText (p.calls ++ [explainCall p.blanks]) =
      callsText p.calls ++ (p.blanks ++ explainCallText) := by
    unfold callsText explainCall explainCallText Chained.text
    simp
  unfold asked Parts.text
  simp only [hcalls, hstop]
  simp

theorem cut_asked {p : Parts} (hcut : p.Cut) : (asked p).Cut := by
  refine ⟨hcut.head, hcut.body, ?_, nofun, .inl rfl⟩
  intro call hcall
  obtain hcall | hcall := List.mem_append.mp hcall
  · exact hcut.calls call hcall
  · rw [List.mem_singleton] at hcall
    exact hcall ▸ cut_explainCall hcut.blanks

theorem calls_asked {explainOnly : Bool} {calls : List Chained} {out out' : Query} (lead : Text)
    (h : calls.foldlM (runCall explainOnly) out = .ok out') (hexplain : out'.explain = none) :
    (calls ++ [explainCall lead]).foldlM (runCall explainOnly) out =
      .ok { out' with explain := some "queryPlanner".toList } :=
  calls_split.mpr ⟨out', _, h, runCall_explain explainOnly lead hexplain, rfl⟩

/-- A query without the mark is one that takes a call of `explain`, or a `findOne`. -/
theorem asked_iff {p : Parts} (hcut : p.Cut) (hstop : p.stop = []) (hmethod : p.method ∈ queryMethods) {out : Query}
    (hread : mongoQueryParse p.text = .ok out) (hexplain : out.explain = none) :
    mongoQueryParse (p.text ++ explainCallText) = .ok { out with explain := some "queryPlanner".toList } ↔
      p.method ≠ "findOne".toList := by
  rw [← text_asked hstop]
  have hcut' := cut_asked hcut
  unfold queryMethods at hmethod
  rw [List.mem_cons, List.mem_cons, List.mem_singleton] at hmethod
  obtain hmethod | hmethod | hmethod := hmethod
  · rw [mongoQueryParse_find hcut hmethod] at hread
    obtain ⟨args, hargs, hcalls⟩ := readFind_eq_ok_iff.mp hread
    have hasked : (asked p).readFind = .ok { out with explain := some "queryPlanner".toList } :=
      readFind_eq_ok_iff.mpr ⟨args, hargs, calls_asked p.blanks hcalls hexplain⟩
    rw [mongoQueryParse_find hcut' hmethod, hasked, hmethod]
    exact iff_of_true rfl (by decide)
  · refine iff_of_false (fun h ↦ ?_) (not_not.mpr hmethod)
    rw [mongoQueryParse_findOne hcut' hmethod] at h
    unfold Parts.readFindOne at h
    cases hargs : readArgs 2 (asked p).body with
    | none =>
      rw [hargs] at h
      cases h
    | some args =>
      rw [hargs] at h
      dsimp only at h
      rw [if_pos (by simp [asked])] at h
      cases h
  · rw [mongoQueryParse_aggregate hcut hmethod] at hread
    rw [mongoQueryParse_aggregate hcut' hmethod, hmethod]
    unfold Parts.readAggregate at hread ⊢
    cases hargs : readArgs 1 p.body with
    | none =>
      rw [hargs] at hread
      cases hread
    | some args =>
      have hargs' : readArgs 1 (asked p).body = some args := hargs
      rw [hargs] at hread
      rw [hargs']
      exact iff_of_true (calls_asked p.blanks hread hexplain) (by decide)

/-- The first mark of a statement stands in its collection's name, behind a NUL. -/
def HiddenInName (p : Parts) (before : Text) : Prop := before ++ findOneMark <+: p.head ∧ NulBefore before

/-- The first mark of a statement stands in a sort that a later sort replaces. -/
def HiddenInSort (p : Parts) (before : Text) : Prop := ∃ done call more, p.calls = done ++ call :: more ∧
  upTo p done <+: before ∧ before ++ findOneMark <+: upTo p (done ++ [call]) ∧
    ∃ later ∈ more, later.name = "sort".toList

/-- The rewriting finds the call that it looks for, or nothing that the driver keeps. -/
def RewritesCall (p : Parts) (out : Query) : Prop :=
  match cutFirst findOneMark p.text with
  | none => p.method ≠ "findOne".toList
  | some (before, _) => p.head = before ++ findOneDot ∨
      p.method = "find".toList ∧ out.limit = 1 ∧ (HiddenInName p before ∨ HiddenInSort p before)

/-- What is rewritten does not end like an explained query already. -/
def ExplainsQuery (q : Text) (out : Query) : Prop :=
  let t := dropSemicolon (jsTrim q)
  endsExplained t = false ∧ ∃ p : Parts, p.Cut ∧ p.stop = [] ∧ utf8 t = p.text ∧ RewritesCall p out

/-- The driver reads the statement for the plan as the query with its plan asked for. -/
def PlanReads (q : Text) (out : Query) : Prop := ∃ e, mongoExplainStatement q = some e ∧
  mongoQueryParse (utf8 e) = .ok { out with explain := some "queryPlanner".toList }

theorem upTo_concat (p : Parts) (done : List Chained) (call : Chained) :
    upTo p (done ++ [call]) = upTo p done ++ call.text := by
  unfold upTo callsText
  rw [List.flatMap_append, List.flatMap_singleton]
  simp

theorem text_eq_upTo {p : Parts} (hstop : p.stop = []) {done more : List Chained} {call : Chained}
    (hcalls : p.calls = done ++ call :: more) :
    p.text = upTo p (done ++ [call]) ++ (callsText more ++ p.blanks) := by
  have hsplit : callsText p.calls = callsText (done ++ [call]) ++ callsText more := by
    unfold callsText
    rw [hcalls, List.append_cons, List.flatMap_append]
  unfold Parts.text upTo
  rw [hsplit, hstop]
  simp

theorem explainText_iff {p : Parts} (hcut : p.Cut) (hstop : p.stop = []) (hmethod : p.method ∈ queryMethods)
    {out : Query} (hread : mongoQueryParse p.text = .ok out) (hexplain : out.explain = none) :
    mongoQueryParse (explainText p.text) = .ok { out with explain := some "queryPlanner".toList } ↔
      endsExplained p.text = false ∧ RewritesCall p out := by
  unfold explainText RewritesCall
  cases hends : endsExplained p.text with
  | true =>
    refine iff_of_false (fun h ↦ ?_) nofun
    rw [if_pos rfl, hread] at h
    have hsame := congrArg Query.explain (Except.ok.inj h)
    rw [hexplain] at hsame
    cases hsame
  | false =>
    rw [if_neg Bool.false_ne_true, eq_self_iff_true, true_and]
    cases hmark : cutFirst findOneMark p.text with
    | none => exact asked_iff hcut hstop hmethod hread hexplain
    | some cut =>
      obtain ⟨before, after⟩ := cut
      have htext := eq_append_of_cutFirst hmark
      change mongoQueryParse (rewritten before after) = _ ↔ _
      constructor
      · intro h
        cases stands hcut hstop htext with
        | call hhead => exact .inl hhead
        | @head rest hhead hafter =>
          obtain ⟨hfind, hlimit, hnul⟩ :=
            (rewritten_head_iff hcut hstop hread hexplain hhead hafter hmethod).mp h
          exact .inr ⟨hfind, hlimit, .inl ⟨⟨rest, by rw [hhead, List.append_assoc]⟩, hnul⟩⟩
        | body hbody hbefore hafter =>
          exact absurd h (rewritten_body hcut hstop hread hexplain hbody hbefore hafter hmethod)
        | @chain done more call x y hcalls hmark hbefore hafter =>
          obtain ⟨hfind, hlimit, hlater⟩ :=
            (rewritten_chain_iff hcut hstop hread hexplain hcalls hmark hbefore hafter hmethod).mp h
          have hwithin : before ++ findOneMark <+: upTo p (done ++ [call]) :=
            ⟨y, by rw [upTo_concat, hmark, hbefore]; simp⟩
          exact .inr ⟨hfind, hlimit, .inr ⟨done, call, more, hcalls, ⟨x, hbefore.symm⟩, hwithin, hlater⟩⟩
      · rintro (hhead | ⟨hfind, hlimit, ⟨⟨rest, hhead⟩, hnul⟩ | ⟨done, call, more, hcalls, ⟨x, hx⟩, ⟨y, hy⟩, hlater⟩⟩)
        · exact rewritten_call hcut hstop htext hread hexplain hhead
        · rw [List.append_assoc] at hhead
          have hafter : after = rest ++ '(' :: (p.body ++ ')' :: (callsText p.calls ++ p.blanks)) := by
            unfold Parts.text at htext
            rw [← hhead, hstop, List.append_nil, List.append_assoc, List.append_assoc] at htext
            exact (List.append_cancel_left (List.append_cancel_left htext)).symm
          exact (rewritten_head_iff hcut hstop hread hexplain hhead.symm hafter hmethod).mpr ⟨hfind, hlimit, hnul⟩
        · have hmark : call.text = x ++ (findOneMark ++ y) := by
            rw [upTo_concat, ← hx, List.append_assoc, List.append_assoc] at hy
            exact (List.append_cancel_left hy).symm
          have hafter : after = y ++ (callsText more ++ p.blanks) := by
            rw [text_eq_upTo hstop hcalls, ← hy, List.append_assoc, List.append_assoc] at htext
            exact (List.append_cancel_left (List.append_cancel_left htext)).symm
          exact (rewritten_chain_iff hcut hstop hread hexplain hcalls hmark hx.symm hafter hmethod).mpr
            ⟨hfind, hlimit, hlater⟩

/-- What stands in front of the call and behind its chain does not matter. -/
theorem read_of_parts {p p' : Parts} (hcut : p.Cut) (hcut' : p'.Cut) (hname : p'.name = p.name)
    (hmethod' : p'.method = p.method) (hbody : p'.body = p.body) (hcalls : p'.calls = p.calls)
    (hmethod : p.method ∈ queryMethods) : mongoQueryParse p'.text = mongoQueryParse p.text := by
  unfold queryMethods at hmethod
  rw [List.mem_cons, List.mem_cons, List.mem_singleton] at hmethod
  obtain hmethod | hmethod | hmethod := hmethod
  · rw [mongoQueryParse_find hcut hmethod, mongoQueryParse_find hcut' (hmethod'.trans hmethod)]
    unfold Parts.readFind
    rw [hname, hbody, hcalls]
  · rw [mongoQueryParse_findOne hcut hmethod, mongoQueryParse_findOne hcut' (hmethod'.trans hmethod)]
    unfold Parts.readFindOne
    rw [hname, hbody, hcalls]
  · rw [mongoQueryParse_aggregate hcut hmethod, mongoQueryParse_aggregate hcut' (hmethod'.trans hmethod)]
    unfold Parts.readAggregate
    rw [hname, hbody, hcalls]

/-- The plan of an accepted query is asked for just if the rewriting finds its call. -/
theorem planReads_iff {q : Text} {out : Query} (hread : mongoQueryParse (utf8 q) = .ok out)
    (hop : out.op = .find ∨ out.op = .aggregate) (hexplain : out.explain = none) (hends : EndsWithChain q) :
    PlanReads q out ↔ ExplainsQuery q out := by
  obtain ⟨p, hcut, htext, hmethod⟩ := parts_of_mongoQueryParse hread hop
  obtain ⟨p', hcut', hstop', htext', hname, hmethod', hbody, hcalls, hdb⟩ := exists_trimmed hcut htext hends
  have hread' : mongoQueryParse p'.text = .ok out := by
    rw [read_of_parts hcut hcut' hname hmethod' hbody hcalls hmethod, ← htext, hread]
  unfold PlanReads ExplainsQuery mongoExplainStatement
  dsimp only
  rw [if_pos hdb]
  simp only [Option.some.injEq, exists_eq_left']
  rw [← explainText_utf8, ← endsExplained_utf8, htext']
  constructor
  · intro h
    obtain ⟨hnot, hkeeps⟩ := (explainText_iff hcut' hstop' (hmethod' ▸ hmethod) hread' hexplain).mp h
    exact ⟨hnot, p', hcut', hstop', rfl, hkeeps⟩
  · rintro ⟨hnot, p'', hcut'', hstop'', hsame, hkeeps⟩
    have hmethod'' : p''.method = p'.method := by
      have hcall := hcut''.parseCall
      rw [← hsame, hcut'.parseCall] at hcall
      exact (congrArg Call.method (Except.ok.inj hcall)).symm
    rw [hsame] at hread' hnot ⊢
    exact (explainText_iff hcut'' hstop'' (hmethod'' ▸ hmethod' ▸ hmethod) hread' hexplain).mpr ⟨hnot, hkeeps⟩

end Squaero.Front
