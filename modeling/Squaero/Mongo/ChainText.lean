import Squaero.Mongo.CallText

/-!
# Chained calls

The chain behind a query as a list of calls. The parser reads the calls of a chain from left to right, so an
accepted chain is a list of calls that run, and a chain goes on where another call is written behind it.
-/

namespace Squaero.Mongo

open Squaero.Lib

/-- One chained call: blanks, a dot, blanks, the name, blanks and the argument in parentheses. -/
structure Chained where
  lead : Text
  gap : Text
  name : Text
  space : Text
  arg : Text

namespace Chained

def text (call : Chained) : Text :=
  call.lead ++ '.' :: (call.gap ++ (call.name ++ (call.space ++ '(' :: (call.arg ++ [')']))))

/-- The parser cuts the call as it is written. -/
structure Cut (call : Chained) : Prop where
  lead : ∀ c ∈ call.lead, isSpace c = true
  gap : ∀ c ∈ call.gap, isSpace c = true
  name : IsMethod call.name
  space : ∀ c ∈ call.space, isSpace c = true
  arg : Inside call.arg

end Chained

def callsText (calls : List Chained) : Text := calls.flatMap Chained.text

theorem callsText_cons (call : Chained) (calls : List Chained) (rest : Text) :
    callsText (call :: calls) ++ rest = call.text ++ (callsText calls ++ rest) := by
  unfold callsText
  rw [List.flatMap_cons, List.append_assoc]

theorem Chained.text_length_pos (call : Chained) : 0 < call.text.length := by
  unfold Chained.text
  rw [List.length_append, List.length_cons]
  omega

/-- What one round of `parse_chain` does with its call. -/
def runCall (explainOnly : Bool) (out : Query) (call : Chained) : Parse Query :=
  if out.explain.isSome then syntaxError "explain() must be the last call of the query"
  else chainCall explainOnly call.name (trim call.arg) out

/-- Where the parser stops reading a command. -/
def Stop (text : Text) : Prop := text = [] ∨ text.head? = some ';'

theorem skipWs_stop {blanks stop : Text} (hblanks : ∀ c ∈ blanks, isSpace c = true) (hstop : Stop stop) :
    skipWs (blanks ++ stop) = stop := by
  rw [skipWs_append hblanks]
  obtain rfl | hhead := hstop
  · rfl
  · obtain ⟨rest, rfl⟩ := List.head?_eq_some_iff.mp hhead
    exact skipWs_cons (by decide) rest

theorem parseChain_stop (explainOnly : Bool) {fuel : ℕ} {blanks stop : Text}
    (hblanks : ∀ c ∈ blanks, isSpace c = true) (hstop : Stop stop) (out : Query) :
    parseChain explainOnly fuel (blanks ++ stop) out = .ok out := by
  cases fuel with
  | zero => rfl
  | succ fuel =>
    rw [parseChain]
    simp only [skipWs_stop hblanks hstop]
    exact if_pos hstop

section

variable {call : Chained} (hcut : call.Cut)

include hcut

theorem Chained.Cut.skip_lead (rest : Text) : skipWs (call.text ++ rest) =
    '.' :: (call.gap ++ (call.name ++ (call.space ++ '(' :: (call.arg ++ ')' :: rest)))) := by
  have htext : call.text ++ rest = call.lead ++
      '.' :: (call.gap ++ (call.name ++ (call.space ++ '(' :: (call.arg ++ ')' :: rest)))) := by
    unfold Chained.text
    simp
  rw [htext, skipWs_append hcut.lead, skipWs_cons (by decide)]

theorem Chained.Cut.name_parts (rest : Text) :
    let p := skipWs (call.gap ++ (call.name ++ (call.space ++ '(' :: rest)))
    p.takeWhile Char.isAlpha = call.name ∧ skipWs (p.dropWhile Char.isAlpha) = '(' :: rest := by
  have hstart : skipWs (call.gap ++ (call.name ++ (call.space ++ '(' :: rest))) =
      call.name ++ (call.space ++ '(' :: rest) := by
    rw [skipWs_append hcut.gap, skipWs_method hcut.name]
  have hother : ∀ c, (call.space ++ '(' :: rest).head? = some c → c.isAlpha = false := by
    intro c hc
    cases hspace : call.space with
    | nil =>
      rw [hspace] at hc
      cases hc
      decide
    | cons d more =>
      rw [hspace] at hc
      cases hc
      have hblank := hcut.space c (hspace ▸ .head _)
      by_contra halpha
      have hword := isWordChar_of_isSpace hblank
      simp [isWordChar, halpha] at hword
  have htake : (call.space ++ '(' :: rest).takeWhile Char.isAlpha = [] ∧
      (call.space ++ '(' :: rest).dropWhile Char.isAlpha = call.space ++ '(' :: rest := by
    cases hbehind : call.space ++ '(' :: rest with
    | nil => exact ⟨rfl, rfl⟩
    | cons c more =>
      have hc := hother c (by rw [hbehind, List.head?_cons])
      simp [hc]
  simp only [hstart]
  rw [List.takeWhile_append_of_pos hcut.name.alpha, List.dropWhile_append_of_pos hcut.name.alpha,
    htake.1, htake.2, List.append_nil, skipWs_append hcut.space, skipWs_cons (by decide)]
  exact ⟨rfl, rfl⟩

theorem parseChain_call (explainOnly : Bool) (fuel : ℕ) (rest : Text) (out : Query) :
    parseChain explainOnly (fuel + 1) (call.text ++ rest) out =
      match runCall explainOnly out call with
      | .error failure => .error failure
      | .ok out => parseChain explainOnly fuel rest out := by
  obtain ⟨hname, hparen⟩ := hcut.name_parts (call.arg ++ ')' :: rest)
  rw [parseChain]
  simp only [hcut.skip_lead, List.head?_cons, List.drop_succ_cons, List.drop_zero, hname, hparen,
    matchBracket_inside hcut.arg]
  unfold runCall
  simp only [reduceCtorEq, Option.some.injEq, Char.reduceEq, or_self, if_false, ne_eq, not_true]
  split_ifs
  · rfl
  · rfl

end

/-- A chain of calls with nothing behind it, up to a semicolon. -/
theorem parseChain_calls (explainOnly : Bool) {calls : List Chained} (hcuts : ∀ call ∈ calls, call.Cut)
    {blanks stop : Text} (hblanks : ∀ c ∈ blanks, isSpace c = true) (hstop : Stop stop) {fuel : ℕ}
    (hfuel : (callsText calls ++ (blanks ++ stop)).length < fuel) (out : Query) :
    parseChain explainOnly fuel (callsText calls ++ (blanks ++ stop)) out =
      calls.foldlM (runCall explainOnly) out := by
  induction calls generalizing fuel out with
  | nil => exact parseChain_stop explainOnly hblanks hstop out
  | cons call calls ih =>
    rw [callsText_cons] at hfuel ⊢
    rw [List.length_append] at hfuel
    have hpositive := call.text_length_pos
    obtain ⟨fuel, rfl⟩ := Nat.exists_eq_succ_of_ne_zero (Nat.ne_zero_of_lt hfuel)
    rw [parseChain_call (hcuts call (.head _)), List.foldlM_cons]
    cases hrun : runCall explainOnly out call with
    | error failure => rfl
    | ok out' =>
      exact ih (fun c hc ↦ hcuts c (.tail _ hc)) (by omega) out'

theorem exists_takeWhile_alpha (p : Text) :
    ∃ name, (∀ c ∈ name, c.isAlpha = true) ∧ name = p.takeWhile Char.isAlpha ∧
      p = name ++ p.dropWhile Char.isAlpha :=
  ⟨_, fun _ hc ↦ List.mem_takeWhile_imp hc, rfl, List.takeWhile_append_dropWhile.symm⟩

/-- A name without letters is no chained method. -/
theorem chainCall_nil (explainOnly : Bool) (arg : Text) (out out' : Query) :
    chainCall explainOnly [] arg out ≠ .ok out' := by
  unfold chainCall
  rw [if_neg (by decide)]
  cases explainOnly <;> exact nofun

/-- An accepted chain is a list of calls. -/
theorem calls_of_parseChain {explainOnly : Bool} {fuel : ℕ} {p : Text} {out out' : Query}
    (h : parseChain explainOnly fuel p out = .ok out') (hfuel : p.length < fuel) :
    ∃ calls blanks stop, (∀ call ∈ calls, Chained.Cut call) ∧ (∀ c ∈ blanks, isSpace c = true) ∧
      Stop stop ∧ p = callsText calls ++ (blanks ++ stop) := by
  induction fuel generalizing p out with
  | zero => exact absurd hfuel (Nat.not_lt_zero _)
  | succ fuel ih =>
    obtain ⟨lead, hlead, hp⟩ := exists_skipWs p
    rw [parseChain] at h
    dsimp only at h
    by_cases hstop : skipWs p = [] ∨ (skipWs p).head? = some ';'
    · exact ⟨[], lead, skipWs p, List.forall_mem_nil _, hlead, hstop, hp⟩
    rw [if_neg hstop] at h
    split_ifs at h with hexplain hdot hparen
    · cases h
    · cases h
    · cases h
    · obtain ⟨behindDot, hbehindDot⟩ := List.head?_eq_some_iff.mp (not_not.mp hdot)
      rw [hbehindDot, List.drop_succ_cons, List.drop_zero] at h hparen
      obtain ⟨gap, hgap, hgapText⟩ := exists_skipWs behindDot
      obtain ⟨name, hname, hnameEq, hnameText⟩ := exists_takeWhile_alpha (skipWs behindDot)
      obtain ⟨space, hspace, hspaceText⟩ := exists_skipWs ((skipWs behindDot).dropWhile Char.isAlpha)
      obtain ⟨behind, hbehind⟩ := List.head?_eq_some_iff.mp (not_not.mp hparen)
      rw [hbehind] at h hspaceText
      cases hmatch : matchBracket ('(' :: behind) with
      | none =>
        rw [hmatch] at h
        cases h
      | some r =>
        obtain ⟨arg, after⟩ := r
        obtain ⟨htext, hinside⟩ := inside_of_matchBracket hmatch
        rw [hmatch] at h
        dsimp only at h
        cases hcall : chainCall explainOnly ((skipWs behindDot).takeWhile Char.isAlpha) (trim arg) out with
        | error failure =>
          rw [hcall] at h
          cases h
        | ok next =>
          rw [hcall] at h
          have hne : name ≠ [] := by
            intro hempty
            rw [← hnameEq, hempty] at hcall
            exact chainCall_nil _ _ _ _ hcall
          have hwhole : p = (Chained.mk lead gap name space arg).text ++ after := by
            unfold Chained.text
            calc p = lead ++ '.' :: behindDot := hp.trans (congrArg (lead ++ ·) hbehindDot)
              _ = lead ++ '.' :: (gap ++ (name ++ (space ++ '(' :: (arg ++ ')' :: after)))) := by
                rw [hgapText, hnameText, hspaceText, htext]
              _ = _ := by simp
          have hshort : after.length < fuel := by
            rw [hwhole, List.length_append] at hfuel
            have hpositive := (Chained.mk lead gap name space arg).text_length_pos
            omega
          obtain ⟨calls, blanks, stop, hcuts, hblanks, hstop', hafter⟩ := ih h hshort
          refine ⟨⟨lead, gap, name, space, arg⟩ :: calls, blanks, stop, ?_, hblanks, hstop', ?_⟩
          · exact List.forall_mem_cons.mpr ⟨⟨hlead, hgap, ⟨hne, hname⟩, hspace, hinside⟩, hcuts⟩
          · rw [hwhole, callsText_cons, hafter]

/-! ## Queries -/

theorem splitArgs_eq (body tail : Text) : splitArgs body tail = splitArgs body [] := by
  cases hempty : splitArgs body [] with
  | some args => exact splitArgs_tail hempty tail
  | none =>
    cases htail : splitArgs body tail with
    | none => rfl
    | some args =>
      rw [splitArgs_tail htail []] at hempty
      cases hempty

/-- The arguments of a call that takes at most `most`. -/
def readArgs (most : ℕ) (body : Text) : Option (List Text) := (splitArgs body []).filter (·.length ≤ most)

/-- The text of a call on a collection, with the calls chained to it. -/
structure Parts where
  name : Text
  method : Text
  head : Text
  body : Text
  calls : List Chained
  blanks : Text
  stop : Text

namespace Parts

def text (p : Parts) : Text := p.head ++ '(' :: (p.body ++ ')' :: (callsText p.calls ++ (p.blanks ++ p.stop)))

structure Cut (p : Parts) : Prop where
  head : CallHead p.name p.method p.head
  body : Inside p.body
  calls : ∀ call ∈ p.calls, call.Cut
  blanks : ∀ c ∈ p.blanks, isSpace c = true
  stop : Stop p.stop

/-- The query of a `find`. -/
def readFind (p : Parts) : Parse Query :=
  match readArgs 2 p.body with
  | none => syntaxError "find() takes at most a filter and a projection"
  | some args => p.calls.foldlM (runCall false) (findQuery (some p.name) args)

def readFindOne (p : Parts) : Parse Query :=
  match readArgs 2 p.body with
  | none => syntaxError "findOne() takes at most a filter and a projection"
  | some args =>
    if p.calls ≠ [] then syntaxError "unexpected characters after findOne()"
    else .ok { findQuery (some p.name) args with limit := 1 }

def readAggregate (p : Parts) : Parse Query :=
  match readArgs 1 p.body with
  | none => syntaxError "aggregate() takes a single pipeline array"
  | some args => p.calls.foldlM (runCall true) {
      op := .aggregate
      collection := some p.name
      filter := some (match args with
        | [] => "[]".toList
        | arg :: _ => trim arg) }

end Parts

section

variable {p : Parts} (h : p.Cut)

include h

theorem Parts.Cut.parseCall : parseCall p.text = .ok ⟨some p.name, p.method,
    '(' :: (p.body ++ ')' :: (callsText p.calls ++ (p.blanks ++ p.stop)))⟩ :=
  parseCall_head h.head _

/-- Blanks alone separate the call from where the parser stops just if nothing is chained to it. -/
theorem Parts.Cut.stop_iff : Stop (skipWs (callsText p.calls ++ (p.blanks ++ p.stop))) ↔ p.calls = [] := by
  constructor
  · intro hstop
    by_contra hne
    obtain ⟨call, calls, hcalls⟩ := List.exists_cons_of_ne_nil hne
    have hcut := h.calls call (hcalls ▸ .head _)
    rw [hcalls, callsText_cons, hcut.skip_lead] at hstop
    obtain hnil | hhead := hstop
    · cases hnil
    · exact absurd hhead (by simp)
  · intro hcalls
    rw [hcalls]
    change Stop (skipWs (p.blanks ++ p.stop))
    rw [skipWs_stop h.blanks h.stop]
    exact h.stop

theorem mongoQueryParse_find (hmethod : p.method = "find".toList) : mongoQueryParse p.text = p.readFind := by
  unfold mongoQueryParse
  rw [h.parseCall]
  simp only [hmethod, if_true]
  unfold finishFind Parts.readFind readArgs
  simp only [reduceCtorEq, if_false, matchBracket_inside h.body, splitArgs_eq p.body (_ :: _),
    Bool.false_eq_true]
  cases (splitArgs p.body []).filter (·.length ≤ 2) with
  | none => rfl
  | some args => exact parseChain_calls false h.calls h.blanks h.stop (Nat.lt_succ_self _) _

theorem mongoQueryParse_findOne (hmethod : p.method = "findOne".toList) :
    mongoQueryParse p.text = p.readFindOne := by
  unfold mongoQueryParse
  rw [h.parseCall]
  simp only [hmethod, if_neg (by decide : ¬ "findOne".toList = "find".toList), if_true]
  unfold finishFind Parts.readFindOne readArgs
  simp only [reduceCtorEq, if_false, matchBracket_inside h.body, splitArgs_eq p.body (_ :: _), if_true]
  cases (splitArgs p.body []).filter (·.length ≤ 2) with
  | none => rfl
  | some args =>
    have hstop := not_congr h.stop_iff
    unfold Stop at hstop
    rw [not_or] at hstop
    simp only [hstop]

theorem mongoQueryParse_aggregate (hmethod : p.method = "aggregate".toList) :
    mongoQueryParse p.text = p.readAggregate := by
  unfold mongoQueryParse
  rw [h.parseCall]
  simp only [hmethod, if_neg (by decide : ¬ "aggregate".toList = "find".toList),
    if_neg (by decide : ¬ "aggregate".toList = "findOne".toList), if_true]
  unfold finishAggregate Parts.readAggregate readArgs
  simp only [reduceCtorEq, if_false, matchBracket_inside h.body, splitArgs_eq p.body (_ :: _)]
  cases (splitArgs p.body []).filter (·.length ≤ 1) with
  | none => rfl
  | some args => exact parseChain_calls true h.calls h.blanks h.stop (Nat.lt_succ_self _) _

end

/-- No other method finds or aggregates. -/
theorem op_of_methods : ∀ m ∈ methods, m.op ≠ .find ∧ m.op ≠ .aggregate := by
  decide

theorem op_parseGeneric {m : MethodDef} {args : Option (List Text)} {out out' : Query}
    (h : parseGeneric m args out = .ok out') : out'.op = out.op := by
  unfold parseGeneric at h
  dsimp only at h
  cases hargs : args.filter (·.length ≤ m.shapes.length) with
  | none =>
    rw [hargs] at h
    cases h
  | some args =>
    rw [hargs] at h
    dsimp only at h
    split_ifs at h
    · cases h
    cases hshapes : checkShapes m 0 m.shapes args with
    | error failure =>
      rw [hshapes] at h
      cases h
    | ok args =>
      rw [hshapes] at h
      cases h
      rfl

theorem op_finishGeneric {call : Call} {out : Query} (h : finishGeneric call = .ok out) :
    out.op ≠ .find ∧ out.op ≠ .aggregate := by
  unfold finishGeneric at h
  cases hfound : findMethod call.method with
  | none =>
    rw [hfound] at h
    cases h
  | some m =>
    have hop := op_of_methods m (List.mem_of_find?_eq_some hfound)
    rw [hfound] at h
    dsimp only at h
    by_cases hneeds : m.needsColl = call.collection.isNone
    · rw [if_pos hneeds] at h
      cases h
    rw [if_neg hneeds] at h
    cases hmatch : matchBracket call.paren with
    | none =>
      rw [hmatch] at h
      cases h
    | some r =>
      rw [hmatch] at h
      dsimp only at h
      cases hgeneric : parseGeneric m (splitArgs r.1 (')' :: r.2)) { op := m.op, collection := call.collection } with
      | error failure =>
        rw [hgeneric] at h
        cases h
      | ok query =>
        rw [hgeneric] at h
        dsimp only at h
        have hquery : query = out := by
          split_ifs at h
          · cases h
          · exact Except.ok.inj h
        rw [← hquery, op_parseGeneric hgeneric]
        exact hop

/-- The names of the methods that read a collection as a query does. -/
def queryMethods : List Text := ["find".toList, "findOne".toList, "aggregate".toList]

/-- An accepted query is a text in parts. -/
theorem parts_of_mongoQueryParse {s : Text} {out : Query} (h : mongoQueryParse s = .ok out)
    (hop : out.op = .find ∨ out.op = .aggregate) :
    ∃ p : Parts, p.Cut ∧ s = p.text ∧ p.method ∈ queryMethods := by
  unfold mongoQueryParse at h
  cases hcall : parseCall s with
  | error failure =>
    rw [hcall] at h
    cases h
  | ok call =>
    obtain ⟨collection, method, paren⟩ := call
    rw [hcall] at h
    dsimp only at h
    have hparts {name : Text} (hname : collection = some name) (hmethod : method ∈ queryMethods)
        {body after : Text} (hmatch : matchBracket paren = some (body, after))
        (hchain : ∃ calls blanks stop, (∀ call ∈ calls, Chained.Cut call) ∧
          (∀ c ∈ blanks, isSpace c = true) ∧ Stop stop ∧ after = callsText calls ++ (blanks ++ stop)) :
        ∃ p : Parts, p.Cut ∧ s = p.text ∧ p.method ∈ queryMethods := by
      obtain ⟨head, rest, rfl, htext, hhead⟩ := head_of_parseCall (hname ▸ hcall)
      obtain ⟨hrest, hbody⟩ := inside_of_matchBracket hmatch
      obtain ⟨calls, blanks, stop, hcalls, hblanks, hstop, hafter⟩ := hchain
      refine ⟨⟨name, method, head, body, calls, blanks, stop⟩, ⟨hhead, hbody, hcalls, hblanks, hstop⟩, ?_, hmethod⟩
      rw [htext, hrest, hafter]
      rfl
    split_ifs at h with hfind hfindOne haggregate
    · cases hname : collection with
      | none =>
        rw [hname] at h
        cases h
      | some name =>
        unfold finishFind at h
        simp only [hname, reduceCtorEq, if_false] at h
        cases hmatch : matchBracket paren with
        | none =>
          rw [hmatch] at h
          cases h
        | some r =>
          obtain ⟨body, after⟩ := r
          rw [hmatch] at h
          refine hparts hname (hfind ▸ .head _) hmatch ?_
          dsimp only at h
          split at h
          · cases h
          · exact calls_of_parseChain h (Nat.lt_succ_self _)
    · cases hname : collection with
      | none =>
        rw [hname] at h
        cases h
      | some name =>
        unfold finishFind at h
        simp only [hname, reduceCtorEq, if_false, if_true] at h
        cases hmatch : matchBracket paren with
        | none =>
          rw [hmatch] at h
          cases h
        | some r =>
          obtain ⟨body, after⟩ := r
          rw [hmatch] at h
          refine hparts hname (hfindOne ▸ .tail _ (.head _)) hmatch ?_
          dsimp only at h
          split at h
          · cases h
          · obtain ⟨blanks, hblanks, hafter⟩ := exists_skipWs after
            split_ifs at h with hbehind
            · cases h
            · have hstop : Stop (skipWs after) := by
                rw [not_and_or, not_not, not_not] at hbehind
                exact hbehind
              exact ⟨[], blanks, _, nofun, hblanks, hstop, hafter⟩
    · cases hname : collection with
      | none =>
        rw [hname] at h
        cases h
      | some name =>
        unfold finishAggregate at h
        simp only [hname, reduceCtorEq, if_false] at h
        cases hmatch : matchBracket paren with
        | none =>
          rw [hmatch] at h
          cases h
        | some r =>
          obtain ⟨body, after⟩ := r
          rw [hmatch] at h
          refine hparts hname (haggregate ▸ .tail _ (.tail _ (.head _))) hmatch ?_
          dsimp only at h
          split at h
          · cases h
          · exact calls_of_parseChain h (Nat.lt_succ_self _)
    · obtain ⟨hnotFind, hnotAggregate⟩ := op_finishGeneric h
      exact absurd hop (not_or.mpr ⟨hnotFind, hnotAggregate⟩)

end Squaero.Mongo
