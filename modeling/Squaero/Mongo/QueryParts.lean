import Squaero.Mongo.ChainText

/-!
# What a query keeps of its text

The filter and the projection of a `find` hold every letter of its arguments, a chained call sets one field
of the query, and a literal is decoded character by character. So a text written in place of another shows
in the query, unless it stands in a sort that a later one replaces or behind a NUL of the collection's name.
-/

namespace Squaero.Mongo

open Squaero.Lib

/-! ## Chained calls -/

/-- What a chained call sets. -/
inductive Sets (call : Chained) (out : Query) : Query → Prop
  | explain {verbosity : Text} (hname : call.name = "explain".toList) :
      Sets call out { out with explain := some verbosity }
  | sort (hname : call.name = "sort".toList) : Sets call out { out with sort := some (trim call.arg) }
  | limit {v : ℤ} (hname : call.name = "limit".toList) (harg : skipWs (strtol (trim call.arg)).2 = []) :
      Sets call out { out with limit := v }
  | skip {v : ℤ} (hname : call.name = "skip".toList) (harg : skipWs (strtol (trim call.arg)).2 = []) :
      Sets call out { out with skip := v }

theorem sets_of_setExplain {call : Chained} {arg : Text} {out out' : Query}
    (hname : call.name = "explain".toList) (h : setExplain arg out = .ok out') : Sets call out out' := by
  unfold setExplain at h
  by_cases hempty : arg = []
  · rw [if_pos hempty] at h
    cases h
    exact .explain hname
  rw [if_neg hempty] at h
  cases hverbosity : (unquote arg).filter explainVerbosityOk with
  | none =>
    rw [hverbosity] at h
    cases h
  | some verbosity =>
    rw [hverbosity] at h
    cases h
    exact .explain hname

theorem sets_of_chainCall {explainOnly : Bool} {call : Chained} {out out' : Query}
    (h : chainCall explainOnly call.name (trim call.arg) out = .ok out') :
    Sets call out out' ∧ (explainOnly = true → call.name = "explain".toList) := by
  unfold chainCall at h
  by_cases hexplain : call.name = "explain".toList
  · rw [if_pos hexplain] at h
    exact ⟨sets_of_setExplain hexplain h, fun _ ↦ hexplain⟩
  rw [if_neg hexplain] at h
  by_cases honly : explainOnly = true
  · rw [if_pos honly] at h
    cases h
  rw [if_neg honly] at h
  refine ⟨?_, fun honly' ↦ absurd honly' honly⟩
  by_cases hsort : call.name = "sort".toList
  · rw [if_pos hsort] at h
    cases h
    exact .sort hsort
  rw [if_neg hsort] at h
  by_cases hnumber : call.name = "limit".toList ∨ call.name = "skip".toList
  · rw [if_pos hnumber] at h
    cases hvalue : strtol (trim call.arg) with
    | mk v rest =>
      have hrest : (strtol (trim call.arg)).2 = rest := by rw [hvalue]
      rw [hvalue] at h
      dsimp only at h
      by_cases hbad : trim call.arg = [] ∨ skipWs rest ≠ [] ∨ v < 0
      · rw [if_pos hbad] at h
        cases h
      have hblank : skipWs (strtol (trim call.arg)).2 = [] := by
        rw [hrest]
        exact not_not.mp (not_or.mp (not_or.mp hbad).2).1
      rw [if_neg hbad] at h
      by_cases hlimit : call.name = "limit".toList
      · rw [if_pos hlimit] at h
        cases h
        exact .limit hlimit hblank
      · rw [if_neg hlimit] at h
        cases h
        exact .skip (hnumber.resolve_left hlimit) hblank
  · rw [if_neg hnumber] at h
    cases h

theorem sets_of_runCall {explainOnly : Bool} {call : Chained} {out out' : Query}
    (h : runCall explainOnly out call = .ok out') :
    Sets call out out' ∧ out.explain = none ∧ (explainOnly = true → call.name = "explain".toList) := by
  unfold runCall at h
  by_cases hexplain : out.explain.isSome = true
  · rw [if_pos hexplain] at h
    cases h
  rw [if_neg hexplain] at h
  obtain ⟨hsets, honly⟩ := sets_of_chainCall h
  exact ⟨hsets, by simpa using hexplain, honly⟩

theorem Sets.keeps {call : Chained} {out out' : Query} (h : Sets call out out') :
    out'.op = out.op ∧ out'.collection = out.collection ∧ out'.filter = out.filter ∧
      out'.projection = out.projection := by
  cases h <;> exact ⟨rfl, rfl, rfl, rfl⟩

/-- The calls of a chain leave alone what the call in front of them has set. -/
theorem calls_keep {explainOnly : Bool} {calls : List Chained} {out out' : Query}
    (h : calls.foldlM (runCall explainOnly) out = .ok out') :
    out'.op = out.op ∧ out'.collection = out.collection ∧ out'.filter = out.filter ∧
      out'.projection = out.projection := by
  induction calls generalizing out with
  | nil =>
    cases h
    exact ⟨rfl, rfl, rfl, rfl⟩
  | cons call calls ih =>
    rw [List.foldlM_cons] at h
    cases hrun : runCall explainOnly out call with
    | error failure =>
      rw [hrun] at h
      cases h
    | ok next =>
      rw [hrun] at h
      have hnext := (sets_of_runCall hrun).1.keeps
      have hrest := ih h
      exact ⟨hrest.1.trans hnext.1, hrest.2.1.trans hnext.2.1, hrest.2.2.1.trans hnext.2.2.1,
        hrest.2.2.2.trans hnext.2.2.2⟩

/-- A query that ends without `explain` has passed no call of it. -/
theorem explain_of_calls {explainOnly : Bool} {calls : List Chained} {out out' : Query}
    (h : calls.foldlM (runCall explainOnly) out = .ok out') (hexplain : out'.explain = none) :
    out.explain = none ∧ ∀ call ∈ calls, call.name ≠ "explain".toList := by
  induction calls generalizing out with
  | nil =>
    cases h
    exact ⟨hexplain, nofun⟩
  | cons call calls ih =>
    rw [List.foldlM_cons] at h
    cases hrun : runCall explainOnly out call with
    | error failure =>
      rw [hrun] at h
      cases h
    | ok next =>
      rw [hrun] at h
      obtain ⟨hsets, hnone, -⟩ := sets_of_runCall hrun
      obtain ⟨hnext, hcalls⟩ := ih h
      refine ⟨hnone, List.forall_mem_cons.mpr ⟨?_, hcalls⟩⟩
      cases hsets with
      | explain hname => cases hnext
      | sort hname => rw [hname]; decide
      | limit hname _ => rw [hname]; decide
      | skip hname _ => rw [hname]; decide

/-- An update of the query that a call passes on. -/
theorem runCall_map (update : Query → Query) {explainOnly : Bool} {call : Chained} {out : Query}
    (hexplain : ∀ verbosity, { update out with explain := some verbosity } =
      update { out with explain := some verbosity })
    (hsame : (update out).explain = out.explain)
    (hsort : call.name = "sort".toList → ∀ sort, { update out with sort := sort } = update { out with sort := sort })
    (hlimit : ∀ v, { update out with limit := v } = update { out with limit := v })
    (hskip : ∀ v, { update out with skip := v } = update { out with skip := v }) :
    runCall explainOnly (update out) call = (runCall explainOnly out call).map update := by
  unfold runCall
  rw [hsame]
  by_cases hset : out.explain.isSome = true
  · rw [if_pos hset, if_pos hset]
    rfl
  rw [if_neg hset, if_neg hset]
  unfold chainCall
  by_cases hname : call.name = "explain".toList
  · rw [if_pos hname, if_pos hname]
    unfold setExplain
    rw [hexplain]
    by_cases hempty : trim call.arg = []
    · rw [if_pos hempty, if_pos hempty]
      rfl
    rw [if_neg hempty, if_neg hempty]
    cases (unquote (trim call.arg)).filter explainVerbosityOk with
    | none => rfl
    | some verbosity => exact congrArg Except.ok (hexplain verbosity)
  rw [if_neg hname, if_neg hname]
  by_cases honly : explainOnly = true
  · rw [if_pos honly, if_pos honly]
    rfl
  rw [if_neg honly, if_neg honly]
  by_cases hsorted : call.name = "sort".toList
  · rw [if_pos hsorted, if_pos hsorted]
    exact congrArg Except.ok (hsort hsorted _)
  rw [if_neg hsorted, if_neg hsorted]
  by_cases hnumber : call.name = "limit".toList ∨ call.name = "skip".toList
  · rw [if_pos hnumber, if_pos hnumber]
    cases strtol (trim call.arg) with
    | mk v rest =>
      dsimp only
      by_cases hbad : trim call.arg = [] ∨ skipWs rest ≠ [] ∨ v < 0
      · rw [if_pos hbad, if_pos hbad]
        rfl
      rw [if_neg hbad, if_neg hbad]
      by_cases hlimited : call.name = "limit".toList
      · rw [if_pos hlimited, if_pos hlimited]
        exact congrArg Except.ok (hlimit v)
      · rw [if_neg hlimited, if_neg hlimited]
        exact congrArg Except.ok (hskip v)
  · rw [if_neg hnumber, if_neg hnumber]
    rfl

theorem runCall_collection (explainOnly : Bool) (call : Chained) (out : Query) (collection : Option Text) :
    runCall explainOnly { out with collection := collection } call =
      (runCall explainOnly out call).map fun out ↦ { out with collection := collection } :=
  runCall_map (fun out ↦ { out with collection := collection }) (fun _ ↦ rfl) rfl (fun _ _ ↦ rfl)
    (fun _ ↦ rfl) fun _ ↦ rfl

theorem calls_collection (explainOnly : Bool) (calls : List Chained) (out : Query) (collection : Option Text) :
    calls.foldlM (runCall explainOnly) { out with collection := collection } =
      (calls.foldlM (runCall explainOnly) out).map fun out ↦ { out with collection := collection } := by
  induction calls generalizing out with
  | nil => rfl
  | cons call calls ih =>
    rw [List.foldlM_cons, List.foldlM_cons, runCall_collection]
    cases hrun : runCall explainOnly out call with
    | error failure => rfl
    | ok next => exact ih next

/-- A sort is replaced by a later one, and only by that. -/
theorem calls_sort (calls : List Chained) (out : Query) (sort : Option Text) :
    calls.foldlM (runCall false) { out with sort := sort } =
      (calls.foldlM (runCall false) out).map fun out ↦
        if ∃ call ∈ calls, call.name = "sort".toList then out else { out with sort := sort } := by
  induction calls generalizing out with
  | nil => rfl
  | cons call calls ih =>
    rw [List.foldlM_cons, List.foldlM_cons]
    by_cases hname : call.name = "sort".toList
    · have hlater : ∃ later ∈ call :: calls, later.name = "sort".toList := ⟨call, .head _, hname⟩
      have hrun : runCall false { out with sort := sort } call = runCall false out call := by
        unfold runCall chainCall
        simp only [hname, if_neg (by decide : ¬ "sort".toList = "explain".toList), Bool.false_eq_true,
          if_false, if_true]
      rw [hrun]
      simp only [if_pos hlater]
      cases runCall false out call with
      | error failure => rfl
      | ok next => exact (congrFun Except.map_id (calls.foldlM (runCall false) next)).symm
    · have hlater : (∃ later ∈ call :: calls, later.name = "sort".toList) ↔
          ∃ later ∈ calls, later.name = "sort".toList := by
        simp only [List.mem_cons, exists_eq_or_imp, hname, false_or]
      have hrun : runCall false { out with sort := sort } call =
          (runCall false out call).map fun out ↦ { out with sort := sort } :=
        runCall_map (fun out ↦ { out with sort := sort }) (fun _ ↦ rfl) rfl
          (fun hsort ↦ absurd hsort hname) (fun _ ↦ rfl) fun _ ↦ rfl
      rw [hrun]
      simp only [hlater]
      cases runCall false out call with
      | error failure => rfl
      | ok next => exact ih next

/-! ## Letters -/

/-- How often the letter that a mark leaves out stands in a text. -/
def letters (text : Text) : ℕ := text.count 'O'

theorem letters_append (text more : Text) : letters (text ++ more) = letters text + letters more :=
  List.count_append

theorem letters_blanks {blanks : Text} (h : ∀ c ∈ blanks, isSpace c = true) : letters blanks = 0 := by
  refine List.count_eq_zero.mpr fun hmem ↦ ?_
  exact absurd (h 'O' hmem) (by decide)

theorem letters_skipWs (text : Text) : letters (skipWs text) = letters text := by
  obtain ⟨blanks, hblanks, htext⟩ := exists_skipWs text
  have hcount := congrArg letters htext
  rw [letters_append, letters_blanks hblanks, Nat.zero_add] at hcount
  exact hcount.symm

theorem letters_trim (text : Text) : letters (trim text) = letters text := by
  have hsplit : trim text ++ (skipWs text).rtakeWhile isSpace = skipWs text := rdropWhile_append_rtakeWhile _
  have hblanks : letters ((skipWs text).rtakeWhile isSpace) = 0 :=
    letters_blanks fun _ hc ↦ List.mem_rtakeWhile_imp hc
  have hcount := congrArg letters hsplit
  rw [letters_append, hblanks, Nat.add_zero, letters_skipWs] at hcount
  exact hcount

/-- The filter and the projection hold the letters of the arguments. -/
theorem letters_findQuery {body : Text} {args : List Text} (h : readArgs 2 body = some args)
    (collection : Option Text) :
    letters ((findQuery collection args).filter.getD []) +
      letters ((findQuery collection args).projection.getD []) = letters body := by
  obtain ⟨hsplit, hfew⟩ := Option.filter_eq_some_iff.mp h
  have hfilter (arg : Text) : letters (if trim arg = [] then "\x7b\x7d".toList else trim arg) = letters arg := by
    split_ifs with hempty
    · rw [← letters_trim arg, hempty]
      rfl
    · exact letters_trim arg
  have hprojection (arg : Text) :
      letters ((if trim arg = [] then none else some (trim arg)).getD []) = letters arg := by
    split_ifs with hempty
    · rw [← letters_trim arg, hempty]
      rfl
    · exact letters_trim arg
  unfold splitArgs at hsplit
  split_ifs at hsplit with hempty
  · cases hsplit
    rw [← letters_skipWs body, hempty]
    rfl
  · obtain ⟨hloop, -⟩ := Option.filter_eq_some_iff.mp hsplit
    obtain ⟨hne, hjoin⟩ := join_splitLoop hloop
    rw [← letters_skipWs body, ← hjoin]
    match args, hfew with
    | [], _ => exact absurd rfl hne
    | [arg], _ =>
      calc _ = letters arg + letters [] := congrArg₂ (· + ·) (hfilter arg) (hprojection [])
        _ = _ := by
          rw [List.intercalate_singleton]
          rfl
    | [arg, arg'], _ =>
      calc _ = letters arg + letters arg' := congrArg₂ (· + ·) (hfilter arg) (hprojection arg')
        _ = letters (arg ++ [','] ++ arg') := by
          rw [letters_append, letters_append, (by decide : letters [','] = 0), Nat.add_zero]
        _ = _ := by rw [List.intercalate_cons_cons, List.intercalate_singleton]

/-- A number is written without letters. -/
theorem letters_strtol {arg : Text} (h : skipWs (strtol arg).2 = []) : letters arg = 0 := by
  have hblank {text : Text} (htext : skipWs text = []) : letters text = 0 := by
    rw [← letters_skipWs, htext]
    rfl
  unfold strtol at h
  dsimp only at h
  set number := if (skipWs arg).head? = some '-' ∨ (skipWs arg).head? = some '+' then (skipWs arg).drop 1
    else skipWs arg with hnumber
  by_cases hdigits : number.takeWhile Char.isDigit = []
  · rw [if_pos hdigits] at h
    exact hblank h
  rw [if_neg hdigits] at h
  have hdigitLetters : letters (number.takeWhile Char.isDigit) = 0 := by
    refine List.count_eq_zero.mpr fun hmem ↦ ?_
    exact absurd (List.mem_takeWhile_imp hmem) (by decide)
  have hnumberLetters : letters number = 0 := by
    have hsplit := List.prefix_iff_eq_append.mp (List.takeWhile_prefix (l := number) Char.isDigit)
    rw [← hsplit, letters_append, hdigitLetters, hblank h]
  have hsign : letters (skipWs arg) = letters number := by
    rw [hnumber]
    split_ifs with hsigned
    · obtain ⟨sign, hsigned, hother⟩ : ∃ sign, (skipWs arg).head? = some sign ∧ sign ≠ 'O' := by
        obtain hminus | hplus := hsigned
        · exact ⟨'-', hminus, by decide⟩
        · exact ⟨'+', hplus, by decide⟩
      obtain ⟨rest, hrest⟩ := List.head?_eq_some_iff.mp hsigned
      rw [hrest]
      exact List.count_cons_of_ne hother
    · rfl
  rw [← letters_skipWs, hsign, hnumberLetters]

/-! ## Literals -/

theorem mem_take_append {x z : Text} {c : Char} {n : ℕ} (h : x.length < n) : c ∈ (x ++ c :: z).take n := by
  rw [List.take_append]
  obtain ⟨k, hk⟩ : ∃ k, n - x.length = k + 1 := ⟨n - x.length - 1, by omega⟩
  rw [hk, List.take_succ_cons]
  simp

theorem dot_not_mem_of_hex4 {p : Text} {cp : ℕ} (h : hex4 p = some cp) : 4 ≤ p.length ∧ '.' ∉ p.take 4 := by
  unfold hex4 at h
  split_ifs at h with hshort
  refine ⟨by omega, fun hmem ↦ ?_⟩
  obtain ⟨before, after, hsplit⟩ := List.append_of_mem hmem
  rw [hsplit, List.foldlM_append] at h
  obtain ⟨v, -, hv⟩ := Option.bind_eq_some_iff.mp h
  cases hv

/-- What stands behind a dot does not matter for a code point in front of it. -/
theorem hex4_dot (x z z' : Text) : hex4 (x ++ '.' :: z) = hex4 (x ++ '.' :: z') := by
  by_cases hlength : x.length < 4
  · have hnone (z : Text) : hex4 (x ++ '.' :: z) = none := by
      cases hhex : hex4 (x ++ '.' :: z) with
      | none => rfl
      | some cp => exact absurd (mem_take_append hlength) (dot_not_mem_of_hex4 hhex).2
    rw [hnone z, hnone z']
  · have htake (z : Text) : (x ++ '.' :: z).take 4 = x.take 4 := List.take_append_of_le_length (by omega)
    have hlong (z : Text) : ¬ (x ++ '.' :: z).length < 4 := by
      rw [List.length_append]
      omega
    unfold hex4
    rw [if_neg (hlong z), if_neg (hlong z'), htake z, htake z']

theorem unicodeEscape_dot (x z z' : Text) : unicodeEscape (x ++ '.' :: z) = unicodeEscape (x ++ '.' :: z') := by
  unfold unicodeEscape
  rw [hex4_dot x z z']
  cases hhex : hex4 (x ++ '.' :: z') with
  | none => rfl
  | some cp =>
    have hfour : ¬ x.length < 4 := fun hlength ↦
      (dot_not_mem_of_hex4 hhex).2 (mem_take_append hlength)
    by_cases hsix : x.length < 6
    · have hpair (z : Text) : ((x ++ '.' :: z).drop 4).take 2 ≠ ['\\', 'u'] := by
        intro heq
        have hdrop : (x ++ '.' :: z).drop 4 = x.drop 4 ++ '.' :: z :=
          List.drop_append_of_le_length (by omega)
        have hmem : '.' ∈ ((x ++ '.' :: z).drop 4).take 2 := by
          rw [hdrop]
          exact mem_take_append (by rw [List.length_drop]; omega)
        rw [heq] at hmem
        exact absurd hmem (by decide)
      rw [Option.map_some, Option.map_some]
      have hsingle (z : Text) (lo : ℕ) : ¬ (0xD800 ≤ cp ∧ cp ≤ 0xDBFF ∧ ((x ++ '.' :: z).drop 4).take 2 = ['\\', 'u'] ∧
          0xDC00 ≤ lo ∧ lo ≤ 0xDFFF) := fun hsurrogates ↦ hpair z hsurrogates.2.2.1
      cases hex4 ((x ++ '.' :: z).drop 6) <;> cases hex4 ((x ++ '.' :: z').drop 6) <;> simp only [if_neg (hsingle _ _)]
    · have hdrop (z : Text) : (x ++ '.' :: z).drop 6 = x.drop 6 ++ '.' :: z :=
        List.drop_append_of_le_length (by omega)
      have htake (z : Text) : ((x ++ '.' :: z).drop 4).take 2 = (x.drop 4).take 2 := by
        rw [List.drop_append_of_le_length (by omega), List.take_append_of_le_length]
        rw [List.length_drop]
        omega
      rw [hdrop z, hdrop z', hex4_dot _ z z', htake z, htake z']

theorem dot_not_mem_of_unicodeEscape {p : Text} {cp used : ℕ} (h : unicodeEscape p = some (cp, used)) :
    '.' ∉ p.take used := by
  obtain ⟨cp', hhex, heq⟩ := Option.map_eq_some_iff.mp h
  have hfirst := (dot_not_mem_of_hex4 hhex).2
  split at heq
  next lo hlo =>
    split_ifs at heq with hpair
    · obtain rfl : 10 = used := (Prod.mk.inj heq).2
      have hsplit : p.take 10 = p.take 4 ++ ((p.drop 4).take 2 ++ (p.drop 6).take 4) := by
        rw [List.take_add (i := 4) (j := 6), List.take_add (i := 2) (j := 4), List.drop_drop]
      rw [hsplit, hpair.2.2.1]
      have hsecond := (dot_not_mem_of_hex4 hlo).2
      simp [hfirst, hsecond]
    · cases heq
      exact hfirst
  next =>
    cases heq
    exact hfirst

/-- Characters that a literal holds as they are. -/
def Verbatim (quote : Char) (word : Text) : Prop := ∀ c ∈ word, c ≠ quote ∧ c ≠ '\\'

theorem unquoteLoop_verbatim {quote : Char} {word : Text} (h : Verbatim quote word) (rest : Text) :
    unquoteLoop quote 0 false (word ++ rest) =
      (unquoteLoop quote 0 false rest).map fun r ↦ (word ++ r.1, r.2) := by
  induction word with
  | nil => simp
  | cons c word ih =>
    obtain ⟨hquote, hslash⟩ := h c (.head _)
    rw [List.cons_append, unquoteLoop_plain hquote hslash, ih fun d hd ↦ h d (.tail _ hd)]
    simp [Function.comp_def]

/-- A dot and what follows it verbatim is read the same behind a backslash. -/
theorem unquoteLoop_dot {quote : Char} (hquote : isQuote quote = true) (escaped : Bool) {word : Text}
    (h : Verbatim quote word) (rest : Text) : unquoteLoop quote 0 escaped ('.' :: (word ++ rest)) =
      (unquoteLoop quote 0 false rest).map fun r ↦ ('.' :: (word ++ r.1), r.2) := by
  have hdot : '.' ≠ quote := by
    rintro rfl
    cases hquote
  cases escaped with
  | false =>
    rw [unquoteLoop_plain hdot (by decide), unquoteLoop_verbatim h]
    simp [Function.comp_def]
  | true =>
    rw [unquoteLoop, if_neg (by decide), unquoteLoop_verbatim h]
    simp [Function.comp_def, simpleEscape]

/-- A dot inside a literal, with verbatim text behind it, stands in what the literal says; what is in front
of it says the same whatever follows the dot. -/
theorem exists_of_unquoteLoop {quote : Char} (hquote : isQuote quote = true) {word rest : Text}
    (hword : Verbatim quote word) {x s after : Text} {skip : ℕ} {escaped : Bool}
    (hskip : '.' ∉ (x ++ '.' :: (word ++ rest)).take skip)
    (h : unquoteLoop quote skip escaped (x ++ '.' :: (word ++ rest)) = some (s, after))
    (hafter : after.length ≤ rest.length) :
    ∃ front behind, s = front ++ '.' :: (word ++ behind) ∧
      unquoteLoop quote 0 false rest = some (behind, after) ∧
      ∀ word' rest' r', Verbatim quote word' → unquoteLoop quote 0 false rest' = some r' →
        unquoteLoop quote skip escaped (x ++ '.' :: (word' ++ rest')) =
          some (front ++ '.' :: (word' ++ r'.1), r'.2) := by
  induction x generalizing skip escaped s with
  | nil =>
    cases skip with
    | succ skip => exact absurd (.head _) hskip
    | zero =>
      rw [List.nil_append, unquoteLoop_dot hquote escaped hword] at h
      obtain ⟨⟨behind, after'⟩, hrest, heq⟩ := Option.map_eq_some_iff.mp h
      cases heq
      refine ⟨[], behind, rfl, hrest, fun word' rest' r' hword' hrest' ↦ ?_⟩
      rw [List.nil_append, unquoteLoop_dot hquote escaped hword', hrest']
      rfl
  | cons c x ih =>
    cases skip with
    | succ skip =>
      rw [List.cons_append, List.take_succ_cons] at hskip
      exact ih (fun hmem ↦ hskip (.tail _ hmem)) h
    | zero =>
      cases escaped with
      | true =>
        rw [List.cons_append, unquoteLoop] at h
        by_cases hu : c = 'u'
        · rw [if_pos hu] at h
          cases hescape : unicodeEscape (x ++ '.' :: (word ++ rest)) with
          | none =>
            rw [hescape] at h
            cases h
          | some r =>
            obtain ⟨cp, used⟩ := r
            rw [hescape] at h
            obtain ⟨⟨inner, after'⟩, hinner, heq⟩ := Option.map_eq_some_iff.mp h
            cases heq
            obtain ⟨front, behind, rfl, hrest, hagain⟩ := ih (dot_not_mem_of_unicodeEscape hescape) hinner
            refine ⟨putUtf8 cp ++ front, behind, by simp, hrest, fun word' rest' r' hword' hrest' ↦ ?_⟩
            rw [List.cons_append, unquoteLoop, if_pos hu, unicodeEscape_dot x _ (word ++ rest), hescape]
            simp [hagain word' rest' r' hword' hrest']
        · rw [if_neg hu] at h
          obtain ⟨⟨inner, after'⟩, hinner, heq⟩ := Option.map_eq_some_iff.mp h
          cases heq
          obtain ⟨front, behind, rfl, hrest, hagain⟩ := ih (by simp) hinner
          refine ⟨simpleEscape c :: front, behind, rfl, hrest, fun word' rest' r' hword' hrest' ↦ ?_⟩
          rw [List.cons_append, unquoteLoop, if_neg hu, hagain word' rest' r' hword' hrest']
          rfl
      | false =>
        rw [List.cons_append, unquoteLoop] at h
        by_cases hclose : c = quote
        · rw [if_pos hclose] at h
          cases h
          simp only [List.length_append, List.length_cons] at hafter
          omega
        rw [if_neg hclose] at h
        by_cases hslash : c = '\\'
        · rw [if_pos hslash] at h
          obtain ⟨front, behind, hs, hrest, hagain⟩ := ih (by simp) h
          refine ⟨front, behind, hs, hrest, fun word' rest' r' hword' hrest' ↦ ?_⟩
          rw [List.cons_append, unquoteLoop, if_neg hclose, if_pos hslash]
          exact hagain word' rest' r' hword' hrest'
        · rw [if_neg hslash] at h
          obtain ⟨⟨inner, after'⟩, hinner, heq⟩ := Option.map_eq_some_iff.mp h
          cases heq
          obtain ⟨front, behind, rfl, hrest, hagain⟩ := ih (by simp) hinner
          refine ⟨c :: front, behind, rfl, hrest, fun word' rest' r' hword' hrest' ↦ ?_⟩
          rw [List.cons_append, unquoteLoop, if_neg hclose, if_neg hslash, hagain word' rest' r' hword' hrest']
          rfl

end Squaero.Mongo
