import Squaero.Front.MongoPlan

/-!
# Commands mean what they were written for

The driver reads the tools' commands as the operation on the collection that they name. The preview writes the
name as it is, so a parenthesis in it is taken for the call's.
-/

namespace Squaero.Front

open Squaero.Lib Squaero.Mongo

/-! ## Previews -/

/-- The driver reads the preview as a `find` of a page of the collection. -/
def PreviewReads (numbers : NumberText) (name : Text) (limit offset : ℚ) : Prop :=
  mongoQueryParse (utf8 (objectPreviewQuery numbers name limit offset)) = .ok {
    op := .find
    collection := some (utf8 name)
    filter := some "\x7b\x7d".toList
    limit := if ⌊limit⌋ ≥ 1 then ⌊limit⌋ else -1
    skip := if ⌊offset⌋ > 0 then ⌊offset⌋ else -1 }

theorem length_putUtf8_le (cp : ℕ) : (putUtf8 cp).length ≤ 4 := by
  unfold putUtf8
  split_ifs <;> simp

theorem four_le_of_unicodeEscape {p : Text} {cp used : ℕ} (h : unicodeEscape p = some (cp, used)) : 4 ≤ used := by
  obtain ⟨cp', -, heq⟩ := Option.map_eq_some_iff.mp h
  split at heq
  · split_ifs at heq
    · have hused : 10 = used := (Prod.mk.inj heq).2
      omega
    · exact (Prod.mk.inj heq).2.le
  · exact (Prod.mk.inj heq).2.le

/-- A literal holds at least the characters that it says. -/
theorem exists_of_unquoteLoop_eq_some {quote : Char} {skip : ℕ} {escaped : Bool} {p s after : Text}
    (h : unquoteLoop quote skip escaped p = some (s, after)) :
    ∃ raw, p = raw ++ quote :: after ∧ s.length + skip ≤ raw.length := by
  induction p generalizing skip escaped s with
  | nil => cases h
  | cons c rest ih =>
    cases skip with
    | succ skip =>
      obtain ⟨raw, rfl, hlength⟩ := ih h
      exact ⟨c :: raw, rfl, by rw [List.length_cons]; omega⟩
    | zero =>
      have hmap {skip : ℕ} {put : Text} (hput : put.length ≤ skip + 1)
          (hmap : (unquoteLoop quote skip false rest).map (fun r ↦ (put ++ r.1, r.2)) = some (s, after)) :
          ∃ raw, c :: rest = raw ++ quote :: after ∧ s.length + 0 ≤ raw.length := by
        obtain ⟨⟨inner, after'⟩, hinner, heq⟩ := Option.map_eq_some_iff.mp hmap
        cases heq
        obtain ⟨raw, rfl, hlength⟩ := ih hinner
        refine ⟨c :: raw, rfl, ?_⟩
        simp only [List.length_append, List.length_cons]
        omega
      cases escaped with
      | true =>
        rw [unquoteLoop] at h
        by_cases hu : c = 'u'
        · rw [if_pos hu] at h
          cases hescape : unicodeEscape rest with
          | none =>
            rw [hescape] at h
            cases h
          | some r =>
            obtain ⟨cp, used⟩ := r
            rw [hescape] at h
            have hfour := four_le_of_unicodeEscape hescape
            have hput := length_putUtf8_le cp
            exact hmap (by omega) h
        · rw [if_neg hu] at h
          exact @hmap 0 [simpleEscape c] (by simp) h
      | false =>
        rw [unquoteLoop] at h
        split_ifs at h with hclose hslash
        · cases h
          exact ⟨[], by rw [hclose]; rfl, le_rfl⟩
        · obtain ⟨raw, rfl, hlength⟩ := ih h
          exact ⟨c :: raw, rfl, by rw [List.length_cons]; omega⟩
        · exact @hmap 0 [c] (by simp) h

theorem strtol_toDigits (n : ℕ) : strtol (Nat.toDigits 10 n) = (min longMax n, []) := by
  have hdigits := Json.digits_toDigits n
  obtain ⟨d, rest, hcons⟩ := List.exists_cons_of_ne_nil hdigits.1
  have hd : d.isDigit = true := hdigits.2 d (hcons ▸ .head _)
  have hskip : skipWs (Nat.toDigits 10 n) = Nat.toDigits 10 n := by
    rw [hcons]
    exact skipWs_cons (isSpace_of_isDigit hd) rest
  have hsign (c : Char) (hc : c.isDigit = false) : (Nat.toDigits 10 n).head? ≠ some c := by
    rw [hcons, List.head?_cons]
    intro hhead
    rw [Option.some.inj hhead, hc] at hd
    cases hd
  have htake : (Nat.toDigits 10 n).takeWhile Char.isDigit = Nat.toDigits 10 n :=
    List.takeWhile_eq_self_iff.mpr hdigits.2
  have hfold (digits : Text) (acc : ℕ) :
      digits.foldl (fun (n : ℤ) c ↦ n * 10 + (c.toNat - '0'.toNat : ℕ)) acc =
        (digits.foldl (fun n c ↦ n * 10 + (c.toNat - '0'.toNat)) acc : ℕ) := by
    induction digits generalizing acc with
    | nil => rfl
    | cons c digits ih =>
      rw [List.foldl_cons, List.foldl_cons, ← ih]
      push_cast
      rfl
  have hvalue := hfold (Nat.toDigits 10 n) 0
  have hnumber := Json.natOfDigits_toDigits n
  unfold Json.natOfDigits at hnumber
  rw [hnumber] at hvalue
  unfold strtol
  simp only [hskip, hsign '-' (by decide), hsign '+' (by decide), or_self, if_false, htake, hdigits.1,
    List.drop_length]
  have hrange : -longMax - 1 ≤ (n : ℤ) := by
    have hpositive : (0 : ℤ) ≤ n := Int.natCast_nonneg n
    unfold longMax
    omega
  rw [Prod.mk.injEq]
  refine ⟨?_, rfl⟩
  change max (-longMax - 1) (min longMax ((Nat.toDigits 10 n).foldl _ ((0 : ℕ) : ℤ))) = _
  rw [hvalue]
  unfold longMax at hrange ⊢
  omega

/-- The call that pages a preview. -/
def pageCall (name : String) (arg : Text) : Chained := ⟨[], [], name.toList, [], arg⟩

def pageCalls (numbers : NumberText) (limit offset : ℚ) : List Chained :=
  (if ⌊offset⌋ > 0 then [pageCall "skip" (numbers.toText ⌊offset⌋.toNat)] else []) ++
    (if ⌊limit⌋ ≥ 1 then [pageCall "limit" (numbers.toText ⌊limit⌋.toNat)] else [])

section

variable (numbers : NumberText)

theorem isOrdinary_number (n : ℕ) : ∀ c ∈ numbers.toText n, isOrdinary c = true := by
  intro c hc
  obtain hdigit | hother := numbers.chars n c hc
  · have hne (d : Char) (hd : d.isDigit = false) : c ≠ d := by
      rintro rfl
      rw [hd] at hdigit
      cases hdigit
    simp [isOrdinary, isQuote, isOpener, isCloser, hne '"' (by decide), hne '\'' (by decide),
      hne '(' (by decide), hne ')' (by decide), hne '[' (by decide), hne ']' (by decide),
      hne '{' (by decide), hne '}' (by decide)]
  · have hall : ∀ c ∈ ['.', 'e', '+'], isOrdinary c = true := by decide
    exact hall c hother

theorem ascii_number (n : ℕ) : ∀ c ∈ numbers.toText n, isWide c = false := by
  intro c hc
  obtain hdigit | hother := numbers.chars n c hc
  · exact isWide_of_isDigit hdigit
  · have hall : ∀ c ∈ ['.', 'e', '+'], isWide c = false := by decide
    exact hall c hother

theorem cut_pageCall {name : String} (hname : IsMethod name.toList) (n : ℕ) :
    (pageCall name (numbers.toText n)).Cut :=
  ⟨nofun, nofun, hname, nofun, inside_of_passes (passes_ordinary (isOrdinary_number numbers n)) (by decide)⟩

theorem trim_number (n : ℕ) : trim (numbers.toText n) = numbers.toText n := by
  have hspace : ∀ c ∈ numbers.toText n, isSpace c = false := by
    intro c hc
    obtain hdigit | hother := numbers.chars n c hc
    · exact isSpace_of_isDigit hdigit
    · have hall : ∀ c ∈ ['.', 'e', '+'], isSpace c = false := by decide
      exact hall c hother
  have hskip : skipWs (numbers.toText n) = numbers.toText n := by
    cases htext : numbers.toText n with
    | nil => rfl
    | cons c rest => exact skipWs_cons (hspace c (htext ▸ .head _)) rest
  unfold trim skipWsBack
  rw [hskip]
  refine List.rdropWhile_eq_self_iff.mpr fun hne ↦ ?_
  simp [hspace _ (List.getLast_mem hne)]

/-- A number is read as it is written, as far as `long` goes. -/
theorem strtol_number (n : ℕ) : numbers.toText n ≠ [] ∧
    ((n : ℤ) ≤ longMax → strtol (numbers.toText n) = ((n : ℤ), [])) ∧
      (¬ (n : ℤ) ≤ longMax → strtol (numbers.toText n) = (longMax, []) ∨
        skipWs (strtol (numbers.toText n)).2 ≠ []) := by
  by_cases hsmall : n < 10 ^ 21
  · rw [numbers.small n hsmall, strtol_toDigits]
    refine ⟨Nat.toDigits_ne_nil, fun hle ↦ ?_, fun hnot ↦ .inl ?_⟩
    · rw [min_eq_right hle]
    · rw [min_eq_left (by omega)]
  · obtain ⟨d, c, more, htext, hd, hc⟩ := numbers.large n (by omega)
    have hsign : d ≠ '-' ∧ d ≠ '+' := by
      constructor
      · rintro rfl
        cases hd
      · rintro rfl
        cases hd
    have hother : c.isDigit = false ∧ isSpace c = false := by
      obtain rfl | rfl := hc <;> decide
    have hbehind : (strtol (d :: c :: more)).2 = c :: more := by
      unfold strtol
      simp [skipWs_cons (isSpace_of_isDigit hd), hsign, hd, hother]
    rw [htext]
    refine ⟨List.cons_ne_nil _ _, fun hle ↦ ?_, fun _ ↦ .inr ?_⟩
    · unfold longMax at hle
      omega
    · rw [hbehind, skipWs_cons hother.2]
      exact List.cons_ne_nil _ _

/-- A call that sets a number sets the one that is written, if `long` holds it. -/
theorem set_number (n : ℕ) {run : Parse Query} (set : ℤ → Query) (get : Query → ℤ) (hget : ∀ v, get (set v) = v)
    (hrun : run = if numbers.toText n = [] ∨ skipWs (strtol (numbers.toText n)).2 ≠ [] ∨
        (strtol (numbers.toText n)).1 < 0 then
      syntaxError "limit()/skip() take a non-negative integer" else .ok (set (strtol (numbers.toText n)).1)) :
    ((n : ℤ) ≤ longMax → run = .ok (set n)) ∧
      (¬ (n : ℤ) ≤ longMax → ∀ out, run = .ok out → get out ≠ n) := by
  obtain ⟨hne, hsmall, hlarge⟩ := strtol_number numbers n
  constructor
  · intro hle
    have hskip : skipWs ([] : Text) = [] := rfl
    have hsign : ¬ (n : ℤ) < 0 := by omega
    rw [hrun, hsmall hle, if_neg (by simp [hne, hskip, hsign])]
  · intro hnot out hout
    rw [hrun] at hout
    obtain hmax | hbehind := hlarge hnot
    · rw [hmax] at hout
      split_ifs at hout
      · cases hout
      · rw [← Except.ok.inj hout, hget]
        omega
    · rw [if_pos (.inr (.inl hbehind))] at hout
      cases hout

theorem runCall_skip (n : ℕ) {out : Query} (hexplain : out.explain = none) :
    ((n : ℤ) ≤ longMax →
      runCall false out (pageCall "skip" (numbers.toText n)) = .ok { out with skip := n }) ∧
    (¬ (n : ℤ) ≤ longMax → ∀ out', runCall false out (pageCall "skip" (numbers.toText n)) = .ok out' →
      out'.skip ≠ n) := by
  refine set_number numbers n (fun v ↦ { out with skip := v }) Query.skip (fun _ ↦ rfl) ?_
  unfold runCall
  rw [if_neg (by simp [hexplain])]
  change chainCall false "skip".toList (trim (numbers.toText n)) out = _
  rw [trim_number]
  rfl

theorem runCall_limitTo (n : ℕ) {out : Query} (hexplain : out.explain = none) :
    ((n : ℤ) ≤ longMax →
      runCall false out (pageCall "limit" (numbers.toText n)) = .ok { out with limit := n }) ∧
    (¬ (n : ℤ) ≤ longMax → ∀ out', runCall false out (pageCall "limit" (numbers.toText n)) = .ok out' →
      out'.limit ≠ n) := by
  refine set_number numbers n (fun v ↦ { out with limit := v }) Query.limit (fun _ ↦ rfl) ?_
  unfold runCall
  rw [if_neg (by simp [hexplain])]
  change chainCall false "limit".toList (trim (numbers.toText n)) out = _
  rw [trim_number]
  rfl

end

theorem skip_of_limit {arg : Text} {out out' : Query} (h : Sets (pageCall "limit" arg) out out') :
    out'.skip = out.skip := by
  have hname : ∀ name : String, name ≠ "limit" → (pageCall "limit" arg).name ≠ name.toList :=
    fun name hne heq ↦ hne (String.toList_inj.mp heq).symm
  cases h with
  | explain hexplain => exact absurd hexplain (hname "explain" (by decide))
  | sort _ => rfl
  | limit _ _ => rfl
  | skip hskip _ => exact absurd hskip (hname "skip" (by decide))

theorem pageCalls_iff (numbers : NumberText) (limit offset : ℚ) (out : Query) (hexplain : out.explain = none)
    (hlimit : out.limit = -1) (hskip : out.skip = -1) :
    (pageCalls numbers limit offset).foldlM (runCall false) out = .ok { out with
      limit := if ⌊limit⌋ ≥ 1 then ⌊limit⌋ else -1
      skip := if ⌊offset⌋ > 0 then ⌊offset⌋ else -1 } ↔
      ⌊limit⌋ ≤ longMax ∧ ⌊offset⌋ ≤ longMax := by
  have hmax : 1 ≤ longMax := by decide
  -- the skip comes first, so it is there when the limit is set
  have hskips : ∀ next : Query, next.explain = none → next.limit = -1 →
      ((if ⌊limit⌋ ≥ 1 then [pageCall "limit" (numbers.toText ⌊limit⌋.toNat)] else []).foldlM (runCall false) next =
        .ok { next with limit := if ⌊limit⌋ ≥ 1 then ⌊limit⌋ else -1 } ↔ ⌊limit⌋ ≤ longMax) := by
    intro next hnext hunset
    split_ifs with hone
    · have hn : ((⌊limit⌋.toNat : ℕ) : ℤ) = ⌊limit⌋ := Int.toNat_of_nonneg (by omega)
      obtain ⟨hset, hnot⟩ := runCall_limitTo numbers ⌊limit⌋.toNat hnext
      rw [hn] at hset hnot
      constructor
      · intro h
        by_contra hle
        obtain ⟨first, second, hfirst, hsecond, hlast⟩ := calls_split.mp (h : ([] ++ [_]).foldlM _ _ = _)
        cases hfirst
        cases hlast
        exact hnot hle _ hsecond rfl
      · intro hle
        rw [List.foldlM_cons, hset hle]
        rfl
    · refine iff_of_true ?_ (by omega)
      change Except.ok next = _
      rw [← hunset]
  unfold pageCalls
  by_cases hpositive : ⌊offset⌋ > 0
  · have hm : ((⌊offset⌋.toNat : ℕ) : ℤ) = ⌊offset⌋ := Int.toNat_of_nonneg (by omega)
    obtain ⟨hset, hnot⟩ := runCall_skip numbers ⌊offset⌋.toNat hexplain
    rw [hm] at hset hnot
    rw [if_pos hpositive, if_pos hpositive, List.singleton_append, List.foldlM_cons]
    by_cases hle : ⌊offset⌋ ≤ longMax
    · rw [hset hle]
      have hnext := hskips { out with skip := ⌊offset⌋ } hexplain hlimit
      exact hnext.trans (and_iff_left hle).symm
    · refine iff_of_false (fun h ↦ ?_) fun h ↦ hle h.2
      cases hrun : runCall false out (pageCall "skip" (numbers.toText ⌊offset⌋.toNat)) with
      | error failure =>
        rw [hrun] at h
        cases h
      | ok next =>
        rw [hrun] at h
        refine hnot hle next hrun ?_
        -- the limit leaves the skip as it is
        change (if ⌊limit⌋ ≥ 1 then [pageCall "limit" (numbers.toText ⌊limit⌋.toNat)] else []).foldlM
          (runCall false) next = _ at h
        by_cases hone : ⌊limit⌋ ≥ 1
        · rw [if_pos hone, if_pos hone] at h
          obtain ⟨first, second, hfirst, hsecond, hlast⟩ := calls_split.mp (h : ([] ++ [_]).foldlM _ _ = _)
          cases hfirst
          cases hlast
          exact (skip_of_limit (sets_of_runCall hsecond).1).symm
        · rw [if_neg hone, if_neg hone] at h
          rw [Except.ok.inj h]
  · rw [if_neg hpositive, if_neg hpositive, List.nil_append]
    have hnext := hskips out hexplain hlimit
    have hsame : ({ out with
        limit := if ⌊limit⌋ ≥ 1 then ⌊limit⌋ else -1
        skip := -1 } : Query) = { out with limit := if ⌊limit⌋ ≥ 1 then ⌊limit⌋ else -1 } := by
      rw [← hskip]
    rw [hsame]
    exact hnext.trans (and_iff_left (by omega)).symm

theorem isQuote_pageCalls (numbers : NumberText) (limit offset : ℚ) :
    ∀ c ∈ callsText (pageCalls numbers limit offset), isQuote c = false := by
  have hcall (name : String) (hname : ∀ c ∈ name.toList, isQuote c = false) (n : ℕ) :
      ∀ c ∈ (pageCall name (numbers.toText n)).text, isQuote c = false := by
    intro c hc
    unfold pageCall Chained.text at hc
    simp only [List.nil_append, List.mem_cons, List.mem_append, List.not_mem_nil, or_false] at hc
    obtain rfl | hc | rfl | hc | rfl := hc
    · decide
    · exact hname c hc
    · decide
    · have hordinary := isOrdinary_number numbers n c hc
      unfold isOrdinary at hordinary
      simp only [Bool.and_eq_true, Bool.not_eq_true'] at hordinary
      exact hordinary.1.1
    · decide
  intro c hc
  obtain ⟨call, hmem, hc⟩ := List.mem_flatMap.mp hc
  obtain hmem | hmem := List.mem_append.mp hmem
  · split_ifs at hmem
    · rw [List.mem_singleton] at hmem
      exact hcall "skip" (by decide) _ c (hmem ▸ hc)
    · cases hmem
  · split_ifs at hmem
    · rw [List.mem_singleton] at hmem
      exact hcall "limit" (by decide) _ c (hmem ▸ hc)
    · cases hmem

/-- The parts of the preview's bytes. -/
def previewParts (numbers : NumberText) (name : Text) (limit offset : ℚ) : Parts where
  name := utf8 name
  method := "find".toList
  head := "db.".toList ++ (utf8 name ++ '.' :: "find".toList)
  body := "\x7b\x7d".toList
  calls := pageCalls numbers limit offset
  blanks := []
  stop := []

theorem text_previewParts (numbers : NumberText) (name : Text) (limit offset : ℚ) :
    utf8 (objectPreviewQuery numbers name limit offset) = (previewParts numbers name limit offset).text := by
  have hcall (method : String) (hmethod : ∀ c ∈ method.toList, isWide c = false) (n : ℕ) :
      utf8 (('.' :: (method.toList ++ ['('])) ++ (numbers.toText n ++ [')'])) =
        (pageCall method (numbers.toText n)).text := by
    have hdot : utf8Bytes '.' = ['.'] := by decide
    have hopen : utf8 ['('] = ['('] := by decide
    have hclose : utf8 [')'] = [')'] := by decide
    rw [utf8_append, utf8_append, utf8_of_ascii (ascii_number numbers n), utf8_cons, utf8_append,
      utf8_of_ascii hmethod, hdot, hopen, hclose]
    unfold pageCall Chained.text
    simp
  have hskip : utf8 (if max 0 ⌊offset⌋ > 0 then
      ".skip(".toList ++ (numbers.toText (max 0 ⌊offset⌋).toNat ++ [')']) else []) =
      callsText (if ⌊offset⌋ > 0 then [pageCall "skip" (numbers.toText ⌊offset⌋.toNat)] else []) := by
    by_cases hpositive : ⌊offset⌋ > 0
    · have hmax : max 0 ⌊offset⌋ = ⌊offset⌋ := max_eq_right hpositive.le
      rw [hmax, if_pos hpositive, if_pos hpositive, callsText, List.flatMap_singleton]
      exact hcall "skip" (by decide) _
    · have hmax : max 0 ⌊offset⌋ = 0 := max_eq_left (by omega)
      rw [hmax, if_neg (by decide), if_neg hpositive]
      rfl
  have hlimit : utf8 (if ⌊limit⌋ ≥ 1 then ".limit(".toList ++ (numbers.toText ⌊limit⌋.toNat ++ [')']) else []) =
      callsText (if ⌊limit⌋ ≥ 1 then [pageCall "limit" (numbers.toText ⌊limit⌋.toNat)] else []) := by
    by_cases hone : ⌊limit⌋ ≥ 1
    · rw [if_pos hone, if_pos hone, callsText, List.flatMap_singleton]
      exact hcall "limit" (by decide) _
    · rw [if_neg hone, if_neg hone]
      rfl
  have hcalls : callsText (pageCalls numbers limit offset) =
      callsText (if ⌊offset⌋ > 0 then [pageCall "skip" (numbers.toText ⌊offset⌋.toNat)] else []) ++
        callsText (if ⌊limit⌋ ≥ 1 then [pageCall "limit" (numbers.toText ⌊limit⌋.toNat)] else []) :=
    List.flatMap_append
  have hdb : utf8 "db.".toList = "db.".toList := by decide
  have hfind : utf8 ".find(\x7b\x7d)".toList = ".find(\x7b\x7d)".toList := by decide
  unfold objectPreviewQuery Parts.text previewParts
  dsimp only
  rw [utf8_append, utf8_append, utf8_append, utf8_append, hskip, hlimit, hdb, hfind, hcalls]
  simp

theorem cut_previewParts (numbers : NumberText) {name : Text} (hname : name ≠ []) (hparen : '(' ∉ name)
    (limit offset : ℚ) : (previewParts numbers name limit offset).Cut := by
  have hnil : ∀ c ∈ ([] : Text), isSpace c = true := nofun
  have hfind : MethodText "find".toList "find".toList := ⟨⟨by decide, by decide⟩, [], hnil, rfl⟩
  have hhead : CallHead (utf8 name) "find".toList ([] ++ ("db.".toList ++ (utf8 name ++ '.' :: "find".toList))) :=
    .plain hnil (utf8_ne_nil_iff.mpr hname) (fun hmem ↦ hparen ((mem_utf8_iff (by decide)).mp hmem)) hfind
  refine ⟨hhead, ?_, ?_, hnil, .inl rfl⟩
  · exact inside_of_passes (passes_bracket braces passes_nil) (by decide)
  · intro call hcall
    obtain hcall | hcall := List.mem_append.mp hcall
    · split_ifs at hcall
      · rw [List.mem_singleton] at hcall
        exact hcall ▸ cut_pageCall numbers ⟨by decide, by decide⟩ _
      · cases hcall
    · split_ifs at hcall
      · rw [List.mem_singleton] at hcall
        exact hcall ▸ cut_pageCall numbers ⟨by decide, by decide⟩ _
      · cases hcall

theorem collection_of_parts {p : Parts} (hcut : p.Cut) (hmethod : p.method ∈ queryMethods) {out : Query}
    (h : mongoQueryParse p.text = .ok out) : out.collection = some p.name := by
  unfold queryMethods at hmethod
  rw [List.mem_cons, List.mem_cons, List.mem_singleton] at hmethod
  obtain hmethod | hmethod | hmethod := hmethod
  · rw [mongoQueryParse_find hcut hmethod] at h
    obtain ⟨args, -, hcalls⟩ := readFind_eq_ok_iff.mp h
    exact (calls_keep hcalls).2.1
  · rw [mongoQueryParse_findOne hcut hmethod] at h
    unfold Parts.readFindOne at h
    split at h
    · cases h
    · split_ifs at h
      · cases h
      · rw [← Except.ok.inj h]
        rfl
  · rw [mongoQueryParse_aggregate hcut hmethod] at h
    unfold Parts.readAggregate at h
    split at h
    · cases h
    · exact (calls_keep h).2.1

theorem exists_of_unquote {lit name : Text} (h : unquote lit = some name) : ∃ front quote blanks,
    isQuote quote = true ∧ (∀ c ∈ blanks, isSpace c = true) ∧ lit = front ++ quote :: blanks ∧
      name.length < lit.length := by
  obtain ⟨lead, -, hlit⟩ := exists_skipWs lit
  unfold unquote at h
  cases hskip : skipWs lit with
  | nil =>
    rw [hskip] at h
    cases h
  | cons quote rest =>
    rw [hskip] at h
    dsimp only at h
    cases hquote : isQuote quote with
    | false =>
      rw [hquote] at h
      cases h
    | true =>
      rw [hquote] at h
      simp only [Bool.not_true, Bool.false_eq_true, if_false] at h
      cases hloop : unquoteLoop quote 0 false rest with
      | none =>
        rw [hloop] at h
        cases h
      | some r =>
        obtain ⟨s, after⟩ := r
        rw [hloop] at h
        dsimp only at h
        split_ifs at h with hafter
        obtain ⟨raw, rfl, hlength⟩ := exists_of_unquoteLoop_eq_some hloop
        rw [hskip] at hlit
        refine ⟨lead ++ quote :: raw, quote, after, hquote, List.dropWhile_eq_nil_iff.mp hafter, by rw [hlit]; simp, ?_⟩
        have hshort : (cString s).length ≤ s.length := (List.takeWhile_prefix _).length_le
        rw [← Option.some.inj h, hlit]
        simp only [List.length_append, List.length_cons]
        omega

/-- No literal says a name that it stands in. -/
theorem not_named {name rest start lit behind : Text} (hparen : '(' ∈ name) (hrest : ∀ c ∈ rest, isQuote c = false)
    (hstart : '(' ∉ start) (hunquote : unquote lit = some name)
    (h : name ++ '.' :: rest = start ++ '(' :: (lit ++ ')' :: behind)) : False := by
  obtain ⟨front, quote, blanks, hquote, hblanks, hlit, hlength⟩ := exists_of_unquote hunquote
  have hdot : quote ∉ ['.'] := by
    rw [List.mem_singleton]
    rintro rfl
    cases hquote
  obtain ⟨more, hsame, -⟩ | ⟨more, hname, hmore⟩ := List.append_eq_append_iff.mp h
  · exact hstart (hsame ▸ List.mem_append_left _ hparen)
  · cases more with
    | nil =>
      rw [List.append_nil] at hname
      exact hstart (hname ▸ hparen)
    | cons c inner =>
      obtain ⟨-, hinner⟩ := List.cons.inj hmore
      obtain ⟨behind', hlong, -⟩ | ⟨tail, hshort, htail⟩ := List.append_eq_append_iff.mp hinner
      · rw [hname, hlong] at hlength
        simp only [List.length_append, List.length_cons] at hlength
        omega
      · cases tail with
        | nil => exact absurd (List.cons.inj htail).1 (by decide)
        | cons d tail =>
          obtain ⟨rfl, hrest'⟩ := List.cons.inj htail
          obtain ⟨r, -, hquoted⟩ | ⟨r, -, hspaced⟩ :=
            append_cons_cases hdot (hlit.symm.trans hshort : front ++ quote :: blanks = inner ++ (['.'] ++ tail))
          · have hmem : quote ∈ rest := by
              rw [hrest', hquoted]
              simp
            rw [hrest quote hmem] at hquote
            cases hquote
          · exact absurd (hblanks '.' (by rw [hspaced]; simp)) (by decide)

/-- A preview is read as written, unless the name holds a parenthesis or a number does not fit. -/
theorem previewReads_iff (numbers : NumberText) {name : Text} (hname : name ≠ []) (limit offset : ℚ) :
    PreviewReads numbers name limit offset ↔ '(' ∉ name ∧ ⌊limit⌋ ≤ longMax ∧ ⌊offset⌋ ≤ longMax := by
  unfold PreviewReads
  by_cases hparen : '(' ∈ name
  · refine iff_of_false (fun h ↦ ?_) fun h ↦ h.1 hparen
    obtain ⟨p, hcut, htext, hmethod⟩ := parts_of_mongoQueryParse h (.inl rfl)
    have hcollection := collection_of_parts hcut hmethod (htext ▸ h)
    have hsame : p.name = utf8 name := (Option.some.inj hcollection).symm
    have hbytes : '(' ∈ utf8 name := (mem_utf8_iff (by decide)).mpr hparen
    have hwritten : utf8 (objectPreviewQuery numbers name limit offset) = "db.".toList ++ (utf8 name ++
        '.' :: ("find(\x7b\x7d)".toList ++ callsText (pageCalls numbers limit offset))) := by
      rw [text_previewParts]
      unfold Parts.text previewParts
      simp
    rw [hwritten] at htext
    have hhead := hcut.head
    unfold Parts.text at htext
    generalize p.head = head at hhead htext
    rw [hsame] at hhead
    cases hhead with
    | plain _ _ hnot _ => exact hnot hbytes
    | @named blanks before lit behind gap call hblanks hbefore hlit hunquote hname' hbehind hgap hcall =>
      have hblanksNil : blanks = [] := by
        cases blanks with
        | nil => rfl
        | cons c blanks =>
          have hc : 'd' = c := (List.cons.inj htext).1
          exact absurd (hblanks c (.head _)) (by rw [← hc]; decide)
      have hstart : '(' ∉ "getCollection".toList ++ before := by
        intro hmem
        obtain hmem | hmem := List.mem_append.mp hmem
        · exact absurd hmem (by decide)
        · exact absurd (hbefore _ hmem) (by decide)
      have hquotes : ∀ c ∈ "find(\x7b\x7d)".toList ++ callsText (pageCalls numbers limit offset),
          isQuote c = false := by
        intro c hc
        obtain hc | hc := List.mem_append.mp hc
        · have hall : ∀ c ∈ "find(\x7b\x7d)".toList, isQuote c = false := by decide
          exact hall c hc
        · exact isQuote_pageCalls numbers limit offset c hc
      subst hblanksNil
      have hwhole : utf8 name ++ '.' :: ("find(\x7b\x7d)".toList ++ callsText (pageCalls numbers limit offset)) =
          "getCollection".toList ++ before ++ '(' :: (lit ++ ')' :: (behind ++ '.' :: (gap ++ call) ++
            '(' :: (p.body ++ ')' :: (callsText p.calls ++ (p.blanks ++ p.stop))))) := by
        refine List.append_cancel_left (htext.trans ?_ : "db.".toList ++ _ = "db.".toList ++ _)
        simp
      exact not_named hbytes hquotes hstart hunquote hwhole
  · have hcut := cut_previewParts numbers hname hparen limit offset
    have hargs : readArgs 2 "\x7b\x7d".toList = some ["\x7b\x7d".toList] := by decide
    have hread : (previewParts numbers name limit offset).readFind =
        (pageCalls numbers limit offset).foldlM (runCall false) (findQuery (some (utf8 name)) ["\x7b\x7d".toList]) := by
      unfold Parts.readFind previewParts
      dsimp only
      rw [hargs]
    rw [text_previewParts, mongoQueryParse_find hcut rfl, hread]
    have hpages := pageCalls_iff numbers limit offset
      (findQuery (some (utf8 name)) ["\x7b\x7d".toList]) rfl rfl rfl
    exact hpages.trans (and_iff_right hparen).symm

/-! ## Tools -/

theorem spells_spacedMember {key : Text} {v : Json} {text : Text} (h : Json.Spells (.value v) text) :
    Json.Spells (.member key v) (Json.printString key ++ ':' :: ' ' :: text) := by
  have hpair := Json.Spells.pair Json.blanks_nil (Json.body_flatMap_escape key) Json.blanks_nil
    (Json.Spells.padded Json.blanks_space h Json.blanks_nil)
  rw [Json.ofUnits_toNat] at hpair
  simpa [Json.printString] using hpair

/-- The keys of an index as a document. -/
def keysDoc (columns : List Text) : List (Text × Json) := columns.map fun c ↦ (c, .num 1)

def optionsDoc (name : Text) (unique : Bool) : List (Text × Json) :=
  ("name".toList, .str name) :: if unique then [("unique".toList, .bool true)] else []

theorem spells_indexKeys (columns : List Text) : Json.Spells (.value (.obj (keysDoc columns))) (indexKeys columns) := by
  have hone : Json.Spells (.value (.num 1)) ['1'] := by
    have hnumber := Json.Spells.num (Json.isNumber_toDigits 1)
    rw [Json.numberValue_toDigits] at hnumber
    exact_mod_cast hnumber
  refine Json.spells_obj ?_
  unfold keysDoc
  induction columns with
  | nil => exact .nil
  | cons c columns ih => exact .cons (spells_spacedMember hone) ih

theorem spells_indexOptions (name : Text) (unique : Bool) :
    Json.Spells (.value (.obj (optionsDoc name unique))) (indexOptions name unique) := by
  have hname : Json.Spells (.member "name".toList (.str name))
      (Json.printString "name".toList ++ ':' :: ' ' :: Json.printString name) :=
    spells_spacedMember (Json.spells_printString name)
  have hunique : Json.Spells (.member "unique".toList (.bool true))
      (Json.printString "unique".toList ++ ':' :: ' ' :: "true".toList) :=
    spells_spacedMember (Json.Spells.bool true)
  have hkeys : Json.printString "name".toList = "\"name\"".toList ∧
      Json.printString "unique".toList = "\"unique\"".toList := by
    decide
  rw [hkeys.1] at hname
  rw [hkeys.2] at hunique
  cases unique with
  | false =>
    have hpieces : List.Forall₂ (fun (m : Text × Json) piece ↦ Json.Spells (.member m.1 m.2) piece)
        (optionsDoc name false) ["\"name\"".toList ++ ':' :: ' ' :: Json.printString name] :=
      .cons hname .nil
    have hobj := Json.spells_obj hpieces
    rw [List.intercalate_singleton] at hobj
    exact hobj
  | true =>
    have hpieces : List.Forall₂ (fun (m : Text × Json) piece ↦ Json.Spells (.member m.1 m.2) piece)
        (optionsDoc name true) ["\"name\"".toList ++ ':' :: ' ' :: Json.printString name,
          "\"unique\"".toList ++ ':' :: ' ' :: "true".toList] :=
      .cons hname (.cons hunique .nil)
    have hobj := Json.spells_obj hpieces
    rw [List.intercalate_cons_cons, List.intercalate_singleton] at hobj
    have htext : indexOptions name true = '{' :: ("\"name\"".toList ++ ':' :: ' ' :: Json.printString name ++
        ", ".toList ++ ("\"unique\"".toList ++ ':' :: ' ' :: "true".toList) ++ ['}']) := by
      unfold indexOptions
      rw [if_pos rfl]
      simp
    rw [htext]
    exact hobj

theorem depth_flat {ms : List (Text × Json)} (h : ∀ m ∈ ms, m.2.depth = 0) : (Json.obj ms).depth ≤ 1 := by
  have hmembers : Json.depthMembers ms ≤ 0 := by
    induction ms with
    | nil => exact le_rfl
    | cons m ms ih =>
      obtain ⟨hm, hms⟩ := List.forall_mem_cons.mp h
      exact max_le hm.le (ih hms)
  exact Nat.succ_le_succ hmembers

theorem utf8_indexKeys (columns : List Text) : utf8 (indexKeys columns) = indexKeys (columns.map utf8) := by
  have hkey (c : Text) : utf8 (Json.printString c ++ ": 1".toList) = Json.printString (utf8 c) ++ ": 1".toList := by
    rw [utf8_append, utf8_printString]
    rfl
  have hjoin : ∀ pieces : List Text, utf8 (", ".toList.intercalate pieces) =
      ", ".toList.intercalate (pieces.map utf8) := by
    intro pieces
    induction pieces with
    | nil => rfl
    | cons piece more ih =>
      cases more with
      | nil => simp [List.intercalate_singleton]
      | cons next more =>
        rw [List.map_cons, List.map_cons, List.intercalate_cons_cons, List.intercalate_cons_cons, utf8_append,
          utf8_append, ih]
        rfl
  have hbrace : utf8Bytes '{' = ['{'] := by decide
  unfold indexKeys
  rw [utf8_cons, utf8_append, hjoin, hbrace, List.map_map, List.map_map]
  have hpieces : (columns.map (utf8 ∘ fun c ↦ Json.printString c ++ ": 1".toList)) =
      columns.map ((fun c ↦ Json.printString c ++ ": 1".toList) ∘ utf8) :=
    List.map_congr_left fun c _ ↦ hkey c
  rw [hpieces]
  rfl

theorem utf8_indexOptions (name : Text) (unique : Bool) :
    utf8 (indexOptions name unique) = indexOptions (utf8 name) unique := by
  have hlead : utf8 "\x7b\"name\": ".toList = "\x7b\"name\": ".toList := by decide
  have htail : utf8 ((if unique then ", \"unique\": true".toList else []) ++ ['}']) =
      (if unique then ", \"unique\": true".toList else []) ++ ['}'] := by
    cases unique <;> decide
  unfold indexOptions
  rw [utf8_append, utf8_append, utf8_printString, hlead, htail]

/-- The driver reads what the tools write for a collection: the operation on it, its strings as they were
given, as far as they hold no NUL. -/
structure ToolsRead (name : Text) : Prop where
  drop : mongoQueryParse (utf8 (mongoDropSql name)) = .ok { op := .drop, collection := some (utf8 name) }
  empty : mongoQueryParse (utf8 (mongoEmptySql name)) =
    .ok { op := .deleteMany, collection := some (utf8 name), args := ["\x7b\x7d".toList] }
  indexes : mongoQueryParse (utf8 (mongoIndexListSql name)) =
    .ok { op := .getIndexes, collection := some (utf8 name) }
  rename : ∀ s, mongoQueryParse (utf8 (stringCall name "renameCollection" s)) =
    .ok { op := .rename, collection := some (utf8 name), args := [Json.printString (utf8 s)] }
  dropIndex : ∀ s, mongoQueryParse (utf8 (mongoDropIndexSql name s)) =
    .ok { op := .dropIndex, collection := some (utf8 name), args := [Json.printString (utf8 s)] }
  createIndex : ∀ index columns unique, ∃ keys options,
    mongoQueryParse (utf8 (mongoCreateIndexSql name index columns unique)) =
      .ok { op := .createIndex, collection := some (utf8 name), args := [keys, options] } ∧
    Json.Spells (.value (.obj (keysDoc (columns.map utf8)))) keys ∧
    Json.Spells (.value (.obj (optionsDoc (utf8 index) unique))) options
  literal : ∀ s, unquote (Json.printString (utf8 s)) = some (utf8 s) ↔ '\x00' ∉ s

section

variable {name : Text} (hname : name ≠ []) (hnul : '\x00' ∉ name)

include hname hnul

/-- A tool's command is read as its method on the collection. -/
theorem parse_tool {m : MethodDef} (hm : OnCollection m) {depth : ℕ} {body : Text} (hbody : Passes depth body)
    (hdepth : depth + 1 ≤ stackSize) :
    mongoQueryParse (utf8 (mongoCollRef name) ++ '.' :: (m.name.toList ++ '(' :: (body ++ [')']))) =
      parseGeneric m (splitArgs body [')']) { op := m.op, collection := some (utf8 name) } := by
  have hrefers : RefersTo (utf8 (mongoCollRef name)) (utf8 name) := by
    rw [utf8_mongoCollRef]
    refine refersTo_mongoCollRef (utf8_ne_nil_iff.mpr hname) fun hmem ↦ hnul ?_
    exact (mem_utf8_iff (by decide)).mp hmem
  rw [mongoQueryParse_call hm hrefers hbody, if_pos hdepth]

theorem toolsRead : ToolsRead name := by
  have hutf8 (rest : Text) (hrest : ∀ c ∈ rest, isWide c = false) :
      utf8 (mongoCollRef name ++ rest) = utf8 (mongoCollRef name) ++ rest := by
    rw [utf8_append, utf8_of_ascii hrest]
  have hstring (method : String) (hmethod : ∀ c ∈ method.toList, isWide c = false) (s : Text) :
      utf8 (stringCall name method s) = utf8 (mongoCollRef name) ++
        '.' :: (method.toList ++ '(' :: (Json.printString (utf8 s) ++ [')'])) := by
    have hdot : utf8Bytes '.' = ['.'] := by decide
    have hopen : utf8Bytes '(' = ['('] := by decide
    unfold stringCall
    rw [utf8_append, utf8_cons, utf8_append, utf8_cons, utf8_append, utf8_of_ascii hmethod, utf8_printString, hdot,
      hopen]
    rfl
  have hliteral (s : Text) : splitArgs (Json.printString s) [')'] = some [Json.printString s] :=
    splitArgs_string (Json.body_flatMap_escape s) [')']
  have hshape (s : Text) : shapeOk 's' (Json.printString s) = true ∧ shapeOk 'x' (Json.printString s) = true := by
    constructor <;> rfl
  refine {
    drop := ?_
    empty := ?_
    indexes := ?_
    rename := fun s ↦ ?_
    dropIndex := fun s ↦ ?_
    createIndex := fun index columns unique ↦ ?_
    literal := fun s ↦ ?_ }
  · have hm : OnCollection ⟨"drop", .drop, true, 0, "d".toList⟩ :=
      ⟨⟨by decide, by decide⟩, by decide, rfl, by decide⟩
    have hwritten := hutf8 ".drop()".toList (by decide)
    unfold mongoDropSql
    rw [hwritten]
    exact parse_tool hname hnul hm passes_nil (by decide)
  · have hm : OnCollection ⟨"deleteMany", .deleteMany, true, 1, "dd".toList⟩ :=
      ⟨⟨by decide, by decide⟩, by decide, rfl, by decide⟩
    have hwritten := hutf8 ".deleteMany(\x7b\x7d)".toList (by decide)
    unfold mongoEmptySql
    rw [hwritten]
    exact parse_tool hname hnul hm (passes_bracket braces passes_nil) (by decide)
  · have hm : OnCollection ⟨"getIndexes", .getIndexes, true, 0, []⟩ :=
      ⟨⟨by decide, by decide⟩, by decide, rfl, by decide⟩
    have hwritten := hutf8 ".getIndexes()".toList (by decide)
    unfold mongoIndexListSql
    rw [hwritten]
    exact parse_tool hname hnul hm passes_nil (by decide)
  · have hm : OnCollection ⟨"renameCollection", .rename, true, 1, "sb".toList⟩ :=
      ⟨⟨by decide, by decide⟩, by decide, rfl, by decide⟩
    rw [hstring "renameCollection" (by decide)]
    refine (parse_tool hname hnul hm (passes_printString (utf8 s)) (by decide)).trans ?_
    rw [hliteral]
    simp [parseGeneric, Option.filter, checkShapes, trim_printString, hshape, Except.map]
  · have hm : OnCollection ⟨"dropIndex", .dropIndex, true, 1, "x".toList⟩ :=
      ⟨⟨by decide, by decide⟩, by decide, rfl, by decide⟩
    unfold mongoDropIndexSql
    rw [hstring "dropIndex" (by decide)]
    refine (parse_tool hname hnul hm (passes_printString (utf8 s)) (by decide)).trans ?_
    rw [hliteral]
    simp [parseGeneric, Option.filter, checkShapes, trim_printString, hshape, Except.map]
  · have hm : OnCollection ⟨"createIndex", .createIndex, true, 1, "dd".toList⟩ :=
      ⟨⟨by decide, by decide⟩, by decide, rfl, by decide⟩
    have hkeys := spells_indexKeys (columns.map utf8)
    have hoptions := spells_indexOptions (utf8 index) unique
    have hdepthKeys : (Json.obj (keysDoc (columns.map utf8))).depth ≤ 1 := depth_flat (by simp [keysDoc, Json.depth])
    have hdepthOptions : (Json.obj (optionsDoc (utf8 index) unique)).depth ≤ 1 :=
      depth_flat (by cases unique <;> simp [optionsDoc, Json.depth])
    have hroom : 1 + 1 ≤ stackSize := by decide
    have hcomma : Passes 0 ", ".toList := passes_ordinary (by decide)
    have hbody := ((passes_of_spells hkeys).append hcomma).append (passes_of_spells hoptions)
    have hwritten : utf8 (mongoCreateIndexSql name index columns unique) = utf8 (mongoCollRef name) ++
        '.' :: ("createIndex".toList ++ '(' :: (indexKeys (columns.map utf8) ++ ", ".toList ++
          indexOptions (utf8 index) unique ++ [')'])) := by
      have hcall : utf8 ".createIndex(".toList = ".createIndex(".toList := by decide
      have hsep : utf8 ", ".toList = ", ".toList := by decide
      have hclose : utf8 [')'] = [')'] := by decide
      unfold mongoCreateIndexSql
      rw [utf8_append, utf8_append, utf8_append, utf8_append, utf8_append, utf8_indexKeys, utf8_indexOptions, hcall,
        hsep, hclose]
      simp
    refine ⟨_, _, ?_, hkeys, hoptions⟩
    rw [hwritten]
    refine (parse_tool hname hnul hm hbody ?_).trans ?_
    · change max (max (Json.obj _).depth 0) (Json.obj _).depth + 1 ≤ stackSize
      omega
    · rw [splitArgs_two hkeys (by omega) hoptions (by omega)]
      exact parseGeneric_two hkeys _ hoptions rfl (.inl rfl) (by decide)
  · rw [unquote_printString, Option.some.injEq, cString_eq_self_iff, mem_utf8_iff (by decide)]

end

/-! ## What the driver reads -/

/-- Numbers as a template writes them, of the large ones the first. -/
def roundNumbers : NumberText where
  toText n := if n < 10 ^ 21 then Nat.toDigits 10 n else "1e+21".toList
  small := fun n hn ↦ if_pos hn
  large := fun n hn ↦ ⟨'1', 'e', "+21".toList, if_neg (by omega), by decide, .inr rfl⟩
  chars := by
    intro n c hc
    split_ifs at hc with hsmall
    · exact .inl ((Json.digits_toDigits n).2 c hc)
    · have hall : ∀ c ∈ "1e+21".toList, c.isDigit = true ∨ c ∈ ['.', 'e', '+'] := by decide
      exact hall c hc

def plainFind : Text := "db.orders.find(\x7b\x7d).limit(5);".toList

def quotedExplain : Text := "db.a.find(\x7bx: \".explain(\"\x7d)".toList

def quotedExplainQuery : Query :=
  { op := .find, collection := some ['a'], filter := some "\x7bx: \".explain(\"\x7d".toList }

end Squaero.Front
