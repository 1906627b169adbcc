import Mathlib.Algebra.Ring.Parity
import Squaero.Lib.Text

/-!
# The gate of the wide call

`ifx_sql_wide_safe` of `utils/utf16.c` says which statements go through `SQLExecDirectW`, which crashes on a byte that
is not ASCII outside a literal. It counts single quotes and knows neither comments nor double quotes, so what matters
is how many apostrophes those have.
-/

namespace Squaero.Drivers.Informix

open Squaero.Lib

/-- The loop of `ifx_sql_wide_safe`. -/
def wideSafeFrom : Bool → Bool → Text → Bool
  | _, seen, [] => seen
  | true, seen, '\'' :: '\'' :: rest => wideSafeFrom true seen rest
  | inLiteral, seen, c :: rest =>
    if c = '\'' then wideSafeFrom (!inLiteral) seen rest
    else if isWide c then
      if inLiteral then wideSafeFrom inLiteral true rest else false
    else wideSafeFrom inLiteral seen rest

def ifxSqlWideSafe : Option Text → Bool
  | none => false
  | some sql => wideSafeFrom false false sql

/-! ## Statements as Informix reads them -/

inductive Region
  | code
  | single
  | double
  | line
  | brace
  | block
  deriving DecidableEq, Repr

def Region.isString (r : Region) : Bool := r = .single || r = .double

/-- Each byte with the region that it lies in. A quoted text and a comment have the bytes that open and close them. -/
def regions : Region → Text → List (Region × Char)
  | _, [] => []
  | .code, '-' :: '-' :: rest => (.line, '-') :: (.line, '-') :: regions .line rest
  | .code, '/' :: '*' :: rest => (.block, '/') :: (.block, '*') :: regions .block rest
  | .code, c :: rest =>
    if c = '\'' then (.single, c) :: regions .single rest
    else if c = '"' then (.double, c) :: regions .double rest
    else if c = '{' then (.brace, c) :: regions .brace rest
    else (.code, c) :: regions .code rest
  | .single, '\'' :: '\'' :: rest => (.single, '\'') :: (.single, '\'') :: regions .single rest
  | .single, c :: rest => (.single, c) :: regions (if c = '\'' then .code else .single) rest
  | .double, '"' :: '"' :: rest => (.double, '"') :: (.double, '"') :: regions .double rest
  | .double, c :: rest => (.double, c) :: regions (if c = '"' then .code else .double) rest
  | .line, c :: rest => (.line, c) :: regions (if c = '\n' then .code else .line) rest
  | .brace, c :: rest => (.brace, c) :: regions (if c = '}' then .code else .brace) rest
  | .block, '*' :: '/' :: rest => (.block, '*') :: (.block, '/') :: regions .code rest
  | .block, c :: rest => (.block, c) :: regions .block rest

/-- An apostrophe that neither opens nor closes a literal nor is doubled in one. -/
def isHidden (p : Region × Char) : Bool := p.2 = '\'' && p.1 ≠ .single

/-- What the gate promises: a statement that goes wide has bytes that are not ASCII, all of them in strings, and one with
such bytes, all of them in single quotes, goes wide when no apostrophe is hidden. -/
structure Guards (sql : Text) : Prop where
  sound : ifxSqlWideSafe (some sql) = true →
    (∃ b ∈ sql, isWide b = true) ∧ ∀ p ∈ regions .code sql, isWide p.2 = true → p.1.isString = true
  complete : (∃ b ∈ sql, isWide b = true) → (∀ p ∈ regions .code sql, isWide p.2 = true → p.1 = .single) →
    (∀ p ∈ regions .code sql, isHidden p = false) → ifxSqlWideSafe (some sql) = true

theorem map_snd_regions (r : Region) (sql : Text) : (regions r sql).map Prod.snd = sql := by
  fun_induction regions r sql <;> simp_all

/-! ## Counting quotes -/

/-- The gate by the parity of the apostrophes so far. -/
def parityFrom (inLiteral seen : Bool) : Text → Bool
  | [] => seen
  | c :: rest =>
    if c = '\'' then parityFrom (!inLiteral) seen rest
    else if isWide c then inLiteral && parityFrom inLiteral true rest
    else parityFrom inLiteral seen rest

/-- A doubled quote changes the state twice. -/
theorem wideSafeFrom_eq (inLiteral seen : Bool) (sql : Text) :
    wideSafeFrom inLiteral seen sql = parityFrom inLiteral seen sql := by
  fun_induction wideSafeFrom inLiteral seen sql with
  | case1 => rfl
  | case2 seen rest ih => rw [ih, parityFrom, if_pos rfl, parityFrom, if_pos rfl, Bool.not_not]
  | case3 inLiteral seen rest hdouble ih => rw [ih, parityFrom, if_pos rfl]
  | case4 seen c rest hquote hwide hdouble ih => rw [ih, parityFrom, if_neg hquote, if_pos hwide, Bool.true_and]
  | case5 inLiteral seen c rest hdouble hquote hwide hin =>
    rw [parityFrom, if_neg hquote, if_pos hwide, Bool.eq_false_iff.mpr hin, Bool.false_and]
  | case6 inLiteral seen c rest hdouble hquote hwide ih => rw [ih, parityFrom, if_neg hquote, if_neg hwide]

/-- The gate over regions, `odd` saying whether the apostrophes hidden so far are odd in number. -/
def readsFrom (odd seen : Bool) : List (Region × Char) → Bool
  | [] => seen
  | p :: rest =>
    if isWide p.2 then (decide (p.1 = .single) ^^ odd) && readsFrom odd true rest
    else readsFrom (odd ^^ isHidden p) seen rest

theorem not_isWide_quote {c : Char} (h : c = '\'') : isWide c = false := by
  rw [h]
  rfl

/-- One byte of region `q` between region `r` and region `r'`. -/
theorem parityFrom_cons {r q : Region} (r' : Region) {c : Char} {rest : Text} {ps : List (Region × Char)}
    (hquote : c = '\'' → (decide (r' = .single) ^^ decide (q ≠ .single)) = !decide (r = .single))
    (hother : c ≠ '\'' → (r' = .single ↔ r = .single) ∧ (q = .single ↔ r = .single))
    (ih : ∀ odd seen, parityFrom (decide (r' = .single) ^^ odd) seen rest = readsFrom odd seen ps) (odd seen : Bool) :
    parityFrom (decide (r = .single) ^^ odd) seen (c :: rest) = readsFrom odd seen ((q, c) :: ps) := by
  rw [parityFrom, readsFrom]
  by_cases hc : c = '\''
  · have hhidden : isHidden (q, c) = decide (q ≠ .single) := by
      rw [isHidden, decide_eq_true hc, Bool.true_and]
    have hstate : (!(decide (r = .single) ^^ odd)) = (decide (r' = .single) ^^ (odd ^^ isHidden (q, c))) := by
      rw [hhidden, ← Bool.not_xor, ← hquote hc]
      simp only [Bool.xor_assoc, Bool.xor_comm odd]
    rw [if_pos hc, not_isWide_quote hc, if_neg Bool.false_ne_true, hstate, ih]
  · obtain ⟨hnext, hregion⟩ := hother hc
    have hhidden : isHidden (q, c) = false := by
      rw [isHidden, decide_eq_false hc, Bool.false_and]
    rw [if_neg hc, hhidden, Bool.xor_false, ← ih odd seen, ← ih odd true]
    simp only [hnext, hregion]

/-- Outside single quotes every apostrophe is hidden. -/
theorem parityFrom_cons_outside {r q r' : Region} {c : Char} {rest : Text} {ps : List (Region × Char)}
    (hr : r ≠ .single) (hq : q ≠ .single) (hr' : r' ≠ .single)
    (ih : ∀ odd seen, parityFrom (decide (r' = .single) ^^ odd) seen rest = readsFrom odd seen ps) (odd seen : Bool) :
    parityFrom (decide (r = .single) ^^ odd) seen (c :: rest) = readsFrom odd seen ((q, c) :: ps) := by
  refine parityFrom_cons r' (fun _ ↦ ?_) (fun _ ↦ ⟨iff_of_false hr' hr, iff_of_false hq hr⟩) ih odd seen
  rw [decide_eq_false hr', decide_eq_true hq, decide_eq_false hr]
  rfl

theorem ite_ne_single {p : Prop} [Decidable p] {r r' : Region} (hr : r ≠ .single) (hr' : r' ≠ .single) :
    (if p then r else r') ≠ .single := by
  split_ifs
  · exact hr
  · exact hr'

/-- The gate counts rightly but for what is hidden. -/
theorem parityFrom_regions (r : Region) (sql : Text) (odd seen : Bool) :
    parityFrom (decide (r = .single) ^^ odd) seen sql = readsFrom odd seen (regions r sql) := by
  have hcode : Region.code ≠ .single := by decide
  have hdouble : Region.double ≠ .single := by decide
  have hline : Region.line ≠ .single := by decide
  have hbrace : Region.brace ≠ .single := by decide
  have hblock : Region.block ≠ .single := by decide
  fun_induction regions r sql generalizing odd seen with
  | case1 => rfl
  | case2 rest ih =>
    exact parityFrom_cons_outside hcode hline hline (parityFrom_cons_outside hline hline hline ih) odd seen
  | case3 rest ih =>
    exact parityFrom_cons_outside hcode hblock hblock (parityFrom_cons_outside hblock hblock hblock ih) odd seen
  | case4 rest hdashes hslash ih => exact parityFrom_cons .single (by decide) (by decide) ih odd seen
  | case5 rest hdashes hslash hquote ih => exact parityFrom_cons_outside hcode hdouble hdouble ih odd seen
  | case6 rest hdashes hslash hquote hdouble' ih => exact parityFrom_cons_outside hcode hbrace hbrace ih odd seen
  | case7 c rest hdashes hslash hquote hdouble' hbrace' ih => exact parityFrom_cons_outside hcode hcode hcode ih odd seen
  | case8 rest ih =>
    exact parityFrom_cons .code (by decide) (by decide) (parityFrom_cons .single (by decide) (by decide) ih) odd seen
  | case9 c rest hdoubled ih =>
    refine parityFrom_cons _ (fun hc ↦ ?_) (fun hc ↦ ?_) ih odd seen
    · rw [if_pos hc]
      rfl
    · rw [if_neg hc]
      exact ⟨Iff.rfl, Iff.rfl⟩
  | case10 rest ih =>
    exact parityFrom_cons_outside hdouble hdouble hdouble (parityFrom_cons_outside hdouble hdouble hdouble ih) odd seen
  | case11 c rest hdoubled ih =>
    exact parityFrom_cons_outside hdouble hdouble (ite_ne_single hcode hdouble) ih odd seen
  | case12 c rest ih => exact parityFrom_cons_outside hline hline (ite_ne_single hcode hline) ih odd seen
  | case13 c rest ih => exact parityFrom_cons_outside hbrace hbrace (ite_ne_single hcode hbrace) ih odd seen
  | case14 rest ih =>
    exact parityFrom_cons_outside hblock hblock hblock (parityFrom_cons_outside hblock hblock hcode ih) odd seen
  | case15 c rest hclose ih => exact parityFrom_cons_outside hblock hblock hblock ih odd seen

/-- A property of all places behind something, place by place. -/
theorem forall_places_cons {α : Type} {motive : List α → α → Prop} (p : α) (ps : List α) :
    (∀ before q after, p :: ps = before ++ q :: after → motive before q) ↔
      motive [] p ∧ ∀ before q after, ps = before ++ q :: after → motive (p :: before) q := by
  constructor
  · exact fun h ↦ ⟨h [] p ps rfl, fun before q after hps ↦ h (p :: before) q after (by rw [hps]; rfl)⟩
  · rintro ⟨hfirst, hmore⟩ before q after hps
    cases before with
    | nil =>
      rw [List.nil_append] at hps
      rw [← (List.cons_eq_cons.mp hps).1]
      exact hfirst
    | cons r before =>
      rw [List.cons_append] at hps
      rw [← (List.cons_eq_cons.mp hps).1]
      exact hmore before q after (List.cons_eq_cons.mp hps).2

theorem parity_succ (n : ℕ) : decide ((n + 1) % 2 = 1) = !decide (n % 2 = 1) := by
  rw [Bool.eq_iff_iff]
  simp only [decide_eq_true_eq, Bool.not_eq_true', decide_eq_false_iff_not]
  omega

/-- What the gate looks at: at every byte that is not ASCII, single quotes or an odd number of hidden apostrophes. -/
theorem readsFrom_iff (odd seen : Bool) (ps : List (Region × Char)) : readsFrom odd seen ps = true ↔
    (seen = true ∨ ∃ p ∈ ps, isWide p.2 = true) ∧ ∀ before p after, ps = before ++ p :: after → isWide p.2 = true →
      (decide (p.1 = .single) ^^ (odd ^^ decide (before.countP isHidden % 2 = 1))) = true := by
  induction ps generalizing odd seen with
  | nil => simp [readsFrom]
  | cons p ps ih =>
    rw [forall_places_cons (motive := fun before p ↦ isWide p.2 = true →
      (decide (p.1 = .single) ^^ (odd ^^ decide (before.countP isHidden % 2 = 1))) = true), readsFrom]
    by_cases hwide : isWide p.2 = true
    · have hhidden : isHidden p = false := by
        rw [isHidden, decide_eq_false, Bool.false_and]
        intro hquote
        rw [not_isWide_quote hquote] at hwide
        cases hwide
      have hcount (before : List (Region × Char)) : (p :: before).countP isHidden = before.countP isHidden :=
        List.countP_cons_of_neg (Bool.eq_false_iff.mp hhidden)
      simp only [if_pos hwide, Bool.and_eq_true, ih, hcount, List.countP_nil]
      simp [hwide]
    · have hseen : (∃ q ∈ p :: ps, isWide q.2 = true) ↔ ∃ q ∈ ps, isWide q.2 = true := by
        rw [List.exists_mem_cons_iff, or_iff_right hwide]
      rw [if_neg hwide, ih, hseen, and_iff_right fun h ↦ absurd h hwide]
      refine and_congr_right fun _ ↦ forall₅_congr fun before q after hps hq ↦ ?_
      cases hhidden : isHidden p with
      | false => rw [List.countP_cons_of_neg (Bool.eq_false_iff.mp hhidden), Bool.xor_false]
      | true => rw [List.countP_cons_of_pos hhidden, parity_succ, Bool.xor_true, Bool.not_xor, Bool.xor_not, Bool.xor_not,
          Bool.xor_not]

/-- When a statement goes wide. -/
theorem ifxSqlWideSafe_iff (sql : Text) : ifxSqlWideSafe (some sql) = true ↔
    (∃ b ∈ sql, isWide b = true) ∧ ∀ before p after, regions .code sql = before ++ p :: after → isWide p.2 = true →
      ¬(p.1 = .single ↔ Odd (before.countP isHidden)) := by
  have hstart : ifxSqlWideSafe (some sql) = readsFrom false false (regions .code sql) := by
    rw [ifxSqlWideSafe, wideSafeFrom_eq]
    exact parityFrom_regions .code sql false false
  have hwide : (∃ p ∈ regions .code sql, isWide p.2 = true) ↔ ∃ b ∈ sql, isWide b = true := by
    conv_rhs => rw [← map_snd_regions .code sql]
    simp only [List.mem_map, exists_exists_and_eq_and]
  rw [hstart, readsFrom_iff, or_iff_right Bool.false_ne_true, hwide]
  refine and_congr_right fun _ ↦ forall₅_congr fun before p after hps hp ↦ ?_
  rw [Bool.false_xor, Nat.odd_iff]
  exact bne_iff_ne.trans (not_congr decide_eq_decide)

/-- The gate keeps its promise if and only if no byte that is not ASCII lies outside strings, or one such byte lies in
single quotes behind an odd number of hidden apostrophes, or elsewhere behind an even number. -/
theorem ifxSqlWideSafe_guards_iff (sql : Text) : Guards sql ↔
    (∀ p ∈ regions .code sql, isWide p.2 = true → p.1.isString = true) ∨
      ∃ before p after, regions .code sql = before ++ p :: after ∧ isWide p.2 = true ∧
        (p.1 = .single ↔ Odd (before.countP isHidden)) := by
  constructor
  · intro h
    by_contra hnot
    rw [not_or] at hnot
    obtain ⟨hout, hmisled⟩ := hnot
    refine hout fun p hp hwide ↦ (h.sound ((ifxSqlWideSafe_iff sql).mpr ⟨?_, ?_⟩)).2 p hp hwide
    · exact ⟨p.2, map_snd_regions .code sql ▸ List.mem_map_of_mem hp, hwide⟩
    · exact fun before q after hps hq hsame ↦ hmisled ⟨before, q, after, hps, hq, hsame⟩
  · intro h
    refine ⟨fun hsafe ↦ ?_, fun hwide hsingle hplain ↦ ?_⟩
    · obtain ⟨hwide, hplaces⟩ := (ifxSqlWideSafe_iff sql).mp hsafe
      refine ⟨hwide, h.resolve_right ?_⟩
      rintro ⟨before, p, after, hps, hp, hsame⟩
      exact hplaces before p after hps hp hsame
    · refine (ifxSqlWideSafe_iff sql).mpr ⟨hwide, fun before p after hps hp hsame ↦ ?_⟩
      have hnone : before.countP isHidden = 0 :=
        List.countP_eq_zero.mpr fun q hq ↦ Bool.eq_false_iff.mp (hplain q (hps ▸ List.mem_append_left _ hq))
      have hodd := hsame.mp (hsingle p (hps ▸ List.mem_append_right _ List.mem_cons_self) hp)
      rw [hnone] at hodd
      exact absurd hodd (by decide)

/-- An apostrophe in a comment: what is behind it passes for a literal. -/
theorem comment_misleads : ¬Guards "-- it's\nSELECT a\xC3\xB1o FROM t".toList := by
  intro h
  have hsafe : ifxSqlWideSafe (some "-- it's\nSELECT a\xC3\xB1o FROM t".toList) = true := by decide +kernel
  have hout : ∃ p ∈ regions .code "-- it's\nSELECT a\xC3\xB1o FROM t".toList,
      isWide p.2 = true ∧ p.1.isString = false := by decide +kernel
  obtain ⟨p, hp, hwide, hnot⟩ := hout
  rw [(h.sound hsafe).2 p hp hwide] at hnot
  cases hnot

end Squaero.Drivers.Informix
