import Mathlib.Data.List.Basic

/-!
# Lossless lexers

A lexer by longest match: in a mode it reads one character, which either goes on with the tokens that are
pending or completes them and starts the next. Nothing is dropped, so the tokens of a text make up the text,
and a token ends where the mode behind it does not go on.

`Item` is a character or a hole, which stands for one token of the text. Filling the holes with other texts
leaves every other token alone exactly when nothing joins what fills them.
-/

namespace Squaero.Lib

universe u v w

/-- `pieces` are the tokens that a mode completes when nothing goes on with it. -/
structure Lexer (α : Type u) (μ : Type v) where
  idle : μ
  start : α → μ
  more : μ → α → Option μ
  pieces : μ → List (List α)
  more_idle : ∀ c, more idle c = none
  pieces_idle : pieces idle = []
  flatten_start : ∀ c, (pieces (start c)).flatten = [c]
  flatten_more : ∀ m c m', more m c = some m' → (pieces m').flatten = (pieces m).flatten ++ [c]

namespace Lexer

variable {α : Type u} {μ : Type v} (lexer : Lexer α μ)

/-- The mode behind a character. -/
def next (m : μ) (c : α) : μ := (lexer.more m c).getD (lexer.start c)

/-- The tokens of a text and of what is pending before it. -/
def scan : μ → List α → List (List α)
  | m, [] => lexer.pieces m
  | m, c :: rest =>
    match lexer.more m c with
    | some m' => scan m' rest
    | none => lexer.pieces m ++ scan (lexer.start c) rest

attribute [local grind =] scan

def tokens (text : List α) : List (List α) := lexer.scan lexer.idle text

/-- The mode behind a text. -/
def modeAfter (m : μ) (text : List α) : μ := text.foldl lexer.next m

variable {lexer} {m m' : μ} {c : α} {rest : List α}

theorem scan_more (h : lexer.more m c = some m') : lexer.scan m (c :: rest) = lexer.scan m' rest := by
  rw [scan, h]

theorem next_more (h : lexer.more m c = some m') : lexer.next m c = m' := by
  rw [next, h]
  rfl

theorem next_start (h : lexer.more m c = none) : lexer.next m c = lexer.start c := by
  rw [next, h]
  rfl

theorem scan_idle_cons : lexer.scan lexer.idle (c :: rest) = lexer.scan (lexer.start c) rest := by
  rw [scan, lexer.more_idle, lexer.pieces_idle]
  rfl

/-- A character that does not go on completes what is pending. -/
theorem scan_cut (h : lexer.more m c = none) :
    lexer.scan m (c :: rest) = lexer.pieces m ++ lexer.scan lexer.idle (c :: rest) := by
  rw [scan_idle_cons, scan, h]

theorem scan_of_ends {text : List α} (h : ∀ c, text.head? = some c → lexer.more m c = none) :
    lexer.scan m text = lexer.pieces m ++ lexer.scan lexer.idle text := by
  cases text with
  | nil => simp [scan, lexer.pieces_idle]
  | cons c rest => exact scan_cut (h c rfl)

end Lexer

/-- No token of a list ends inside its token `t`. -/
theorem not_boundary {α : Type u} {done before after : List (List α)} {t l : List α} {ts : List (List α)}
    (h : done ++ t :: ts = before ++ after) (hbefore : before.flatten = done.flatten ++ l) (hl : l ≠ []) :
    t.length ≤ l.length := by
  obtain ⟨more, rfl, hmore⟩ | ⟨more, rfl, hmore⟩ := List.append_eq_append_iff.mp h
  · cases more with
    | nil => exact absurd (by simpa using hbefore) hl
    | cons t' more =>
      obtain ⟨rfl, -⟩ := List.cons.inj hmore
      rw [List.flatten_append, List.append_cancel_left_eq] at hbefore
      rw [← hbefore, List.flatten_cons, List.length_append]
      exact Nat.le_add_right _ _
  · have hlength := congrArg List.length hbefore
    simp only [List.flatten_append, List.length_append] at hlength
    have hl := List.length_pos_iff.mpr hl
    omega

/-- The tokens behind ones that make up the same text are the same. -/
theorem eq_of_flatten_eq {α : Type u} {before after a ts : List (List α)} {x t : List α}
    (h : before ++ x :: after = a ++ t :: ts) (hflat : before.flatten = a.flatten) (hx : x ≠ []) (ht : t ≠ []) :
    before = a ∧ x = t ∧ after = ts := by
  obtain ⟨more, rfl, hmore⟩ | ⟨more, rfl, hmore⟩ := List.append_eq_append_iff.mp h
  all_goals
    cases more with
    | nil => simpa [eq_comm] using hmore
    | cons y more =>
      obtain ⟨rfl, -⟩ := List.cons.inj hmore
      simp_all

/-- Lists of tokens that begin the same list and make up texts of the same length are the same. -/
theorem eq_of_flatten_length {α : Type u} {a b x y : List (List α)} (h : a ++ x = b ++ y)
    (hlength : a.flatten.length = b.flatten.length) (ha : [] ∉ a) (hb : [] ∉ b) : a = b := by
  have hempty {more : List (List α)} (hnot : [] ∉ more) (hflat : more.flatten.length = 0) : more = [] := by
    cases more with
    | nil => rfl
    | cons t more =>
      simp only [List.flatten_cons, List.length_append, Nat.add_eq_zero_iff, List.length_eq_zero_iff] at hflat
      exact absurd (hflat.1 ▸ List.mem_cons_self) hnot
  obtain ⟨more, rfl, -⟩ | ⟨more, rfl, -⟩ := List.append_eq_append_iff.mp h
  · have hmore : more = [] := hempty (fun hmem ↦ hb (List.mem_append_right _ hmem)) (by simpa using hlength)
    rw [hmore, List.append_nil]
  · have hmore : more = [] := hempty (fun hmem ↦ ha (List.mem_append_right _ hmem)) (by simpa using hlength)
    rw [hmore, List.append_nil]

/-! ## Holes in a text -/

inductive Item (α : Type u) (ι : Type v)
  | char (c : α)
  | hole (i : ι)

/-- A token of a text, or one that a hole stands for. -/
inductive Marked (α : Type u) (ι : Type v)
  | token (t : List α)
  | hole (i : ι)

section

variable {α : Type u} {ι : Type v}

def Item.text (fill : ι → List α) : Item α ι → List α
  | .char c => [c]
  | .hole i => fill i

def Marked.text (fill : ι → List α) : Marked α ι → List α
  | .token t => t
  | .hole i => fill i

def Marked.items : Marked α ι → List (Item α ι)
  | .token t => t.map .char
  | .hole i => [.hole i]

/-- Other tokens for the holes. -/
def Marked.filled (lits : ι → List (List α)) : Marked α ι → List (List α)
  | .token t => [t]
  | .hole i => lits i

attribute [local grind =] Marked.filled

theorem flatMap_text_items (fill : ι → List α) (marked : List (Marked α ι)) :
    (marked.flatMap Marked.items).flatMap (Item.text fill) = (marked.map (Marked.text fill)).flatten := by
  have htoken (t : List α) : (t.map Item.char).flatMap (Item.text fill) = t := by
    rw [List.flatMap_map]
    exact List.flatMap_singleton' t
  induction marked with
  | nil => rfl
  | cons x marked ih =>
    rw [List.flatMap_cons, List.flatMap_append, ih, List.map_cons, List.flatten_cons]
    cases x with
    | token t => rw [Marked.items, Marked.text, htoken]
    | hole i => simp [Marked.items, Marked.text, Item.text]

/-- Without a hole there is nothing to fill. -/
theorem filled_of_chars (fill : ι → List α) (lits : ι → List (List α)) {marked : List (Marked α ι)}
    {text : List α} (h : marked.flatMap Marked.items = text.map .char) :
    marked.flatMap (Marked.filled lits) = marked.map (Marked.text fill) := by
  have hno (i : ι) : Marked.hole i ∉ marked := by
    intro hmem
    have hchar : Item.hole i ∈ text.map (Item.char (ι := ι)) := h ▸ List.mem_flatMap.mpr ⟨_, hmem, by simp [Marked.items]⟩
    simp at hchar
  clear h
  induction marked with
  | nil => rfl
  | cons x marked ih =>
    rw [List.flatMap_cons, List.map_cons, ih fun i hmem ↦ hno i (List.mem_cons_of_mem _ hmem)]
    cases x with
    | token t => rfl
    | hole i => exact absurd List.mem_cons_self (hno i)

/-- Behind a token without holes the first hole is still to come. -/
theorem split_chars {t text : List α} {i : ι} {others rest : List (Item α ι)}
    (h : t.map .char ++ others = text.map .char ++ .hole i :: rest) :
    ∃ text', text = t ++ text' ∧ others = text'.map .char ++ .hole i :: rest := by
  induction t generalizing text with
  | nil => exact ⟨text, rfl, h⟩
  | cons c t ih =>
    cases text with
    | nil => exact absurd (List.cons.inj h).1 nofun
    | cons c' text =>
      obtain ⟨hc, h⟩ := List.cons.inj h
      obtain ⟨text', rfl, hothers⟩ := ih h
      exact ⟨text', congrArg (· :: _) (Item.char.inj hc).symm, hothers⟩

/-- The first hole of a marked text. -/
theorem split_hole {marked : List (Marked α ι)} {text : List α} {i : ι} {rest : List (Item α ι)}
    (h : marked.flatMap Marked.items = text.map .char ++ .hole i :: rest) :
    ∃ before after, marked = before ++ .hole i :: after ∧ before.flatMap Marked.items = text.map .char ∧
      after.flatMap Marked.items = rest := by
  induction marked generalizing text with
  | nil => simp at h
  | cons x marked ih =>
    rw [List.flatMap_cons] at h
    cases x with
    | token t =>
      obtain ⟨text', rfl, hothers⟩ := split_chars h
      obtain ⟨before, after, rfl, hbefore, hafter⟩ := ih hothers
      exact ⟨.token t :: before, after, rfl, by simp [hbefore, Marked.items], hafter⟩
    | hole j =>
      cases text with
      | nil =>
        obtain ⟨hij, hrest⟩ := List.cons.inj h
        obtain rfl := Item.hole.inj hij
        exact ⟨[], marked, rfl, rfl, hrest⟩
      | cons c text => exact absurd (List.cons.inj h).1 nofun

/-- Where the tokens before it make up the same text, the marked tokens are cut alike. -/
theorem split_items {fill : ι → List α} (hfill : ∀ i, fill i ≠ []) {begun others rest : List (Item α ι)}
    {text : List α} (htext : begun.flatMap (Item.text fill) = text)
    (h : begun ++ others = text.map .char ++ rest) : begun = text.map .char ∧ others = rest := by
  have hchars (l : List α) : (l.map Item.char).flatMap (Item.text fill) = l := by
    rw [List.flatMap_map]
    exact List.flatMap_singleton' l
  have hnone {more : List (Item α ι)} (hmore : more.flatMap (Item.text fill) = []) : more = [] := by
    cases more with
    | nil => rfl
    | cons x more =>
      rw [List.flatMap_cons, List.append_eq_nil_iff] at hmore
      cases x with
      | char c => exact absurd hmore.1 (List.cons_ne_nil _ _)
      | hole i => exact absurd hmore.1 (hfill i)
  obtain ⟨more, hmore, hrest⟩ | ⟨more, hmore, hrest⟩ := List.append_eq_append_iff.mp h
  · have hnil : more = [] := hnone (by
      have hsame := congrArg (List.flatMap (Item.text fill)) hmore
      rw [hchars, List.flatMap_append, htext] at hsame
      simpa using hsame)
    rw [hnil, List.append_nil] at hmore
    rw [hnil, List.nil_append] at hrest
    exact ⟨hmore.symm, hrest⟩
  · have hnil : more = [] := hnone (by
      rw [hmore, List.flatMap_append, hchars] at htext
      simpa using htext)
    rw [hnil, List.append_nil] at hmore
    rw [hnil, List.nil_append] at hrest
    exact ⟨hmore, hrest.symm⟩

end

namespace Lexer

variable {α : Type u} {μ : Type v} {ι : Type w} (lexer : Lexer α μ)

/-- The tokens of a text, the ones that the holes stand for marked. -/
structure Marks (src : ι → List α) (items : List (Item α ι)) (marked : List (Marked α ι)) : Prop where
  tokens : marked.map (Marked.text src) = lexer.tokens (items.flatMap (Item.text src))
  items : marked.flatMap Marked.items = items

/-- What fills a hole is a token, whatever is pending before it. -/
structure IsToken (src : ι → List α) (m : μ) (i : ι) (rest : List α) : Prop where
  scan : lexer.scan m (src i ++ rest) = lexer.pieces m ++ src i :: lexer.scan lexer.idle rest
  ends : ∀ c, rest.head? = some c → lexer.more (lexer.modeAfter m (src i)) c = none

/-- Every hole is a token. -/
def Sound (src : ι → List α) : μ → List (Item α ι) → Prop
  | _, [] => True
  | m, .char c :: rest => Sound src (lexer.next m c) rest
  | m, .hole i :: rest =>
    IsToken lexer src m i (rest.flatMap (Item.text src)) ∧ Sound src lexer.idle rest

/-- The tokens of a text with other ones in its holes. -/
def woven (lits : ι → List (List α)) : μ → List (Item α ι) → List (List α)
  | m, [] => lexer.pieces m
  | m, .char c :: rest =>
    match lexer.more m c with
    | some m' => woven lits m' rest
    | none => lexer.pieces m ++ woven lits (lexer.start c) rest
  | m, .hole i :: rest => lexer.pieces m ++ (lits i ++ woven lits lexer.idle rest)

attribute [local grind =] woven

variable {lexer} {src : ι → List α}

/-- Where the tokens of a text are marked, every hole is one of them. -/
theorem sound_of_marked (hsrc : ∀ i, src i ≠ [])
    (htoken : ∀ m i rest before after, lexer.scan m (src i ++ rest) = before ++ src i :: after →
      before.flatten = (lexer.pieces m).flatten →
      before = lexer.pieces m ∧ after = lexer.scan lexer.idle rest ∧ IsToken lexer src m i rest)
    {m : μ} {items : List (Item α ι)} {marked : List (Marked α ι)}
    (hscan : marked.map (Marked.text src) = lexer.scan m (items.flatMap (Item.text src)))
    (hitems : marked.flatMap Marked.items = (lexer.pieces m).flatten.map .char ++ items) :
    Sound lexer src m items ∧ ∀ lits, marked.flatMap (Marked.filled lits) = woven lexer lits m items := by
  induction items generalizing m marked with
  | nil =>
    rw [List.append_nil] at hitems
    exact ⟨trivial, fun lits ↦ (filled_of_chars src lits hitems).trans hscan⟩
  | cons x items ih =>
    cases x with
    | char c =>
      rw [List.flatMap_cons, Item.text, List.singleton_append] at hscan
      cases hmore : lexer.more m c with
      | some m' =>
        have hitems' : marked.flatMap Marked.items = (lexer.pieces m').flatten.map .char ++ items := by
          rw [lexer.flatten_more m c m' hmore, hitems]
          simp
        rw [scan_more hmore] at hscan
        obtain ⟨hsound, hwoven⟩ := ih hscan hitems'
        refine ⟨?_, fun lits ↦ ?_⟩
        · rw [Sound, next_more hmore]
          exact hsound
        · rw [hwoven, woven, hmore]
      | none =>
        rw [scan_cut hmore, scan_idle_cons] at hscan
        obtain ⟨done, marked, rfl, hdone, hmarked⟩ := List.map_eq_append_iff.mp hscan
        rw [List.flatMap_append] at hitems
        have htext : (done.flatMap Marked.items).flatMap (Item.text src) = (lexer.pieces m).flatten := by
          rw [flatMap_text_items, hdone]
        obtain ⟨hchars, hrest⟩ := split_items hsrc htext hitems
        obtain ⟨hsound, hwoven⟩ := ih hmarked (by rw [hrest, lexer.flatten_start]; rfl)
        refine ⟨?_, fun lits ↦ ?_⟩
        · rw [Sound, next_start hmore]
          exact hsound
        · rw [List.flatMap_append, filled_of_chars src lits hchars, hdone, hwoven, woven, hmore]
    | hole i =>
      rw [List.flatMap_cons, Item.text] at hscan
      obtain ⟨before, after, rfl, hbefore, hafter⟩ := split_hole hitems
      have htext : (before.map (Marked.text src)).flatten = (lexer.pieces m).flatten := by
        rw [← flatMap_text_items, hbefore, List.flatMap_map]
        exact List.flatMap_singleton' _
      rw [List.map_append, List.map_cons, Marked.text] at hscan
      obtain ⟨hpieces, hrest, hread⟩ := htoken m i _ _ _ hscan.symm htext
      obtain ⟨hsound, hwoven⟩ := ih hrest (by rw [hafter, lexer.pieces_idle]; rfl)
      refine ⟨⟨hread, hsound⟩, fun lits ↦ ?_⟩
      rw [List.flatMap_append, List.flatMap_cons, filled_of_chars src lits hbefore, hpieces, hwoven, woven]
      rfl

/-! ## Filling the holes -/

/-- No hole is right behind another one. -/
def Separated : List (Item α ι) → Prop
  | [] => True
  | .char _ :: rest => Separated rest
  | .hole _ :: rest => (∀ i, rest.head? ≠ some (.hole i)) ∧ Separated rest

/-- Nothing `joins` what fills a hole, in the mode behind the text before it. -/
def Apart (lexer : Lexer α μ) (src : ι → List α) (joins : μ → ι → List α → Prop) :
    μ → List (Item α ι) → Prop
  | _, [] => True
  | m, .char c :: rest => Apart lexer src joins (lexer.next m c) rest
  | m, .hole i :: rest => ¬ joins m i (rest.flatMap (Item.text src)) ∧
    Apart lexer src joins (lexer.modeAfter m (src i)) rest

variable {joins : μ → ι → List α → Prop}

theorem apart_iff {m : μ} {items : List (Item α ι)} :
    Apart lexer src joins m items ↔ ∀ before i after, items = before ++ .hole i :: after →
      ¬ joins (lexer.modeAfter m (before.flatMap (Item.text src))) i (after.flatMap (Item.text src)) := by
  induction items generalizing m with
  | nil => simp [Apart]
  | cons x items ih =>
    have hafter (text : List α) (before : List (Item α ι)) : lexer.modeAfter m (text ++ before.flatMap (Item.text src)) =
        lexer.modeAfter (lexer.modeAfter m text) (before.flatMap (Item.text src)) := List.foldl_append
    cases x with
    | char c =>
      rw [Apart, ih]
      constructor
      · intro h before i after heq
        cases before with
        | nil => exact absurd (List.cons.inj heq).1 nofun
        | cons y before =>
          obtain ⟨rfl, hrest⟩ := List.cons.inj heq
          rw [List.flatMap_cons, hafter]
          exact h before i after hrest
      · intro h before i after heq
        have hnext := h (.char c :: before) i after (congrArg _ heq)
        rwa [List.flatMap_cons, hafter] at hnext
    | hole j =>
      rw [Apart, ih]
      constructor
      · intro h before i after heq
        cases before with
        | nil =>
          obtain ⟨hij, rfl⟩ := List.cons.inj heq
          obtain rfl := Item.hole.inj hij
          exact h.1
        | cons y before =>
          obtain ⟨rfl, hrest⟩ := List.cons.inj heq
          rw [List.flatMap_cons, hafter]
          exact h.2 before i after hrest
      · intro h
        refine ⟨h [] j items rfl, fun before i after heq ↦ ?_⟩
        have hnext := h (.hole j :: before) i after (congrArg _ heq)
        rwa [List.flatMap_cons, hafter] at hnext

/-- Filling the holes leaves the other tokens alone exactly when nothing joins what fills them. -/
theorem scan_fill_iff {out : ι → List α} {lits : ι → List (List α)}
    (hfill : ∀ m i rest, Separated (.hole i :: rest) →
      IsToken lexer src m i (rest.flatMap (Item.text src)) →
      ∀ others, lexer.scan m (out i ++ rest.flatMap (Item.text out)) = lexer.pieces m ++ (lits i ++ others) ↔
        ¬ joins m i (rest.flatMap (Item.text src)) ∧
          lexer.scan lexer.idle (rest.flatMap (Item.text out)) = others)
    {m : μ} {items : List (Item α ι)} (hsound : Sound lexer src m items) (hsep : Separated items) :
    lexer.scan m (items.flatMap (Item.text out)) = woven lexer lits m items ↔
      Apart lexer src joins m items := by
  induction items generalizing m with
  | nil => exact iff_of_true rfl trivial
  | cons x items ih =>
    cases x with
    | char c =>
      rw [List.flatMap_cons, Item.text, List.singleton_append, Apart, ← ih hsound hsep]
      cases hmore : lexer.more m c with
      | some m' => rw [scan_more hmore, woven, hmore, next_more hmore]
      | none => rw [scan_cut hmore, scan_idle_cons, woven, hmore, next_start hmore, List.append_right_inj]
    | hole i =>
      obtain ⟨htoken, hsound⟩ := hsound
      -- the mode behind the hole makes no difference
      have hidle : Apart lexer src joins (lexer.modeAfter m (src i)) items ↔
          Apart lexer src joins lexer.idle items := by
        cases items with
        | nil => rfl
        | cons y items =>
          cases y with
          | char c => rw [Apart, Apart, next_start (htoken.ends c rfl), next_start (lexer.more_idle c)]
          | hole j => exact absurd rfl (hsep.1 j)
      rw [List.flatMap_cons, Item.text, woven, hfill m i items hsep htoken, Apart, hidle, ih hsound hsep.2]

/-- The tokens of a text whose holes are filled otherwise. -/
theorem tokens_fill_iff (hsrc : ∀ i, src i ≠ [])
    (htoken : ∀ m i rest before after, lexer.scan m (src i ++ rest) = before ++ src i :: after →
      before.flatten = (lexer.pieces m).flatten →
      before = lexer.pieces m ∧ after = lexer.scan lexer.idle rest ∧ IsToken lexer src m i rest)
    {out : ι → List α} {lits : ι → List (List α)}
    (hfill : ∀ m i rest, Separated (.hole i :: rest) →
      IsToken lexer src m i (rest.flatMap (Item.text src)) →
      ∀ others, lexer.scan m (out i ++ rest.flatMap (Item.text out)) = lexer.pieces m ++ (lits i ++ others) ↔
        ¬ joins m i (rest.flatMap (Item.text src)) ∧
          lexer.scan lexer.idle (rest.flatMap (Item.text out)) = others)
    {items : List (Item α ι)} {marked : List (Marked α ι)} (hmarks : Marks lexer src items marked)
    (hsep : Separated items) :
    lexer.tokens (items.flatMap (Item.text out)) = marked.flatMap (Marked.filled lits) ↔
      ∀ before i after, items = before ++ .hole i :: after →
        ¬ joins (lexer.modeAfter lexer.idle (before.flatMap (Item.text src))) i
          (after.flatMap (Item.text src)) := by
  have hitems : marked.flatMap Marked.items = (lexer.pieces lexer.idle).flatten.map .char ++ items := by
    rw [lexer.pieces_idle, hmarks.items]
    rfl
  obtain ⟨hsound, hwoven⟩ := sound_of_marked hsrc htoken hmarks.tokens hitems
  rw [hwoven, tokens, scan_fill_iff hfill hsound hsep, apart_iff]

end Lexer

end Squaero.Lib
