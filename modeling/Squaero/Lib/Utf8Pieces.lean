import Mathlib.Data.List.GetD
import Squaero.Lib.Utf8

/-!
# Bytes as pieces of UTF-8

Any bytes are characters and stray bytes in one way only: a byte that starts no character stands for itself.
A character of the text is a piece wherever it stands, since no character starts within another.
-/

namespace Squaero.Lib

/-! ## Bytes of one character -/

theorem toNat_ofNat_of_isValidChar {n : ℕ} (h : n.isValidChar) : (Char.ofNat n).toNat = n := by
  rw [Char.ofNat, dif_pos h]
  rfl

theorem toNat_isValidChar (c : Char) : c.toNat < 0xD800 ∨ 0xDFFF < c.toNat ∧ c.toNat < 0x110000 := c.valid

/-- `10xxxxxx` -/
def isTail (b : Char) : Bool := b.toNat / 0x40 = 2

/-- The code point that a sequence stands for. -/
def decodeFirst : Text → ℕ
  | [] => 0
  | a :: rest =>
    let low (i : ℕ) : ℕ := (rest.getD i '\x00').toNat % 0x40
    if a.toNat < 0x80 then a.toNat
    else if a.toNat < 0xE0 then a.toNat % 0x20 * 0x40 + low 0
    else if a.toNat < 0xF0 then a.toNat % 0x10 * 0x1000 + low 0 * 0x40 + low 1
    else a.toNat % 0x08 * 0x40000 + low 0 * 0x1000 + low 1 * 0x40 + low 2

theorem decodeFirst_utf8Bytes (c : Char) (rest : Text) : decodeFirst (utf8Bytes c ++ rest) = c.toNat := by
  have hvalid := toNat_isValidChar c
  unfold utf8Bytes
  dsimp only
  split_ifs with hone htwo hthree
  · simp [decodeFirst, hone]
  · have hlead := toNat_ofNat_byte (n := 0xC0 + c.toNat / 0x40) (by omega)
    have hnext := toNat_ofNat_byte (n := 0x80 + c.toNat % 0x40) (by omega)
    simp only [decodeFirst, List.cons_append, List.nil_append, List.getD_cons_zero, hlead, hnext]
    rw [if_neg (by omega), if_pos (by omega)]
    omega
  · have hlead := toNat_ofNat_byte (n := 0xE0 + c.toNat / 0x1000) (by omega)
    have hnext := toNat_ofNat_byte (n := 0x80 + c.toNat / 0x40 % 0x40) (by omega)
    have hlast := toNat_ofNat_byte (n := 0x80 + c.toNat % 0x40) (by omega)
    simp only [decodeFirst, List.cons_append, List.nil_append, List.getD_cons_zero, List.getD_cons_succ, hlead,
      hnext, hlast]
    rw [if_neg (by omega), if_neg (by omega), if_pos (by omega)]
    omega
  · have hlead := toNat_ofNat_byte (n := 0xF0 + c.toNat / 0x40000) (by omega)
    have hsecond := toNat_ofNat_byte (n := 0x80 + c.toNat / 0x1000 % 0x40) (by omega)
    have hnext := toNat_ofNat_byte (n := 0x80 + c.toNat / 0x40 % 0x40) (by omega)
    have hlast := toNat_ofNat_byte (n := 0x80 + c.toNat % 0x40) (by omega)
    simp only [decodeFirst, List.cons_append, List.nil_append, List.getD_cons_zero, List.getD_cons_succ, hlead,
      hsecond, hnext, hlast]
    rw [if_neg (by omega), if_neg (by omega), if_neg (by omega)]
    omega

/-- No character is the beginning of another. -/
theorem eq_of_utf8Bytes_prefix {c d : Char} {s : Text} (hc : utf8Bytes c <+: s) (hd : utf8Bytes d <+: s) : c = d := by
  obtain ⟨rest, rfl⟩ := hc
  obtain ⟨rest', hsame⟩ := hd
  refine Char.toNat_inj.mp ?_
  rw [← decodeFirst_utf8Bytes c rest, ← hsame, decodeFirst_utf8Bytes]

theorem exists_lead (c : Char) :
    ∃ lead tails, utf8Bytes c = lead :: tails ∧ isTail lead = false ∧ ∀ b ∈ tails, isTail b = true := by
  have hvalid := toNat_isValidChar c
  have htail {n : ℕ} (h : n / 0x40 = 2) : isTail (.ofNat n) = true := by
    simp [isTail, toNat_ofNat_byte (n := n) (by omega), h]
  have hlead {n : ℕ} (hlow : 0xC0 ≤ n) (hhigh : n < 0x100) : isTail (.ofNat n) = false := by
    simp only [isTail, toNat_ofNat_byte (n := n) (by omega), decide_eq_false_iff_not]
    omega
  unfold utf8Bytes
  dsimp only
  split_ifs with hone htwo hthree
  · refine ⟨c, [], rfl, ?_, nofun⟩
    simp only [isTail, decide_eq_false_iff_not]
    omega
  · exact ⟨_, _, rfl, hlead (by omega) (by omega), by simpa using htail (by omega)⟩
  · exact ⟨_, _, rfl, hlead (by omega) (by omega), by simpa using ⟨htail (by omega), htail (by omega)⟩⟩
  · exact ⟨_, _, rfl, hlead (by omega) (by omega),
      by simpa using ⟨htail (by omega), htail (by omega), htail (by omega)⟩⟩

theorem toNat_lt_of_mem_utf8 {text : Text} {b : Char} (h : b ∈ utf8 text) : b.toNat < 0x100 := by
  obtain ⟨c, -, hb⟩ := List.mem_flatMap.mp h
  have hvalid := toNat_isValidChar c
  have hbyte {n : ℕ} (hn : n < 0x100) : (Char.ofNat n).toNat < 0x100 := (toNat_ofNat_byte (by omega)).trans_lt hn
  have hall : ∀ b ∈ utf8Bytes c, b.toNat < 0x100 := by
    unfold utf8Bytes
    dsimp only
    split_ifs with hone htwo hthree
    · simpa using hone.trans (by decide)
    · simpa using ⟨hbyte (by omega), hbyte (by omega)⟩
    · simpa using ⟨hbyte (by omega), hbyte (by omega), hbyte (by omega)⟩
    · simpa using ⟨hbyte (by omega), hbyte (by omega), hbyte (by omega), hbyte (by omega)⟩
  exact hall b hb

/-- Bytes cut off where no character goes on are those of a first part of the text. -/
theorem exists_take_eq_utf8 (text : Text) {n : ℕ} (h : n = 0 ∨ isTail ((utf8 text).getD n '\x00') = false) :
    ∃ front back, text = front ++ back ∧ (utf8 text).take n = utf8 front := by
  induction text generalizing n with
  | nil => exact ⟨[], [], rfl, List.take_nil⟩
  | cons c text ih =>
    obtain ⟨lead, tails, hbytes, -, htails⟩ := exists_lead c
    by_cases hcut : n < (utf8Bytes c).length
    · have hzero : n = 0 := by
        by_contra hne
        obtain ⟨i, rfl⟩ := Nat.exists_eq_succ_of_ne_zero hne
        have hi : i < tails.length := by simpa [hbytes] using hcut
        have hget : (utf8 (c :: text)).getD (i + 1) '\x00' = tails[i] := by
          rw [utf8_cons, hbytes, List.cons_append, List.getD_cons_succ, List.getD_append _ _ _ _ hi]
          exact List.getD_eq_getElem _ _ hi
        have htail := htails _ (List.getElem_mem hi)
        rw [← hget, h.resolve_left hne] at htail
        cases htail
      exact ⟨[], c :: text, rfl, by rw [hzero, List.take_zero, utf8_nil]⟩
    · obtain ⟨m, rfl⟩ := Nat.exists_eq_add_of_le (not_lt.mp hcut)
      have hpos := List.length_pos_of_ne_nil (utf8Bytes_ne_nil c)
      have hrest : isTail ((utf8 text).getD m '\x00') = false := by
        have hget := h.resolve_left (by omega)
        rwa [utf8_cons, List.getD_append_right _ _ _ _ (Nat.le_add_right _ _), Nat.add_sub_cancel_left] at hget
      obtain ⟨front, back, hsplit, htake⟩ := ih (.inr hrest)
      refine ⟨c :: front, back, by rw [hsplit, List.cons_append], ?_⟩
      rw [utf8_cons, List.take_length_add_append, htake, utf8_cons]

/-! ## Pieces -/

inductive Piece
  | char (c : Char)
  | stray (b : Char)
  deriving DecidableEq, Repr

def Piece.bytes : Piece → Text
  | .char c => utf8Bytes c
  | .stray b => [b]

/-- What `s` is made of: the next character, or a byte with which none starts. -/
inductive Pieces : Text → List Piece → Prop
  | nil : Pieces [] []
  | char {rest : Text} {ps : List Piece} (c : Char) (h : Pieces rest ps) :
    Pieces (utf8Bytes c ++ rest) (.char c :: ps)
  | stray {rest : Text} {ps : List Piece} {b : Char} (hb : ∀ c, ¬ utf8Bytes c <+: b :: rest) (h : Pieces rest ps) :
    Pieces (b :: rest) (.stray b :: ps)

theorem Pieces.bytes {s : Text} {ps : List Piece} (h : Pieces s ps) : ps.flatMap Piece.bytes = s := by
  induction h with
  | nil => rfl
  | char c _ ih => rw [List.flatMap_cons, ih, Piece.bytes]
  | stray _ _ ih =>
    rw [List.flatMap_cons, ih, Piece.bytes]
    rfl

theorem Pieces.unique {s : Text} {ps qs : List Piece} (hp : Pieces s ps) (hq : Pieces s qs) : ps = qs := by
  induction hp generalizing qs with
  | nil =>
    generalize hs : ([] : Text) = s at hq
    cases hq with
    | nil => rfl
    | char c _ => exact absurd (List.append_eq_nil_iff.mp hs.symm).1 (utf8Bytes_ne_nil c)
    | stray _ _ => cases hs
  | @char rest ps c h ih =>
    generalize hs : utf8Bytes c ++ rest = s at hq
    have hprefix : utf8Bytes c <+: s := ⟨rest, hs⟩
    cases hq with
    | nil => exact absurd (List.append_eq_nil_iff.mp hs).1 (utf8Bytes_ne_nil c)
    | @char rest' qs d hq =>
      have hsame : c = d := eq_of_utf8Bytes_prefix hprefix (List.prefix_append _ _)
      subst hsame
      rw [ih (List.append_cancel_left hs ▸ hq)]
    | stray hb _ => exact absurd hprefix (hb c)
  | @stray rest ps b hb h ih =>
    generalize hs : b :: rest = s at hq
    cases hq with
    | nil => cases hs
    | char d _ => exact absurd (hs ▸ List.prefix_append _ _) (hb d)
    | stray _ hq =>
      obtain ⟨rfl, rfl⟩ := List.cons.inj hs
      rw [ih hq]

theorem exists_pieces (s : Text) : ∃ ps, Pieces s ps := by
  induction hlength : s.length using Nat.strong_induction_on generalizing s with
  | _ n ih =>
    cases s with
    | nil => exact ⟨[], .nil⟩
    | cons b rest =>
      by_cases hchar : ∃ c, utf8Bytes c <+: b :: rest
      · obtain ⟨c, more, hmore⟩ := hchar
        have hpos := List.length_pos_of_ne_nil (utf8Bytes_ne_nil c)
        have hshort : more.length < n := by
          rw [← hlength, ← hmore, List.length_append]
          omega
        obtain ⟨ps, hps⟩ := ih _ hshort more rfl
        rw [← hmore]
        exact ⟨_, .char c hps⟩
      · have hshort : rest.length < n := by
          rw [← hlength, List.length_cons]
          omega
        obtain ⟨ps, hps⟩ := ih _ hshort rest rfl
        exact ⟨_, .stray (not_exists.mp hchar) hps⟩

/-- A character is found wherever it stands. -/
theorem Pieces.append_char {x y : Text} {ps qs : List Piece} (hx : Pieces x ps) (c : Char) (hy : Pieces y qs) :
    Pieces (x ++ (utf8Bytes c ++ y)) (ps ++ .char c :: qs) := by
  induction hx with
  | nil => exact .char c hy
  | char d _ ih =>
    rw [List.append_assoc]
    exact .char d ih
  | @stray x ps b hb _ ih =>
    refine .stray (fun d ⟨rest, hd⟩ ↦ ?_) ih
    obtain ⟨lead, tails, hbytes, -, htails⟩ := exists_lead d
    obtain ⟨lead', tails', hbytes', hlead', -⟩ := exists_lead c
    replace hd : utf8Bytes d ++ rest = (b :: x) ++ (utf8Bytes c ++ y) := hd
    obtain ⟨more, hmore, -⟩ | ⟨more, hmore, hrest⟩ := List.append_eq_append_iff.mp hd
    · exact hb d ⟨more, hmore.symm⟩
    · cases more with
      | nil => exact hb d ⟨[], by rw [hmore, List.append_nil, List.append_nil]⟩
      | cons e more =>
        -- the character would go on into the next one, whose first byte goes on no character
        rw [hbytes'] at hrest
        have hsame : lead' = e := (List.cons.inj hrest).1
        rw [hbytes, List.cons_append] at hmore
        have hmem : e ∈ tails := by
          rw [(List.cons.inj hmore).2]
          exact List.mem_append_right _ (.head _)
        rw [← hsame] at hmem
        rw [htails _ hmem] at hlead'
        cases hlead'

theorem Pieces.append_utf8 {x y : Text} {ps qs : List Piece} (hx : Pieces x ps) (text : Text) (hy : Pieces y qs)
    (hne : text ≠ []) : Pieces (x ++ (utf8 text ++ y)) (ps ++ (text.map .char ++ qs)) := by
  obtain ⟨c, more, rfl⟩ := List.exists_cons_of_ne_nil hne
  have hmore : Pieces (utf8 more ++ y) (more.map .char ++ qs) := by
    clear hx
    induction more with
    | nil => exact hy
    | cons d more ih =>
      rw [utf8_cons, List.append_assoc]
      exact .char d (ih (List.cons_ne_nil _ _))
  rw [utf8_cons, List.append_assoc]
  exact hx.append_char c hmore

/-- Byte number `i` belongs to a character. -/
def Covered (s : Text) (i : ℕ) : Prop :=
  ∃ x c y, s = x ++ (utf8Bytes c ++ y) ∧ x.length ≤ i ∧ i < x.length + (utf8Bytes c).length

/-- A stray byte belongs to no character. -/
theorem Pieces.not_covered {s : Text} {before after : List Piece} {b : Char}
    (h : Pieces s (before ++ .stray b :: after)) : ¬ Covered s (before.flatMap Piece.bytes).length := by
  rintro ⟨x, c, y, rfl, hlow, hhigh⟩
  obtain ⟨ps, hps⟩ := exists_pieces x
  obtain ⟨qs, hqs⟩ := exists_pieces y
  have hsame := h.unique (hps.append_char c hqs)
  rw [← hps.bytes] at hlow hhigh
  obtain ⟨more, hbefore, hmore⟩ | ⟨more, hbefore, hmore⟩ := List.append_eq_append_iff.mp hsame
  · cases more with
    | nil => cases (List.cons.inj hmore).1
    | cons p more =>
      have hp : p = .stray b := (List.cons.inj hmore).1.symm
      rw [hbefore, hp, List.flatMap_append, List.length_append, List.flatMap_cons, List.length_append] at hlow
      simp only [Piece.bytes, List.length_singleton] at hlow
      omega
  · cases more with
    | nil => cases (List.cons.inj hmore).1
    | cons p more =>
      have hp : p = .char c := (List.cons.inj hmore).1.symm
      rw [hbefore, hp, List.flatMap_append, List.length_append, List.flatMap_cons, List.length_append] at hhigh
      simp only [Piece.bytes] at hhigh
      omega

end Squaero.Lib
