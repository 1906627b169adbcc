import Squaero.Lib.Text

/-!
# UTF-8

`utf8` gives the bytes of a text. A character outside ASCII is written with bytes outside ASCII,
so what a scanner of ASCII characters cuts off the bytes is what it cuts off the text: the last
section says so of each way to cut.
-/

namespace Squaero.Lib

/-- The bytes of one code point. -/
def utf8Bytes (c : Char) : Text :=
  let n := c.toNat
  if n < 0x80 then [c]
  else if n < 0x800 then [.ofNat (0xC0 + n / 0x40), .ofNat (0x80 + n % 0x40)]
  else if n < 0x10000 then
    [.ofNat (0xE0 + n / 0x1000), .ofNat (0x80 + n / 0x40 % 0x40), .ofNat (0x80 + n % 0x40)]
  else
    [.ofNat (0xF0 + n / 0x40000), .ofNat (0x80 + n / 0x1000 % 0x40),
      .ofNat (0x80 + n / 0x40 % 0x40), .ofNat (0x80 + n % 0x40)]

def utf8 (text : Text) : Text := text.flatMap utf8Bytes

theorem toNat_ofNat_byte {n : ℕ} (h : n < 0xD800) : (Char.ofNat n).toNat = n := by
  rw [Char.ofNat, dif_pos (Or.inl h)]
  rfl

theorem isWide_ofNat {n : ℕ} (hlow : 0x80 ≤ n) (hhigh : n < 0xD800) : isWide (.ofNat n) := by
  simp [isWide, toNat_ofNat_byte hhigh, hlow]

theorem utf8Bytes_of_not_isWide {c : Char} (h : isWide c = false) : utf8Bytes c = [c] := by
  have hlow : c.toNat < 0x80 := by simpa [isWide] using h
  simp [utf8Bytes, hlow]

/-- A character outside ASCII is written with bytes outside ASCII only, at least two of them. -/
theorem utf8Bytes_of_isWide {c : Char} (h : isWide c) :
    ∃ first second more, utf8Bytes c = first :: second :: more ∧
      ∀ b ∈ utf8Bytes c, isWide b := by
  have hlow : ¬ c.toNat < 0x80 := by simpa [isWide] using h
  have hmax : c.toNat < 0x110000 := by
    have := c.valid
    simp only [UInt32.isValidChar, Nat.isValidChar] at this
    have : c.toNat = c.val.toNat := rfl
    omega
  by_cases htwo : c.toNat < 0x800
  · refine ⟨_, _, _, by rw [utf8Bytes, if_neg hlow, if_pos htwo], ?_⟩
    simp only [utf8Bytes, if_neg hlow, if_pos htwo, List.mem_cons, List.not_mem_nil, or_false]
    rintro b (rfl | rfl) <;> exact isWide_ofNat (by omega) (by omega)
  by_cases hthree : c.toNat < 0x10000
  · refine ⟨_, _, _, by
      rw [utf8Bytes, if_neg hlow, if_neg htwo, if_pos hthree], ?_⟩
    simp only [utf8Bytes, if_neg hlow, if_neg htwo, if_pos hthree, List.mem_cons,
      List.not_mem_nil, or_false]
    rintro b (rfl | rfl | rfl) <;> exact isWide_ofNat (by omega) (by omega)
  · refine ⟨_, _, _, by
      rw [utf8Bytes, if_neg hlow, if_neg htwo, if_neg hthree], ?_⟩
    simp only [utf8Bytes, if_neg hlow, if_neg htwo, if_neg hthree, List.mem_cons,
      List.not_mem_nil, or_false]
    rintro b (rfl | rfl | rfl | rfl) <;> exact isWide_ofNat (by omega) (by omega)

@[simp]
theorem utf8_nil : utf8 [] = [] := rfl

@[simp]
theorem utf8_cons (c : Char) (text : Text) : utf8 (c :: text) = utf8Bytes c ++ utf8 text := rfl

theorem utf8Bytes_ne_nil (c : Char) : utf8Bytes c ≠ [] := by
  cases hc : isWide c with
  | false => simp [utf8Bytes_of_not_isWide hc]
  | true =>
    obtain ⟨first, second, more, hbytes, -⟩ := utf8Bytes_of_isWide hc
    simp [hbytes]

theorem utf8_ne_nil_iff {text : Text} : utf8 text ≠ [] ↔ text ≠ [] := by
  cases text <;> simp [utf8Bytes_ne_nil]

theorem not_mem_utf8Bytes {c d : Char} (hd : isWide d = false) (hne : c ≠ d) :
    d ∉ utf8Bytes c := by
  intro hmem
  cases hc : isWide c with
  | false =>
    rw [utf8Bytes_of_not_isWide hc, List.mem_singleton] at hmem
    exact hne hmem.symm
  | true =>
    obtain ⟨first, second, more, -, hwide⟩ := utf8Bytes_of_isWide hc
    simp [hwide d hmem] at hd

theorem head?_utf8_eq_some_iff {rest : Text} {d : Char} (hd : isWide d = false) :
    (utf8 rest).head? = some d ↔ rest.head? = some d := by
  cases rest with
  | nil => rfl
  | cons c rest =>
    cases hc : isWide c with
    | false => simp [utf8Bytes_of_not_isWide hc]
    | true =>
      obtain ⟨first, second, more, hbytes, hwide⟩ := utf8Bytes_of_isWide hc
      have hfirst : first ≠ d := ne_of_isWide (hwide first (by simp [hbytes])) hd
      simp [hbytes, hfirst, ne_of_isWide hc hd]

@[simp]
theorem utf8_append (text more : Text) : utf8 (text ++ more) = utf8 text ++ utf8 more :=
  List.flatMap_append

theorem utf8_singleton (c : Char) : utf8 [c] = utf8Bytes c := by
  rw [utf8_cons, utf8_nil, List.append_nil]

theorem utf8_of_ascii {text : Text} (h : ∀ c ∈ text, isWide c = false) : utf8 text = text := by
  induction text with
  | nil => rfl
  | cons c text ih =>
    rw [utf8_cons, utf8Bytes_of_not_isWide (h c (.head _)), ih fun d hd ↦ h d (.tail _ hd),
      List.singleton_append]

/-- Bytes within ASCII are the characters. -/
theorem ascii_of_utf8 {text : Text} (h : ∀ b ∈ utf8 text, isWide b = false) :
    ∀ c ∈ text, isWide c = false := by
  intro c hc
  by_contra hwide
  have hwide : isWide c = true := by simpa using hwide
  obtain ⟨first, second, more, hbytes, hall⟩ := utf8Bytes_of_isWide hwide
  have hmem : first ∈ utf8 text := List.mem_flatMap.mpr ⟨c, hc, by simp [hbytes]⟩
  exact absurd (h first hmem) (by simp [hall first (by simp [hbytes])])

theorem mem_utf8_iff {text : Text} {d : Char} (hd : isWide d = false) : d ∈ utf8 text ↔ d ∈ text := by
  constructor
  · intro h
    obtain ⟨c, hc, hmem⟩ := List.mem_flatMap.mp h
    by_contra hnot
    exact not_mem_utf8Bytes hd (ne_of_mem_of_not_mem hc hnot) hmem
  · intro h
    refine List.mem_flatMap.mpr ⟨d, h, ?_⟩
    rw [utf8Bytes_of_not_isWide hd]
    exact List.mem_singleton_self d

/-! ## Cutting -/

section Cutting

variable {p : Char → Bool} {verdict : Bool}

/-- The bytes of a character are judged as the character is. -/
theorem forall_utf8Bytes (h : ∀ c, isWide c → p c = verdict) (c : Char) :
    ∀ b ∈ utf8Bytes c, p b = p c := by
  intro b hb
  cases hc : isWide c with
  | false =>
    rw [utf8Bytes_of_not_isWide hc, List.mem_singleton] at hb
    rw [hb]
  | true =>
    obtain ⟨first, second, more, -, hwide⟩ := utf8Bytes_of_isWide hc
    rw [h b (hwide b hb), h c hc]

theorem dropWhile_utf8 (h : ∀ c, isWide c → p c = verdict) (text : Text) :
    (utf8 text).dropWhile p = utf8 (text.dropWhile p) := by
  induction text with
  | nil => rfl
  | cons c text ih =>
    have hbytes := forall_utf8Bytes h c
    cases hc : p c with
    | true =>
      rw [List.dropWhile_cons_of_pos hc, utf8_cons,
        List.dropWhile_append_of_pos fun b hb ↦ (hbytes b hb).trans hc, ih]
    | false =>
      obtain ⟨b, more, hcons⟩ := List.exists_cons_of_ne_nil (utf8Bytes_ne_nil c)
      have hb : p b = false := by rw [hbytes b (by simp [hcons]), hc]
      rw [List.dropWhile_cons_of_neg (by simp [hc]), utf8_cons, hcons, List.cons_append,
        List.dropWhile_cons_of_neg (by simp [hb])]

theorem takeWhile_utf8 (h : ∀ c, isWide c → p c = verdict) (text : Text) :
    (utf8 text).takeWhile p = utf8 (text.takeWhile p) := by
  have hbytes : (utf8 text).takeWhile p ++ (utf8 text).dropWhile p =
      utf8 (text.takeWhile p) ++ utf8 (text.dropWhile p) := by
    rw [List.takeWhile_append_dropWhile, ← utf8_append, List.takeWhile_append_dropWhile]
  rw [dropWhile_utf8 h] at hbytes
  exact List.append_cancel_right hbytes

theorem rdropWhile_append_of_forall {text more : Text} (h : ∀ c ∈ more, p c) :
    (text ++ more).rdropWhile p = text.rdropWhile p := by
  rw [List.rdropWhile, List.reverse_append,
    List.dropWhile_append_of_pos fun c hc ↦ h c (List.mem_reverse.1 hc), List.rdropWhile]

theorem rdropWhile_append_rtakeWhile (text : Text) :
    text.rdropWhile p ++ text.rtakeWhile p = text := by
  rw [List.rdropWhile, List.rtakeWhile, ← List.reverse_append, List.takeWhile_append_dropWhile,
    List.reverse_reverse]

theorem rdropWhile_utf8 (h : ∀ c, isWide c → p c = verdict) (text : Text) :
    (utf8 text).rdropWhile p = utf8 (text.rdropWhile p) := by
  induction text using List.reverseRecOn with
  | nil => rfl
  | append_singleton text c ih =>
    have hbytes := forall_utf8Bytes h c
    rw [utf8_append, utf8_singleton, List.rdropWhile_concat]
    cases hc : p c with
    | true => rw [rdropWhile_append_of_forall fun b hb ↦ (hbytes b hb).trans hc, ih, if_pos rfl]
    | false =>
      have hlast : ∀ hne, ¬ p ((utf8 text ++ utf8Bytes c).getLast hne) := by
        intro hne
        rw [List.getLast_append_of_ne_nil hne (utf8Bytes_ne_nil c),
          hbytes _ (List.getLast_mem _), hc]
        simp
      rw [List.rdropWhile_eq_self_iff.2 hlast, if_neg (by simp), utf8_append, utf8_singleton]

theorem rtakeWhile_utf8 (h : ∀ c, isWide c → p c = verdict) (text : Text) :
    (utf8 text).rtakeWhile p = utf8 (text.rtakeWhile p) := by
  have hbytes : (utf8 text).rdropWhile p ++ (utf8 text).rtakeWhile p =
      utf8 (text.rdropWhile p) ++ utf8 (text.rtakeWhile p) := by
    rw [rdropWhile_append_rtakeWhile, ← utf8_append, rdropWhile_append_rtakeWhile]
  rw [rdropWhile_utf8 h] at hbytes
  exact List.append_cancel_left hbytes

theorem cString_utf8 (text : Text) : cString (utf8 text) = utf8 (cString text) := by
  apply @takeWhile_utf8 _ true
  intro c hc
  have hnul : c ≠ '\x00' := ne_of_isWide hc (by decide)
  simpa using hnul

/-- An ASCII prefix of the bytes is a prefix of the text. -/
theorem eq_append_of_isPrefixOf_utf8 {ascii : Text} (h : ∀ c ∈ ascii, isWide c = false) :
    ∀ {text : Text}, ascii.isPrefixOf (utf8 text) → text = ascii ++ text.drop ascii.length := by
  induction ascii with
  | nil => simp
  | cons d ascii ih =>
    intro text hprefix
    rw [List.forall_mem_cons] at h
    have hhead : (utf8 text).head? = some d := by
      cases hbytes : utf8 text with
      | nil => simp [hbytes] at hprefix
      | cons b bytes => simp_all [List.isPrefixOf]
    rw [head?_utf8_eq_some_iff h.1] at hhead
    obtain ⟨rest, rfl⟩ := List.head?_eq_some_iff.1 hhead
    rw [utf8_cons, utf8Bytes_of_not_isWide h.1, List.singleton_append, List.isPrefixOf_cons_cons,
      Bool.and_eq_true] at hprefix
    simpa using ih h.2 hprefix.2

end Cutting

end Squaero.Lib
