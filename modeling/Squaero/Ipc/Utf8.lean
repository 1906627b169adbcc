import Squaero.Lib.Utf8Pieces

/-!
# The UTF-8 guard of the wire

`core/src/ipc/utf8.c`: a text of a driver goes into a response as it is when its bytes are UTF-8,
and repaired otherwise, one replacement character for each byte that is no part of a sequence.
-/

namespace Squaero.Ipc

open Squaero.Lib

/-- The length of a sequence that starts with byte `c`, and the range of its second byte; none where
no sequence does. -/
def leadRange (c : ℕ) : Option (ℕ × ℕ × ℕ) :=
  if 0xC2 ≤ c ∧ c ≤ 0xDF then some (2, 0x80, 0xBF)
  else if c = 0xE0 then some (3, 0xA0, 0xBF)
  else if c = 0xED then some (3, 0x80, 0x9F)
  else if 0xE1 ≤ c ∧ c ≤ 0xEC ∨ c = 0xEE ∨ c = 0xEF then some (3, 0x80, 0xBF)
  else if c = 0xF0 then some (4, 0x90, 0xBF)
  else if 0xF1 ≤ c ∧ c ≤ 0xF3 then some (4, 0x80, 0xBF)
  else if c = 0xF4 then some (4, 0x80, 0x8F)
  else none

/-- `seq_len` at the byte `c` in front of `rest`. -/
def seqLen (c : Char) (rest : Text) : ℕ :=
  if c.toNat < 0x80 then 1
  else
    match leadRange c.toNat with
    | none => 0
    | some (len, min2, max2) =>
      if rest.length + 1 < len then 0
      else if !rest.head?.any fun d ↦ min2 ≤ d.toNat && d.toNat ≤ max2 then 0
      else if ((rest.take (len - 1)).drop 1).all fun d ↦ d.toNat / 0x40 = 2 then len
      else 0

/-- The loop of `ipc_utf8_valid`, with `skip` bytes of a sequence still to pass. -/
def validFrom : ℕ → Text → Bool
  | _, [] => true
  | skip + 1, _ :: rest => validFrom skip rest
  | 0, c :: rest =>
    match seqLen c rest with
    | 0 => false
    | len + 1 => validFrom len rest

def ipcUtf8Valid (s : Text) : Bool := validFrom 0 s

/-- The loop of `ipc_utf8_repair`, with `copy` bytes of a sequence still to copy. -/
def repairFrom : ℕ → Text → Text
  | _, [] => []
  | copy + 1, c :: rest => c :: repairFrom copy rest
  | 0, c :: rest =>
    match seqLen c rest with
    | 0 => '\xEF' :: '\xBF' :: '\xBD' :: repairFrom 0 rest
    | len + 1 => c :: repairFrom len rest

def ipcUtf8Repair (s : Text) : Text := repairFrom 0 s

/-- The string of `ipc_utf8_string`; a null pointer is the empty string. -/
def ipcUtf8String : Option Text → Text
  | none => []
  | some s => if ipcUtf8Valid s then s else ipcUtf8Repair s

theorem repairFrom_of_valid {skip : ℕ} {s : Text} (h : validFrom skip s) :
    repairFrom skip s = s := by
  induction s generalizing skip with
  | nil => cases skip <;> rfl
  | cons c rest ih =>
    cases skip with
    | succ skip =>
      have hrest : validFrom skip rest := h
      rw [repairFrom, ih hrest]
    | zero =>
      rw [validFrom] at h
      rw [repairFrom]
      cases hlen : seqLen c rest with
      | zero => simp [hlen] at h
      | succ len =>
        rw [hlen] at h
        simp only
        rw [ih h]

/-- The guard would leave a valid text as it is even without its fast path. -/
theorem ipcUtf8String_eq_repair (s : Text) : ipcUtf8String (some s) = ipcUtf8Repair s := by
  change (if ipcUtf8Valid s then s else ipcUtf8Repair s) = _
  split
  next h => exact (repairFrom_of_valid h).symm
  next => rfl

/-! ## The table of sequences -/

/-- The table leaves out the longer forms, the surrogates and what lies above U+10FFFF. -/
theorem leadRange_cases {a len lo hi : ℕ} (h : leadRange a = some (len, lo, hi)) :
    (len = 2 ∧ 0xC2 ≤ a ∧ a ≤ 0xDF ∧ lo = 0x80 ∧ hi = 0xBF) ∨
    (len = 3 ∧ 0xE0 ≤ a ∧ a ≤ 0xEF ∧ 0x80 ≤ lo ∧ hi ≤ 0xBF ∧ (a = 0xE0 → 0xA0 ≤ lo) ∧ (a = 0xED → hi ≤ 0x9F)) ∨
    (len = 4 ∧ 0xF0 ≤ a ∧ a ≤ 0xF4 ∧ 0x80 ≤ lo ∧ hi ≤ 0xBF ∧ (a = 0xF0 → 0x90 ≤ lo) ∧ (a = 0xF4 → hi ≤ 0x8F)) := by
  unfold leadRange at h
  split_ifs at h <;> cases h <;> omega

theorem leadRange_two {a : ℕ} (h : 0xC2 ≤ a ∧ a ≤ 0xDF) : leadRange a = some (2, 0x80, 0xBF) := if_pos h

theorem leadRange_three {a b : ℕ} (ha : 0xE0 ≤ a ∧ a ≤ 0xEF) (hb : 0x80 ≤ b ∧ b ≤ 0xBF) (hlow : a = 0xE0 → 0xA0 ≤ b)
    (hhigh : a = 0xED → b ≤ 0x9F) : ∃ lo hi, leadRange a = some (3, lo, hi) ∧ lo ≤ b ∧ b ≤ hi := by
  unfold leadRange
  split_ifs <;> first | omega | exact ⟨_, _, rfl, by omega, by omega⟩

theorem leadRange_four {a b : ℕ} (ha : 0xF0 ≤ a ∧ a ≤ 0xF4) (hb : 0x80 ≤ b ∧ b ≤ 0xBF) (hlow : a = 0xF0 → 0x90 ≤ b)
    (hhigh : a = 0xF4 → b ≤ 0x8F) : ∃ lo hi, leadRange a = some (4, lo, hi) ∧ lo ≤ b ∧ b ≤ hi := by
  unfold leadRange
  split_ifs <;> first | omega | exact ⟨_, _, rfl, by omega, by omega⟩

theorem seqLen_of_leadRange {c d : Char} {rest : Text} {len lo hi : ℕ} (hwide : ¬ c.toNat < 0x80)
    (hrange : leadRange c.toNat = some (len, lo, hi)) (hlen : len ≤ (d :: rest).length + 1)
    (hd : lo ≤ d.toNat ∧ d.toNat ≤ hi) (htails : ∀ b ∈ rest.take (len - 2), isTail b = true) :
    seqLen c (d :: rest) = len := by
  have htake : ((d :: rest).take (len - 1)).drop 1 = rest.take (len - 2) := by
    rw [List.drop_take, List.drop_one, List.tail_cons, Nat.sub_sub]
  unfold seqLen
  simp only [if_neg hwide, hrange, if_neg hlen.not_gt, htake, List.head?_cons, Option.any_some]
  rw [if_neg (by simp [hd])]
  exact if_pos (List.all_eq_true.mpr htails)

theorem seqLen_utf8Bytes (c : Char) (rest : Text) :
    ∃ lead more, utf8Bytes c ++ rest = lead :: more ∧ seqLen lead more = (utf8Bytes c).length := by
  have hvalid := toNat_isValidChar c
  have htail {n : ℕ} (h : n / 0x40 = 2) : isTail (.ofNat n) = true := by
    simp [isTail, toNat_ofNat_byte (n := n) (by omega), h]
  unfold utf8Bytes
  dsimp only
  split_ifs with hone htwo hthree
  · exact ⟨c, rest, rfl, if_pos hone⟩
  · have hlead := toNat_ofNat_byte (n := 0xC0 + c.toNat / 0x40) (by omega)
    have hnext := toNat_ofNat_byte (n := 0x80 + c.toNat % 0x40) (by omega)
    refine ⟨_, _, rfl, seqLen_of_leadRange (by omega) (leadRange_two (by omega)) (by simp) (by omega) ?_⟩
    simp
  · have hlead := toNat_ofNat_byte (n := 0xE0 + c.toNat / 0x1000) (by omega)
    have hnext := toNat_ofNat_byte (n := 0x80 + c.toNat / 0x40 % 0x40) (by omega)
    obtain ⟨lo, hi, hrange, hin⟩ := leadRange_three (a := 0xE0 + c.toNat / 0x1000) (b := 0x80 + c.toNat / 0x40 % 0x40)
      (by omega) (by omega) (by omega) (by omega)
    refine ⟨_, _, rfl, seqLen_of_leadRange (by omega) (hlead ▸ hrange) (by simp) (hnext.symm ▸ hin) ?_⟩
    simpa using htail (by omega)
  · have hlead := toNat_ofNat_byte (n := 0xF0 + c.toNat / 0x40000) (by omega)
    have hnext := toNat_ofNat_byte (n := 0x80 + c.toNat / 0x1000 % 0x40) (by omega)
    obtain ⟨lo, hi, hrange, hin⟩ := leadRange_four (a := 0xF0 + c.toNat / 0x40000)
      (b := 0x80 + c.toNat / 0x1000 % 0x40) (by omega) (by omega) (by omega) (by omega)
    refine ⟨_, _, rfl, seqLen_of_leadRange (by omega) (hlead ▸ hrange) (by simp) (hnext.symm ▸ hin) ?_⟩
    simpa using ⟨htail (by omega), htail (by omega)⟩

theorem ofNat_eq {n : ℕ} {b : Char} (hn : n < 0xD800) (h : n = b.toNat) : Char.ofNat n = b :=
  Char.toNat_inj.mp ((toNat_ofNat_byte hn).trans h)

/-- Where the table sees a sequence there is a character. -/
theorem exists_of_seqLen {a : Char} {rest : Text} (h : seqLen a rest ≠ 0) : ∃ c, utf8Bytes c <+: a :: rest := by
  unfold seqLen at h
  by_cases hone : a.toNat < 0x80
  · refine ⟨a, rest, ?_⟩
    simp [utf8Bytes, hone]
  rw [if_neg hone] at h
  cases hrange : leadRange a.toNat with
  | none => simp [hrange] at h
  | some r =>
    obtain ⟨len, lo, hi⟩ := r
    simp only [hrange] at h
    split_ifs at h with hshort hsecond htails
    · exact absurd rfl h
    · exact absurd rfl h
    rotate_left
    · exact absurd rfl h
    have hroom := not_lt.mp hshort
    have htail {b : Char} (hb : b ∈ (rest.take (len - 1)).drop 1) : b.toNat / 0x40 = 2 := by
      simpa using List.all_eq_true.mp htails b hb
    cases rest with
    | nil => simp at hsecond
    | cons d more =>
      have hd : lo ≤ d.toNat ∧ d.toNat ≤ hi := by simpa using hsecond
      rw [List.length_cons] at hroom
      obtain ⟨rfl, hlow, hhigh, rfl, rfl⟩ | ⟨rfl, hlow, hhigh, hlo, hhi, hshortest, hsurrogate⟩ |
        ⟨rfl, hlow, hhigh, hlo, hhi, hshortest, hlast⟩ := leadRange_cases hrange
      · have hn : ((a.toNat - 0xC0) * 0x40 + (d.toNat - 0x80)).isValidChar := .inl (by omega)
        refine ⟨.ofNat ((a.toNat - 0xC0) * 0x40 + (d.toNat - 0x80)), more, ?_⟩
        rw [utf8Bytes, toNat_ofNat_of_isValidChar hn]
        rw [if_neg (by omega), if_pos (by omega), ofNat_eq (b := a) (by omega) (by omega),
          ofNat_eq (b := d) (by omega) (by omega)]
        rfl
      · obtain ⟨e, more, rfl⟩ := List.exists_cons_of_length_pos (l := more) (by omega)
        have he := htail (b := e) (by simp)
        have hn : ((a.toNat - 0xE0) * 0x1000 + (d.toNat - 0x80) * 0x40 + (e.toNat - 0x80)).isValidChar := by
          unfold Nat.isValidChar
          omega
        refine ⟨.ofNat ((a.toNat - 0xE0) * 0x1000 + (d.toNat - 0x80) * 0x40 + (e.toNat - 0x80)), more, ?_⟩
        rw [utf8Bytes, toNat_ofNat_of_isValidChar hn]
        rw [if_neg (by omega), if_neg (by omega), if_pos (by omega), ofNat_eq (b := a) (by omega) (by omega),
          ofNat_eq (b := d) (by omega) (by omega), ofNat_eq (b := e) (by omega) (by omega)]
        rfl
      · obtain ⟨e, more, rfl⟩ := List.exists_cons_of_length_pos (l := more) (by omega)
        rw [List.length_cons] at hroom
        obtain ⟨f, more, rfl⟩ := List.exists_cons_of_length_pos (l := more) (by omega)
        have he := htail (b := e) (by simp)
        have hf := htail (b := f) (by simp)
        have hn : ((a.toNat - 0xF0) * 0x40000 + (d.toNat - 0x80) * 0x1000 + (e.toNat - 0x80) * 0x40 +
            (f.toNat - 0x80)).isValidChar := by
          unfold Nat.isValidChar
          omega
        refine ⟨.ofNat ((a.toNat - 0xF0) * 0x40000 + (d.toNat - 0x80) * 0x1000 + (e.toNat - 0x80) * 0x40 +
          (f.toNat - 0x80)), more, ?_⟩
        rw [utf8Bytes, toNat_ofNat_of_isValidChar hn]
        rw [if_neg (by omega), if_neg (by omega), if_neg (by omega), ofNat_eq (b := a) (by omega) (by omega),
          ofNat_eq (b := d) (by omega) (by omega), ofNat_eq (b := e) (by omega) (by omega),
          ofNat_eq (b := f) (by omega) (by omega)]
        rfl

/-! ## The guard -/

theorem validFrom_append {first : Text} (rest : Text) : validFrom first.length (first ++ rest) = validFrom 0 rest := by
  induction first with
  | nil => rfl
  | cons c first ih => exact ih

theorem repairFrom_append {first : Text} (rest : Text) :
    repairFrom first.length (first ++ rest) = first ++ repairFrom 0 rest := by
  induction first with
  | nil => rfl
  | cons c first ih =>
    rw [List.cons_append, List.length_cons, repairFrom, ih]
    rfl

def replacement : Char := .ofNat 0xFFFD

/-- What the repair writes for a piece. -/
def repaired : Piece → Text
  | .char c => utf8Bytes c
  | .stray _ => utf8Bytes replacement

theorem guard_char (c : Char) (rest : Text) : validFrom 0 (utf8Bytes c ++ rest) = validFrom 0 rest ∧
    repairFrom 0 (utf8Bytes c ++ rest) = utf8Bytes c ++ repairFrom 0 rest := by
  obtain ⟨lead, more, hcons, hlen⟩ := seqLen_utf8Bytes c rest
  obtain ⟨first, tails, hbytes⟩ := List.exists_cons_of_ne_nil (utf8Bytes_ne_nil c)
  rw [hbytes, List.cons_append] at hcons
  obtain ⟨rfl, rfl⟩ := List.cons.inj hcons
  rw [hbytes, List.length_cons] at hlen
  rw [hbytes, List.cons_append]
  constructor
  · rw [validFrom, hlen]
    exact validFrom_append rest
  · rw [repairFrom, hlen]
    exact congrArg (first :: ·) (repairFrom_append rest)

theorem guard_stray {b : Char} {rest : Text} (hb : ∀ c, ¬ utf8Bytes c <+: b :: rest) :
    validFrom 0 (b :: rest) = false ∧ repairFrom 0 (b :: rest) = utf8Bytes replacement ++ repairFrom 0 rest := by
  have hlen : seqLen b rest = 0 := by
    by_contra hlen
    obtain ⟨c, hc⟩ := exists_of_seqLen hlen
    exact hb c hc
  have hreplacement : utf8Bytes replacement = ['\xEF', '\xBF', '\xBD'] := by decide
  constructor
  · rw [validFrom, hlen]
  · rw [repairFrom, hlen, hreplacement]
    rfl

theorem ipcUtf8Repair_pieces {s : Text} {ps : List Piece} (h : Pieces s ps) :
    ipcUtf8Repair s = ps.flatMap repaired := by
  unfold ipcUtf8Repair
  induction h with
  | nil => rfl
  | char c _ ih => rw [(guard_char c _).2, ih, List.flatMap_cons, repaired]
  | stray hb _ ih => rw [(guard_stray hb).2, ih, List.flatMap_cons, repaired]

theorem ipcUtf8Valid_iff (s : Text) : ipcUtf8Valid s = true ↔ ∃ text, s = utf8 text := by
  unfold ipcUtf8Valid
  constructor
  · obtain ⟨ps, hps⟩ := exists_pieces s
    induction hps with
    | nil => exact fun _ ↦ ⟨[], rfl⟩
    | char c _ ih =>
      intro h
      rw [(guard_char c _).1] at h
      obtain ⟨text, rfl⟩ := ih h
      exact ⟨c :: text, rfl⟩
    | stray hb _ _ =>
      intro h
      rw [(guard_stray hb).1] at h
      cases h
  · rintro ⟨text, rfl⟩
    induction text with
    | nil => rfl
    | cons c text ih => rw [utf8_cons, (guard_char c _).1, ih]

theorem ipcUtf8Valid_repair (s : Text) : ipcUtf8Valid (ipcUtf8Repair s) = true := by
  obtain ⟨ps, hps⟩ := exists_pieces s
  rw [ipcUtf8Valid_iff, ipcUtf8Repair_pieces hps]
  refine ⟨ps.map fun p ↦ match p with | .char c => c | .stray _ => replacement, ?_⟩
  rw [utf8, List.flatMap_map]
  refine List.flatMap_congr fun p _ ↦ ?_
  cases p <;> rfl

theorem ipcUtf8Repair_eq_self_iff (s : Text) : ipcUtf8Repair s = s ↔ ipcUtf8Valid s = true := by
  constructor
  · intro h
    rw [← h]
    exact ipcUtf8Valid_repair s
  · exact repairFrom_of_valid

theorem length_ipcUtf8Repair_le (s : Text) : (ipcUtf8Repair s).length ≤ 3 * s.length := by
  obtain ⟨ps, hps⟩ := exists_pieces s
  rw [ipcUtf8Repair_pieces hps, ← hps.bytes]
  clear hps
  induction ps with
  | nil => exact le_rfl
  | cons p ps ih =>
    have hpiece : (repaired p).length ≤ 3 * p.bytes.length := by
      cases p with
      | char c =>
        change (utf8Bytes c).length ≤ 3 * (utf8Bytes c).length
        omega
      | stray b =>
        have hthree : (utf8Bytes replacement).length = 3 := by decide
        exact hthree.le
    rw [List.flatMap_cons, List.flatMap_cons, List.length_append, List.length_append]
    omega

/-- `out` is `s` with a replacement character for each byte that belongs to no character of `s`. -/
def ReplacesStrays (s out : Text) : Prop := ∃ ps : List Piece, ps.flatMap Piece.bytes = s ∧
  (∀ before b after, ps = before ++ .stray b :: after → ¬ Covered s (before.flatMap Piece.bytes).length) ∧
  ps.flatMap repaired = out

theorem replacesStrays_repair (s : Text) : ReplacesStrays s (ipcUtf8Repair s) := by
  obtain ⟨ps, hps⟩ := exists_pieces s
  refine ⟨ps, hps.bytes, fun before b after hsplit ↦ ?_, (ipcUtf8Repair_pieces hps).symm⟩
  exact Pieces.not_covered (hsplit ▸ hps)

/-- What is UTF-8 is kept wherever it stands, and what stands around it is repaired on its own. -/
theorem ipcUtf8Repair_append (x y : Text) {text : Text} (hne : text ≠ []) :
    ipcUtf8Repair (x ++ (utf8 text ++ y)) = ipcUtf8Repair x ++ (utf8 text ++ ipcUtf8Repair y) := by
  obtain ⟨ps, hps⟩ := exists_pieces x
  obtain ⟨qs, hqs⟩ := exists_pieces y
  have hkept : (text.map Piece.char).flatMap repaired = utf8 text := List.flatMap_map ..
  rw [ipcUtf8Repair_pieces (hps.append_utf8 text hqs hne), ipcUtf8Repair_pieces hps, ipcUtf8Repair_pieces hqs,
    List.flatMap_append, List.flatMap_append, hkept]

/-- The guard accepts exactly UTF-8, and the repair replaces exactly what is no part of it. -/
theorem ipcUtf8_guards (s : Text) :
    (ipcUtf8Valid s = true ↔ ∃ text, s = utf8 text) ∧
    ipcUtf8Valid (ipcUtf8Repair s) = true ∧
    (ipcUtf8Repair s = s ↔ ipcUtf8Valid s = true) ∧
    ipcUtf8Repair (ipcUtf8Repair s) = ipcUtf8Repair s ∧
    (ipcUtf8Repair s).length ≤ 3 * s.length ∧
    ReplacesStrays s (ipcUtf8Repair s) ∧
    ∀ x text y, s = x ++ (utf8 text ++ y) → text ≠ [] →
      ipcUtf8Repair s = ipcUtf8Repair x ++ (utf8 text ++ ipcUtf8Repair y) := by
  refine ⟨ipcUtf8Valid_iff s, ipcUtf8Valid_repair s, ipcUtf8Repair_eq_self_iff s, ?_, length_ipcUtf8Repair_le s,
    replacesStrays_repair s, ?_⟩
  · exact (ipcUtf8Repair_eq_self_iff _).mpr (ipcUtf8Valid_repair s)
  · intro x text y hs hne
    rw [hs]
    exact ipcUtf8Repair_append x y hne

theorem ipcUtf8_guards_truncated : ipcUtf8Repair "a\xC3b\xC3\xA9".toList = "a\xEF\xBF\xBDb\xC3\xA9".toList ∧
    ipcUtf8Repair "a\xC3b\xC3\xA9".toList =
      ipcUtf8Repair "a\xC3b".toList ++ (utf8 ['é'] ++ ipcUtf8Repair []) := by
  obtain ⟨-, -, -, -, -, -, hkept⟩ := ipcUtf8_guards "a\xC3b\xC3\xA9".toList
  exact ⟨by decide, hkept _ ['é'] [] (by decide) (by decide)⟩

end Squaero.Ipc
