import Squaero.Ipc.Utf8
import Squaero.Lib.OutBuffer
import Squaero.Lib.TextOrder

/-!
# Text of Informix as UTF-8 and UTF-16

`utils/text.c` and `utils/utf16.c` of the driver read bytes as UTF-8, each with a decoder of its own: they accept what
the guard of the wire accepts. What is no UTF-8 is taken for Latin-1, so its characters are its bytes and its UTF-8 is
`utf8` of itself.
-/

namespace Squaero.Drivers.Informix

open Squaero.Lib

/-- A string of C: bytes other than NUL. -/
structure CStr where
  bytes : Text
  isByte : ∀ b ∈ bytes, b.toNat < 0x100
  noNul : '\x00' ∉ bytes

/-- The chain over the lead byte in `valid_utf8` and in `decode`. -/
def leadBounds (c : ℕ) : Option (ℕ × ℕ × ℕ) :=
  if c ≥ 0xC2 ∧ c ≤ 0xDF then some (2, 0x80, 0xBF)
  else if c = 0xE0 then some (3, 0xA0, 0xBF)
  else if c = 0xED then some (3, 0x80, 0x9F)
  else if c ≥ 0xE1 ∧ c ≤ 0xEC ∨ c = 0xEE ∨ c = 0xEF then some (3, 0x80, 0xBF)
  else if c = 0xF0 then some (4, 0x90, 0xBF)
  else if c ≥ 0xF1 ∧ c ≤ 0xF3 then some (4, 0x80, 0xBF)
  else if c = 0xF4 then some (4, 0x80, 0x8F)
  else none

def isContinuation (b : Char) : Bool := b.toNat &&& 0xC0 = 0x80

/-- The checks behind the chain: `rest` has the other bytes of the sequence. -/
def continues (len min2 max2 : ℕ) (rest : Text) : Bool :=
  !(rest.length + 1 < len) && (rest.head?.any fun d ↦ min2 ≤ d.toNat && d.toNat ≤ max2) &&
    ((rest.take (len - 1)).drop 1).all isContinuation

/-! ## `utils/text.c` -/

/-- The loop of `valid_utf8`, with `skip` bytes of a sequence still to pass. -/
def validUtf8From : ℕ → Text → Bool
  | _, [] => true
  | skip + 1, _ :: rest => validUtf8From skip rest
  | 0, c :: rest =>
    if c.toNat < 0x80 then validUtf8From 0 rest
    else
      match leadBounds c.toNat with
      | none => false
      | some (len, min2, max2) => if continues len min2 max2 rest then validUtf8From (len - 1) rest else false

def validUtf8 (s : Text) : Bool := validUtf8From 0 s

def widenedSize (s : Text) : ℕ := s.foldl (fun need c ↦ need + if c.toNat < 0x80 then 1 else 2) 1

def widen : Text → OutBuffer Char → Option (OutBuffer Char)
  | [], o => o.put '\x00'
  | c :: s, o =>
    if c.toNat < 0x80 then do
      let o ← o.put c
      widen s o
    else do
      let o ← o.put (.ofNat (0xC0 ||| (c.toNat >>> 6)))
      let o ← o.put (.ofNat (0x80 ||| (c.toNat &&& 0x3F)))
      widen s o

def ifxTextIsUtf8 : Option Text → Bool
  | none => true
  | some s => validUtf8 s

/-- What `ifx_text_to_utf8` returns: a null pointer, its argument, or the buffer with what is written there. -/
inductive Returned
  | null
  | itself
  | buffer (written : Text)
  deriving DecidableEq, Repr

/-- `ifx_text_to_utf8` with a buffer of `cap` bytes, and the capacity after it. No result where it writes outside the
buffer. -/
def ifxTextToUtf8 (alloc : Bool) (s : Option Text) (cap : ℕ) : Option (Returned × ℕ) :=
  match s with
  | none => some (.null, cap)
  | some s =>
    if validUtf8 s then some (.itself, cap)
    else
      let need := widenedSize s
      if need > cap ∧ ¬ alloc then some (.null, cap)
      else
        let cap := if need > cap then need else cap
        (widen s (.ofSize cap)).map fun o ↦ (.buffer o.written, cap)

/-- The string with its NUL, or no string; no result where it writes outside what it allocates. -/
def ifxTextToUtf8Dup (alloc : Bool) (s : Option Text) : Option (Option Text) :=
  match s with
  | none => some none
  | some s =>
    if ¬ alloc then some none
    else if validUtf8 s then
      ((OutBuffer.ofSize (s.length + 1)).putAll (s ++ ['\x00'])).map fun o ↦ some o.written
    else (widen s (.ofSize (widenedSize s))).map fun o ↦ some o.written

/-- The loop that backs up to the start of a sequence. -/
def backUp (fixed : Text) : ℕ → ℕ
  | 0 => 0
  | n + 1 => if isContinuation (fixed.getD (n + 1) '\x00') then backUp fixed n else n + 1

/-- `text` and a NUL at the start of `memory`. -/
def storeText (memory text : Text) : Option Text :=
  if text.length < memory.length then some (text ++ '\x00' :: memory.drop (text.length + 1)) else none

/-- `ifx_text_fix_utf8_inplace` on `memory` of `cap` bytes. No result where it writes outside of it. -/
def ifxTextFixUtf8Inplace (alloc : Bool) (memory : Option Text) (cap : ℕ) : Option (Option Text) :=
  match memory with
  | none => some none
  | some memory =>
    if cap = 0 then some (some memory)
    else if ifxTextIsUtf8 (cString memory) then some (some memory)
    else do
      match ← ifxTextToUtf8Dup alloc (cString memory) with
      | none =>
        let keep := (memory.takeWhile fun c ↦ c ≠ '\x00' && c.toNat < 0x80).length
        if keep < memory.length then some (some (memory.set keep '\x00')) else none
      | some written =>
        let fixed := cString written
        let n := if fixed.length > cap - 1 then backUp fixed (cap - 1) else fixed.length
        (storeText memory (fixed.take n)).map some

/-! ## `utils/utf16.c` -/

/-- The length of the sequence at the byte `c` in front of `rest`, and its code point. -/
def decode (c : Char) (rest : Text) : Option (ℕ × ℕ) :=
  if c.toNat < 0x80 then some (1, c.toNat)
  else
    match leadBounds c.toNat with
    | none => none
    | some (len, min2, max2) =>
      if continues len min2 max2 rest then
        let v := c.toNat &&& (0xFF >>> (len + 1))
        some (len, (rest.take (len - 1)).foldl (fun v d ↦ (v <<< 6) ||| (d.toNat &&& 0x3F)) v)
      else none

/-- The loop of `ifx_utf8_to_utf16`, with `skip` bytes of a sequence still to pass. No result where it writes outside
the buffer, and no buffer where the bytes are no UTF-8. -/
def unitsFrom : ℕ → Text → OutBuffer ℕ → Option (Option (OutBuffer ℕ))
  | _, [], o => some (some o)
  | skip + 1, _ :: rest, o => unitsFrom skip rest o
  | 0, c :: rest, o =>
    match decode c rest with
    | none => some none
    | some (len, cp) =>
      if cp ≤ 0xFFFF then do
        let o ← o.put (cp % 0x10000)
        unitsFrom (len - 1) rest o
      else do
        let o ← o.put ((0xD800 + ((cp - 0x10000) >>> 10)) % 0x10000)
        let o ← o.put ((0xDC00 + ((cp - 0x10000) &&& 0x3FF)) % 0x10000)
        unitsFrom (len - 1) rest o

/-- The units with their terminator and `*out_len`, or no string. -/
def ifxUtf8ToUtf16 (alloc : Bool) (s : Option Text) : Option (Option (List ℕ × ℕ)) :=
  match s with
  | none => some none
  | some s =>
    if ¬ alloc then some none
    else do
      match ← unitsFrom 0 s (.ofSize (s.length + 1)) with
      | none => some none
      | some o =>
        let ended ← o.put 0
        some (some (ended.written, o.written.length))

/-! ## Reading -/

theorem isContinuation_eq {b : Char} (h : b.toNat < 0x100) : isContinuation b = isTail b := by
  have hmask : ∀ n < 0x100, (n &&& 0xC0 = 0x80 ↔ n / 0x40 = 2) := by decide +kernel
  unfold isContinuation isTail
  rw [decide_eq_decide]
  exact hmask _ h

theorem and_low (n : ℕ) : n &&& 0x3F = n % 0x40 := Nat.and_two_pow_sub_one_eq_mod n 6

theorem push_low (v n : ℕ) : (v <<< 6) ||| (n &&& 0x3F) = v * 0x40 + n % 0x40 := by
  have hlow : n % 0x40 < 2 ^ 6 := Nat.mod_lt _ (by decide)
  rw [and_low, ← Nat.shiftLeft_add_eq_or_of_lt hlow, Nat.shiftLeft_eq]

/-- The tables of the driver are the table of the wire. -/
theorem leadBounds_eq : leadBounds = Ipc.leadRange := rfl

theorem seqLen_eq_one {c : Char} {rest : Text} (h : c.toNat < 0x80) : Ipc.seqLen c rest = 1 := if_pos h

theorem seqLen_eq_continues {c : Char} {rest : Text} {len min2 max2 : ℕ} (hbytes : ∀ b ∈ rest, b.toNat < 0x100)
    (hwide : ¬ c.toNat < 0x80) (hlead : leadBounds c.toNat = some (len, min2, max2)) :
    Ipc.seqLen c rest = if continues len min2 max2 rest then len else 0 := by
  have htails : ((rest.take (len - 1)).drop 1).all isContinuation =
      ((rest.take (len - 1)).drop 1).all fun d ↦ d.toNat / 0x40 = 2 := by
    rw [Bool.eq_iff_iff, List.all_eq_true, List.all_eq_true]
    refine forall₂_congr fun b hb ↦ ?_
    rw [isContinuation_eq (hbytes b (List.mem_of_mem_take (List.mem_of_mem_drop hb)))]
    rfl
  unfold Ipc.seqLen continues
  rw [if_neg hwide, ← leadBounds_eq, hlead, htails]
  dsimp only
  generalize (rest.head?.any fun d ↦ min2 ≤ d.toNat && d.toNat ≤ max2) = second
  generalize (((rest.take (len - 1)).drop 1).all fun d ↦ d.toNat / 0x40 = 2) = tails
  by_cases hshort : rest.length + 1 < len
  · simp [hshort]
  · cases second <;> simp [hshort]

/-- The driver accepts what the guard of the wire accepts. -/
theorem validUtf8From_eq {skip : ℕ} {s : Text} (hbytes : ∀ b ∈ s, b.toNat < 0x100) :
    validUtf8From skip s = Ipc.validFrom skip s := by
  induction s generalizing skip with
  | nil => cases skip <;> rfl
  | cons c rest ih =>
    rw [List.forall_mem_cons] at hbytes
    cases skip with
    | succ skip => exact ih hbytes.2
    | zero =>
      unfold validUtf8From Ipc.validFrom
      by_cases hone : c.toNat < 0x80
      · rw [if_pos hone, seqLen_eq_one hone]
        exact ih hbytes.2
      rw [if_neg hone]
      cases hlead : leadBounds c.toNat with
      | none =>
        have hlen : Ipc.seqLen c rest = 0 := by
          rw [Ipc.seqLen, if_neg hone, ← leadBounds_eq, hlead]
        rw [hlen]
      | some r =>
        obtain ⟨len, min2, max2⟩ := r
        have hpos : len ≠ 0 := by
          have hcases := Ipc.leadRange_cases (leadBounds_eq ▸ hlead)
          omega
        obtain ⟨len, rfl⟩ := Nat.exists_eq_succ_of_ne_zero hpos
        rw [seqLen_eq_continues hbytes.2 hone hlead]
        dsimp only
        cases continues (len + 1) min2 max2 rest with
        | true => exact ih hbytes.2
        | false => rfl

theorem validUtf8_eq {s : Text} (hbytes : ∀ b ∈ s, b.toNat < 0x100) : validUtf8 s = Ipc.ipcUtf8Valid s :=
  validUtf8From_eq hbytes

/-- `decode` finds the sequences of the guard, and the code point of each. -/
theorem decode_eq {c : Char} {rest : Text} (hc : c.toNat < 0x100) (hbytes : ∀ b ∈ rest, b.toNat < 0x100) :
    decode c rest = if Ipc.seqLen c rest = 0 then none else some (Ipc.seqLen c rest, decodeFirst (c :: rest)) := by
  unfold decode
  by_cases hone : c.toNat < 0x80
  · have hfirst : decodeFirst (c :: rest) = c.toNat := if_pos hone
    rw [if_pos hone, seqLen_eq_one hone, hfirst, if_neg Nat.one_ne_zero]
  rw [if_neg hone]
  cases hlead : leadBounds c.toNat with
  | none =>
    have hlen : Ipc.seqLen c rest = 0 := by
      rw [Ipc.seqLen, if_neg hone, ← leadBounds_eq, hlead]
    rw [if_pos hlen]
  | some r =>
    obtain ⟨len, min2, max2⟩ := r
    rw [seqLen_eq_continues hbytes hone hlead]
    dsimp only
    cases hfits : continues len min2 max2 rest with
    | false => rfl
    | true =>
      have hroom : len ≤ rest.length + 1 := by
        simp only [continues, Bool.and_eq_true, Bool.not_eq_true', decide_eq_false_iff_not] at hfits
        exact not_lt.mp hfits.1.1
      simp only [if_true]
      obtain ⟨rfl, hlow, hhigh, -⟩ | ⟨rfl, hlow, hhigh, -⟩ | ⟨rfl, hlow, hhigh, -⟩ :=
        Ipc.leadRange_cases (leadBounds_eq ▸ hlead)
      · obtain ⟨d, rest, rfl⟩ := List.exists_cons_of_length_pos (l := rest) (by omega)
        have hmask : c.toNat &&& (0xFF >>> (2 + 1)) = c.toNat % 0x20 := Nat.and_two_pow_sub_one_eq_mod _ 5
        have hfirst : decodeFirst (c :: d :: rest) = c.toNat % 0x20 * 0x40 + d.toNat % 0x40 := by
          simp only [decodeFirst, List.getD_cons_zero]
          rw [if_neg hone, if_pos (by omega)]
        rw [hmask, hfirst, if_neg (by decide)]
        simp only [Nat.add_one_sub_one, List.take_succ_cons, List.take_zero, List.foldl_cons, List.foldl_nil, push_low]
      · obtain ⟨d, rest, rfl⟩ := List.exists_cons_of_length_pos (l := rest) (by omega)
        rw [List.length_cons] at hroom
        obtain ⟨e, rest, rfl⟩ := List.exists_cons_of_length_pos (l := rest) (by omega)
        have hmask : c.toNat &&& (0xFF >>> (3 + 1)) = c.toNat % 0x10 := Nat.and_two_pow_sub_one_eq_mod _ 4
        have hfirst : decodeFirst (c :: d :: e :: rest) =
            c.toNat % 0x10 * 0x1000 + d.toNat % 0x40 * 0x40 + e.toNat % 0x40 := by
          simp only [decodeFirst, List.getD_cons_zero, List.getD_cons_succ]
          rw [if_neg hone, if_neg (by omega), if_pos (by omega)]
        rw [hmask, hfirst, if_neg (by decide)]
        simp only [Nat.reduceSub, List.take_succ_cons, List.take_zero, List.foldl_cons, List.foldl_nil, push_low]
        congr 2
        omega
      · obtain ⟨d, rest, rfl⟩ := List.exists_cons_of_length_pos (l := rest) (by omega)
        rw [List.length_cons] at hroom
        obtain ⟨e, rest, rfl⟩ := List.exists_cons_of_length_pos (l := rest) (by omega)
        rw [List.length_cons] at hroom
        obtain ⟨f, rest, rfl⟩ := List.exists_cons_of_length_pos (l := rest) (by omega)
        have hmask : c.toNat &&& (0xFF >>> (4 + 1)) = c.toNat % 0x08 := Nat.and_two_pow_sub_one_eq_mod _ 3
        have hfirst : decodeFirst (c :: d :: e :: f :: rest) =
            c.toNat % 0x08 * 0x40000 + d.toNat % 0x40 * 0x1000 + e.toNat % 0x40 * 0x40 + f.toNat % 0x40 := by
          simp only [decodeFirst, List.getD_cons_zero, List.getD_cons_succ]
          rw [if_neg hone, if_neg (by omega), if_neg (by omega)]
        rw [hmask, hfirst, if_neg (by decide)]
        simp only [Nat.reduceSub, List.take_succ_cons, List.take_zero, List.foldl_cons, List.foldl_nil, push_low]
        congr 2
        omega

/-! ## Widening -/

theorem widenedSize_eq {s : Text} (hbytes : ∀ b ∈ s, b.toNat < 0x100) : widenedSize s = (utf8 s).length + 1 := by
  have hfold (need : ℕ) : s.foldl (fun need c ↦ need + if c.toNat < 0x80 then 1 else 2) need =
      need + (utf8 s).length := by
    induction s generalizing need with
    | nil => rfl
    | cons c s ih =>
      rw [List.forall_mem_cons] at hbytes
      have hone : (utf8Bytes c).length = if c.toNat < 0x80 then 1 else 2 := by
        rw [utf8Bytes]
        split_ifs <;> first | rfl | omega
      rw [List.foldl_cons, ih hbytes.2, utf8_cons, List.length_append, hone]
      omega
  rw [widenedSize, hfold, Nat.add_comm]

theorem utf8Bytes_of_byte {c : Char} (hc : c.toNat < 0x100) (hwide : ¬ c.toNat < 0x80) :
    utf8Bytes c = [.ofNat (0xC0 ||| (c.toNat >>> 6)), .ofNat (0x80 ||| (c.toNat &&& 0x3F))] := by
  have hbits : ∀ n < 0x100, ¬ n < 0x80 →
      0xC0 ||| (n >>> 6) = 0xC0 + n / 0x40 ∧ 0x80 ||| (n &&& 0x3F) = 0x80 + n % 0x40 := by decide +kernel
  obtain ⟨hlead, hnext⟩ := hbits _ hc hwide
  rw [utf8Bytes, if_neg hwide, if_pos (by omega), hlead, hnext]

/-- The Latin-1 text `s` becomes its UTF-8, and fits in what was computed for it. -/
theorem widen_eq_filled {s : Text} (hbytes : ∀ b ∈ s, b.toNat < 0x100) {o : OutBuffer Char}
    (hroom : (utf8 s).length < o.room) : widen s o = some (o.filled (utf8 s ++ ['\x00'])) := by
  induction s generalizing o with
  | nil => exact OutBuffer.put_eq_filled hroom '\x00'
  | cons c s ih =>
    rw [List.forall_mem_cons] at hbytes
    rw [utf8_cons, List.length_append] at hroom
    have hrest : widen s (o.filled (utf8Bytes c)) = some (o.filled (utf8 (c :: s) ++ ['\x00'])) := by
      have hleft : (utf8 s).length < (o.filled (utf8Bytes c)).room := by
        dsimp only [OutBuffer.filled]
        omega
      rw [ih hbytes.2 hleft, OutBuffer.filled_filled, utf8_cons, List.append_assoc]
    rw [widen]
    split
    next hone =>
      have hc : utf8Bytes c = [c] := if_pos hone
      rw [hc] at hrest
      rw [OutBuffer.put_eq_filled (by omega)]
      exact hrest
    next hwide =>
      rw [utf8Bytes_of_byte hbytes.1 hwide] at hrest hroom
      rw [List.length_cons, List.length_singleton] at hroom
      have hleft : 0 < (o.filled [.ofNat (0xC0 ||| (c.toNat >>> 6))]).room := by
        dsimp only [OutBuffer.filled, List.length_singleton]
        omega
      rw [OutBuffer.put_eq_filled (by omega)]
      dsimp only [bind, Option.bind]
      rw [OutBuffer.put_eq_filled hleft, OutBuffer.filled_filled]
      exact hrest

/-! ## Code units -/

theorem unitsFrom_append {first : Text} (rest : Text) (o : OutBuffer ℕ) :
    unitsFrom first.length (first ++ rest) o = unitsFrom 0 rest o := by
  induction first with
  | nil => rfl
  | cons c first ih => exact ih

theorem length_unitsOf_le (c : Char) : (unitsOf c).length ≤ (utf8Bytes c).length := by
  unfold unitsOf utf8Bytes
  dsimp only
  split_ifs <;> simp
  omega

theorem length_codeUnits_le (text : Text) : (codeUnits text).length ≤ (utf8 text).length := by
  induction text with
  | nil => exact le_rfl
  | cons c text ih =>
    have hc := length_unitsOf_le c
    rw [codeUnits, List.flatMap_cons, utf8_cons, List.length_append, List.length_append]
    exact Nat.add_le_add hc ih

theorem unitsFrom_char (c : Char) {rest : Text} (hbytes : ∀ b ∈ rest, b.toNat < 0x100) {o : OutBuffer ℕ}
    (hroom : (unitsOf c).length ≤ o.room) :
    unitsFrom 0 (utf8Bytes c ++ rest) o = unitsFrom 0 rest (o.filled (unitsOf c)) := by
  have hvalid := toNat_isValidChar c
  obtain ⟨lead, tails, hbytesOf, -⟩ := exists_lead c
  obtain ⟨lead', more, hcons, hlen⟩ := Ipc.seqLen_utf8Bytes c rest
  have hsplit : lead :: (tails ++ rest) = lead' :: more := by
    rw [← hcons, hbytesOf, List.cons_append]
  obtain ⟨rfl, rfl⟩ := List.cons.inj hsplit
  have hbyte (b : Char) (hb : b ∈ lead :: tails) : b.toNat < 0x100 := by
    refine @toNat_lt_of_mem_utf8 [c] b ?_
    rwa [utf8_singleton, hbytesOf]
  have hdecode : decode lead (tails ++ rest) = some (tails.length + 1, c.toNat) := by
    have hmore : ∀ b ∈ tails ++ rest, b.toNat < 0x100 := by
      rw [List.forall_mem_append]
      exact ⟨fun b hb ↦ hbyte b (.tail _ hb), hbytes⟩
    rw [decode_eq (hbyte lead (.head _)) hmore, hlen, ← hcons, decodeFirst_utf8Bytes, hbytesOf, List.length_cons]
    exact if_neg (Nat.succ_ne_zero _)
  rw [hbytesOf, List.cons_append, unitsFrom, hdecode]
  dsimp only [Nat.add_one_sub_one]
  unfold unitsOf at hroom ⊢
  split
  next hbasic =>
    rw [if_pos (by omega)] at hroom ⊢
    rw [Nat.mod_eq_of_lt (by omega), OutBuffer.put_eq_filled hroom]
    exact unitsFrom_append rest _
  next hpair =>
    rw [if_neg (by omega)] at hroom ⊢
    rw [List.length_cons, List.length_singleton] at hroom
    have hhigh : (0xD800 + ((c.toNat - 0x10000) >>> 10)) % 0x10000 = 0xD800 + (c.toNat - 0x10000) / 0x400 := by
      rw [Nat.shiftRight_eq_div_pow, Nat.mod_eq_of_lt (by omega)]
    have hlow : (0xDC00 + ((c.toNat - 0x10000) &&& 0x3FF)) % 0x10000 = 0xDC00 + (c.toNat - 0x10000) % 0x400 := by
      rw [Nat.and_two_pow_sub_one_eq_mod _ 10, Nat.mod_eq_of_lt (by omega)]
    have hleft : 0 < (o.filled [0xD800 + (c.toNat - 0x10000) / 0x400]).room := by
      dsimp only [OutBuffer.filled, List.length_singleton]
      omega
    rw [hhigh, hlow, OutBuffer.put_eq_filled (by omega)]
    dsimp only [bind, Option.bind]
    rw [OutBuffer.put_eq_filled hleft, OutBuffer.filled_filled]
    exact unitsFrom_append rest _

theorem unitsFrom_stray {b : Char} {rest : Text} (hbytes : ∀ d ∈ b :: rest, d.toNat < 0x100)
    (hb : ∀ c, ¬ utf8Bytes c <+: b :: rest) (o : OutBuffer ℕ) : unitsFrom 0 (b :: rest) o = some none := by
  rw [List.forall_mem_cons] at hbytes
  have hlen : Ipc.seqLen b rest = 0 := by
    by_contra hlen
    obtain ⟨c, hc⟩ := Ipc.exists_of_seqLen hlen
    exact hb c hc
  rw [unitsFrom, decode_eq hbytes.1 hbytes.2, if_pos hlen]

theorem unitsFrom_utf8 (text : Text) {o : OutBuffer ℕ} (hroom : (utf8 text).length ≤ o.room) :
    unitsFrom 0 (utf8 text) o = some (some (o.filled (codeUnits text))) := by
  induction text generalizing o with
  | nil => exact (congrArg (fun o ↦ some (some o)) (OutBuffer.filled_nil o)).symm
  | cons c text ih =>
    have hunits := length_unitsOf_le c
    rw [utf8_cons, List.length_append] at hroom
    have hleft : (utf8 text).length ≤ (o.filled (unitsOf c)).room := by
      dsimp only [OutBuffer.filled]
      omega
    rw [utf8_cons, unitsFrom_char c (fun b ↦ toNat_lt_of_mem_utf8) (by omega), ih hleft, OutBuffer.filled_filled]
    rfl

theorem unitsFrom_of_not_valid {s : Text} (hbytes : ∀ b ∈ s, b.toNat < 0x100) (h : Ipc.ipcUtf8Valid s = false)
    {o : OutBuffer ℕ} (hroom : s.length ≤ o.room) : unitsFrom 0 s o = some none := by
  obtain ⟨ps, hps⟩ := exists_pieces s
  unfold Ipc.ipcUtf8Valid at h
  induction hps generalizing o with
  | nil => cases h
  | @char rest _ c _ ih =>
    have hunits := length_unitsOf_le c
    rw [List.forall_mem_append] at hbytes
    rw [List.length_append] at hroom
    rw [(Ipc.guard_char c rest).1] at h
    have hleft : rest.length ≤ (o.filled (unitsOf c)).room := by
      dsimp only [OutBuffer.filled]
      omega
    rw [unitsFrom_char c hbytes.2 (by omega), ih hbytes.2 h hleft]
  | stray hb _ _ => exact unitsFrom_stray hbytes hb o

/-! ## Truncation -/

theorem backUp_le (fixed : Text) (n : ℕ) : backUp fixed n ≤ n := by
  induction n with
  | zero => exact le_rfl
  | succ n ih =>
    rw [backUp]
    split
    · exact ih.trans (Nat.le_succ n)
    · exact le_rfl

theorem backUp_stops (fixed : Text) (n : ℕ) :
    backUp fixed n = 0 ∨ isContinuation (fixed.getD (backUp fixed n) '\x00') = false := by
  induction n with
  | zero => exact .inl rfl
  | succ n ih =>
    rw [backUp]
    split
    next => exact ih
    next h => exact .inr (by simpa using h)

theorem cString_append_nul {s : Text} (h : '\x00' ∉ s) (junk : Text) : cString (s ++ '\x00' :: junk) = s := by
  have hall : ∀ c ∈ s, decide (c ≠ '\x00') = true := fun c hc ↦ decide_eq_true (ne_of_mem_of_not_mem hc h)
  rw [cString, List.takeWhile_append_of_pos hall, List.takeWhile_cons_of_neg (by simp), List.append_nil]

theorem nul_not_mem_utf8 {s : Text} (h : '\x00' ∉ s) : '\x00' ∉ utf8 s := (mem_utf8_iff rfl).not.mpr h

theorem storeText_eq {memory text : Text} (h : text.length < memory.length) (hnul : '\x00' ∉ text) :
    ∃ after, storeText memory text = some after ∧ after.length = memory.length ∧ cString after = text := by
  refine ⟨_, if_pos h, ?_, cString_append_nul hnul _⟩
  rw [List.length_append, List.length_cons, List.length_drop]
  omega

/-- The widened text, cut to `room` bytes, is a first part of the characters. -/
theorem exists_truncated (s : Text) (room : ℕ) : ∃ front back, s = front ++ back ∧ (utf8 front).length ≤ room ∧
    (utf8 s).take (if (utf8 s).length > room then backUp (utf8 s) room else (utf8 s).length) = utf8 front := by
  split
  next hlong =>
    have hle := backUp_le (utf8 s) room
    have hstop : backUp (utf8 s) room = 0 ∨ isTail ((utf8 s).getD (backUp (utf8 s) room) '\x00') = false := by
      refine (backUp_stops (utf8 s) room).imp_right fun h ↦ ?_
      have hmem : (utf8 s).getD (backUp (utf8 s) room) '\x00' ∈ utf8 s := by
        rw [List.getD_eq_getElem _ _ (by omega)]
        exact List.getElem_mem _
      rwa [isContinuation_eq (toNat_lt_of_mem_utf8 hmem)] at h
    obtain ⟨front, back, hsplit, htake⟩ := exists_take_eq_utf8 s hstop
    refine ⟨front, back, hsplit, ?_, htake⟩
    rw [← htake, List.length_take]
    omega
  next hfits => exact ⟨s, [], (List.append_nil s).symm, not_lt.mp hfits, List.take_length⟩

/-- The ASCII bytes in front of the first other one, and the NUL written behind them. -/
theorem exists_kept {s : Text} (h : '\x00' ∉ s) (junk : Text) : ∃ kept back,
    ((s ++ '\x00' :: junk).takeWhile fun c ↦ c ≠ '\x00' && c.toNat < 0x80) = kept ∧ s = kept ++ back ∧
    utf8 kept = kept ∧ kept.length < (s ++ '\x00' :: junk).length ∧
    cString ((s ++ '\x00' :: junk).set kept.length '\x00') = kept := by
  let isAscii (c : Char) : Bool := c ≠ '\x00' && c.toNat < 0x80
  have hall : ∀ c ∈ s.takeWhile isAscii, isAscii c = true := fun c hc ↦ List.mem_takeWhile_imp hc
  have hkept : (s ++ '\x00' :: junk).takeWhile isAscii = s.takeWhile isAscii := by
    have hstop : ('\x00' :: junk).takeWhile isAscii = [] := List.takeWhile_cons_of_neg (by simp [isAscii])
    rw [List.takeWhile_append, hstop, List.append_nil]
    split
    next hsame => exact ((List.takeWhile_prefix isAscii).eq_of_length hsame).symm
    next => rfl
  have hle := (List.takeWhile_prefix (l := s) isAscii).length_le
  have hroom : (s.takeWhile isAscii).length < (s ++ '\x00' :: junk).length := by
    rw [List.length_append, List.length_cons]
    omega
  have hascii : utf8 (s.takeWhile isAscii) = s.takeWhile isAscii := by
    refine utf8_of_ascii fun c hc ↦ ?_
    have hc := hall c hc
    simp only [isAscii, Bool.and_eq_true, decide_eq_true_eq] at hc
    simpa [isWide] using hc.2
  have hnul : '\x00' ∉ s.takeWhile isAscii := fun hmem ↦ h ((List.takeWhile_prefix isAscii).subset hmem)
  have hset : (s ++ '\x00' :: junk).set (s.takeWhile isAscii).length '\x00' =
      s.takeWhile isAscii ++ '\x00' :: (s ++ '\x00' :: junk).drop ((s.takeWhile isAscii).length + 1) := by
    rw [List.set_eq_take_append_cons_drop, if_pos hroom, List.take_append_of_le_length hle,
      ← List.prefix_iff_eq_take.mp (List.takeWhile_prefix isAscii)]
  refine ⟨s.takeWhile isAscii, s.dropWhile isAscii, hkept, List.takeWhile_append_dropWhile.symm, hascii, hroom, ?_⟩
  rw [hset, cString_append_nul hnul]

/-! ## The functions -/

theorem ifxUtf8ToUtf16_utf8 (text : Text) :
    ifxUtf8ToUtf16 true (some (utf8 text)) = some (some (codeUnits text ++ [0], (codeUnits text).length)) := by
  have hunits := length_codeUnits_le text
  have hroom : (utf8 text).length ≤ (OutBuffer.ofSize ((utf8 text).length + 1) : OutBuffer ℕ).room := Nat.le_succ _
  have hleft : 0 < ((OutBuffer.ofSize ((utf8 text).length + 1)).filled (codeUnits text)).room := by
    dsimp only [OutBuffer.filled, OutBuffer.ofSize]
    omega
  unfold ifxUtf8ToUtf16
  dsimp only [bind, Option.bind]
  rw [unitsFrom_utf8 text hroom]
  dsimp only
  rw [OutBuffer.put_eq_filled hleft]
  rfl

theorem ifxUtf8ToUtf16_of_not_valid {s : Text} (hbytes : ∀ b ∈ s, b.toNat < 0x100)
    (h : Ipc.ipcUtf8Valid s = false) : ifxUtf8ToUtf16 true (some s) = some none := by
  have hroom : s.length ≤ (OutBuffer.ofSize (s.length + 1) : OutBuffer ℕ).room := Nat.le_succ _
  unfold ifxUtf8ToUtf16
  dsimp only [bind, Option.bind]
  rw [unitsFrom_of_not_valid hbytes h hroom]
  rfl

theorem ifxTextToUtf8_of_valid {s : Text} (h : validUtf8 s = true) (alloc : Bool) (cap : ℕ) :
    ifxTextToUtf8 alloc (some s) cap = some (.itself, cap) := if_pos h

theorem ifxTextToUtf8_of_not_valid {s : Text} (hbytes : ∀ b ∈ s, b.toNat < 0x100) (h : validUtf8 s = false)
    (cap : ℕ) :
    ifxTextToUtf8 true (some s) cap = some (.buffer (utf8 s ++ ['\x00']), max cap (widenedSize s)) := by
  have hcap : (if widenedSize s > cap then widenedSize s else cap) = max cap (widenedSize s) := by
    split <;> omega
  have hroom : (utf8 s).length < (OutBuffer.ofSize (max cap (widenedSize s)) : OutBuffer Char).room := by
    rw [widenedSize_eq hbytes]
    exact Nat.lt_of_succ_le (le_max_right ..)
  unfold ifxTextToUtf8
  dsimp only
  rw [if_neg (by simp [h]), if_neg (by simp), hcap, widen_eq_filled hbytes hroom]
  rfl

theorem ifxTextToUtf8Dup_of_valid {s : Text} (h : validUtf8 s = true) :
    ifxTextToUtf8Dup true (some s) = some (some (s ++ ['\x00'])) := by
  have hroom : (s ++ ['\x00']).length ≤ (OutBuffer.ofSize (s.length + 1) : OutBuffer Char).room :=
    List.length_append.le
  unfold ifxTextToUtf8Dup
  dsimp only
  rw [if_neg (by simp), if_pos h, OutBuffer.putAll_eq_filled hroom]
  rfl

theorem ifxTextToUtf8Dup_of_not_valid {s : Text} (hbytes : ∀ b ∈ s, b.toNat < 0x100) (h : validUtf8 s = false) :
    ifxTextToUtf8Dup true (some s) = some (some (utf8 s ++ ['\x00'])) := by
  have hroom : (utf8 s).length < (OutBuffer.ofSize (widenedSize s) : OutBuffer Char).room := by
    rw [widenedSize_eq hbytes]
    exact Nat.lt_succ_self _
  unfold ifxTextToUtf8Dup
  dsimp only
  rw [if_neg (by simp), if_neg (by simp [h]), widen_eq_filled hbytes hroom]
  rfl

/-- What `ifx_text_fix_utf8_inplace` leaves is a first part of the characters of the duplicate, also where there is no
memory for the duplicate. -/
theorem ifxTextFixUtf8Inplace_spec (s : CStr) (alloc : Bool) {memory : Text}
    (hmemory : s.bytes ++ ['\x00'] <+: memory) : ∃ after front back,
      ifxTextFixUtf8Inplace alloc (some memory) memory.length = some (some after) ∧ after.length = memory.length ∧
      cString after = utf8 front ∧ (utf8 front).length ≤ memory.length - 1 ∧
      ifxTextToUtf8Dup true (some s.bytes) = some (some (utf8 (front ++ back) ++ ['\x00'])) := by
  obtain ⟨junk, rfl⟩ := hmemory
  rw [List.append_assoc, List.singleton_append]
  have hcString := cString_append_nul s.noNul junk
  have hcap : (s.bytes ++ '\x00' :: junk).length ≠ 0 := by simp
  unfold ifxTextFixUtf8Inplace
  dsimp only
  rw [if_neg hcap, hcString]
  cases hvalid : validUtf8 s.bytes with
  | true =>
    obtain ⟨text, htext⟩ := (Ipc.ipcUtf8Valid_iff s.bytes).mp (validUtf8_eq s.isByte ▸ hvalid)
    refine ⟨_, text, [], if_pos hvalid, rfl, hcString.trans htext, ?_, ?_⟩
    · rw [← htext, List.length_append, List.length_cons]
      omega
    · rw [ifxTextToUtf8Dup_of_valid hvalid, List.append_nil, htext]
  | false =>
    have hdup := ifxTextToUtf8Dup_of_not_valid s.isByte hvalid
    rw [if_neg (by simp [ifxTextIsUtf8, hvalid])]
    cases alloc with
    | true =>
      obtain ⟨front, back, hsplit, hlength, htake⟩ :=
        exists_truncated s.bytes ((s.bytes ++ '\x00' :: junk).length - 1)
      have hnul : '\x00' ∉ utf8 front := by
        refine fun hmem ↦ s.noNul ?_
        rw [hsplit]
        exact List.mem_append_left _ ((mem_utf8_iff rfl).mp hmem)
      have hroom : (utf8 front).length < (s.bytes ++ '\x00' :: junk).length := by omega
      obtain ⟨after, hstore, hafter, hstring⟩ := storeText_eq hroom hnul
      refine ⟨after, front, back, ?_, hafter, hstring, hlength, hsplit ▸ hdup⟩
      rw [hdup]
      dsimp only [bind, Option.bind]
      rw [cString_append_nul (nul_not_mem_utf8 s.noNul), htake, hstore]
      rfl
    | false =>
      obtain ⟨kept, back, hkept, hsplit, hascii, hroom, hstring⟩ := exists_kept s.noNul junk
      refine ⟨_, kept, back, ?_, List.length_set, hstring.trans hascii.symm, ?_, hsplit ▸ hdup⟩
      · have hnone : ifxTextToUtf8Dup false (some s.bytes) = some none := rfl
        rw [hnone]
        dsimp only [bind, Option.bind]
        rw [hkept]
        exact if_pos hroom
      · rw [hascii]
        omega

/-- The three readers accept the same strings and convert them exactly; what they refuse is taken for Latin-1, and a
message buffer keeps a first part of what that gives. -/
theorem utf8Readers_agree (s : CStr) :
    (ifxTextIsUtf8 (some s.bytes) = true ↔ Ipc.ipcUtf8Valid s.bytes = true) ∧
    ((∃ units, ifxUtf8ToUtf16 true (some s.bytes) = some (some units)) ↔ Ipc.ipcUtf8Valid s.bytes = true) ∧
    (Ipc.ipcUtf8Valid s.bytes = true → ∃ text, s.bytes = utf8 text ∧
      ifxUtf8ToUtf16 true (some s.bytes) = some (some (codeUnits text ++ [0], (codeUnits text).length)) ∧
      (codeUnits text).length ≤ s.bytes.length ∧
      ∀ alloc cap, ifxTextToUtf8 alloc (some s.bytes) cap = some (.itself, cap)) ∧
    (Ipc.ipcUtf8Valid s.bytes = false →
      ifxUtf8ToUtf16 true (some s.bytes) = some none ∧
      (∀ cap, ifxTextToUtf8 true (some s.bytes) cap =
        some (.buffer (utf8 s.bytes ++ ['\x00']), max cap (widenedSize s.bytes))) ∧
      ifxTextToUtf8Dup true (some s.bytes) = some (some (utf8 s.bytes ++ ['\x00'])) ∧
      (utf8 s.bytes ++ ['\x00']).length ≤ widenedSize s.bytes) ∧
    ∀ alloc cap memory, s.bytes.length < cap → memory.length = cap → s.bytes ++ ['\x00'] <+: memory →
      ∃ after front back, ifxTextFixUtf8Inplace alloc (some memory) cap = some (some after) ∧ after.length = cap ∧
        cString after = utf8 front ∧ Ipc.ipcUtf8Valid (cString after) = true ∧ (cString after).length ≤ cap - 1 ∧
        ifxTextToUtf8Dup true (some s.bytes) = some (some (utf8 (front ++ back) ++ ['\x00'])) := by
  have hsame := validUtf8_eq s.isByte
  refine ⟨hsame ▸ Iff.rfl, ⟨fun ⟨units, hunits⟩ ↦ ?_, fun hvalid ↦ ?_⟩, fun hvalid ↦ ?_, fun hnot ↦ ?_, ?_⟩
  · by_contra hnot
    rw [ifxUtf8ToUtf16_of_not_valid s.isByte (by simpa using hnot)] at hunits
    cases hunits
  · obtain ⟨text, htext⟩ := (Ipc.ipcUtf8Valid_iff s.bytes).mp hvalid
    rw [htext]
    exact ⟨_, ifxUtf8ToUtf16_utf8 text⟩
  · obtain ⟨text, htext⟩ := (Ipc.ipcUtf8Valid_iff s.bytes).mp hvalid
    refine ⟨text, htext, ?_, ?_, ifxTextToUtf8_of_valid (hsame.trans hvalid)⟩
    · rw [htext]
      exact ifxUtf8ToUtf16_utf8 text
    · rw [htext]
      exact length_codeUnits_le text
  · refine ⟨ifxUtf8ToUtf16_of_not_valid s.isByte hnot, ifxTextToUtf8_of_not_valid s.isByte (hsame.trans hnot),
      ifxTextToUtf8Dup_of_not_valid s.isByte (hsame.trans hnot), ?_⟩
    rw [widenedSize_eq s.isByte, List.length_append, List.length_singleton]
  · rintro alloc cap memory - rfl hmemory
    obtain ⟨after, front, back, hfix, hlength, hstring, hle, hdup⟩ := ifxTextFixUtf8Inplace_spec s alloc hmemory
    refine ⟨after, front, back, hfix, hlength, hstring, ?_, hstring ▸ hle, hdup⟩
    exact (Ipc.ipcUtf8Valid_iff _).mpr ⟨front, hstring⟩

/-- `a\xE1` in four bytes, the message of the driver's own test: it has room for the two bytes of its accent. -/
theorem utf8Readers_agree_cut :
    ∃ after front back, ifxTextFixUtf8Inplace true (some ['a', '\xE1', '\x00', '\x00']) 4 = some (some after) ∧
      after.length = 4 ∧ cString after = utf8 front ∧ Ipc.ipcUtf8Valid (cString after) = true ∧
      (cString after).length ≤ 4 - 1 ∧
      ifxTextToUtf8Dup true (some ['a', '\xE1']) = some (some (utf8 (front ++ back) ++ ['\x00'])) :=
  (utf8Readers_agree ⟨['a', '\xE1'], by decide, by decide⟩).2.2.2.2 true 4 _ (by decide) (by decide) (by decide)

end Squaero.Drivers.Informix
