import Squaero.Lib.JsonText

/-!
# The parts of a JSON text

An object is split into its keys and the texts of their values, so that another reader can tell apart values that
are the same JSON. What is written member by member is split into these members.
-/

namespace Squaero.Lib.Json

/-! ## Splitting -/

/-- What was read of a text when `after` is left. -/
def readOf (text after : Text) : Text := text.take (text.length - after.length)

/-- The members of an object up to its brace. -/
def splitMembers : ℕ → Text → Option (List (Text × Text) × Text)
  | 0, _ => none
  | fuel + 1, text =>
    match skipBlanks text with
    | '"' :: rest => do
      let (key, after) ← readString rest
      match skipBlanks after with
      | ':' :: rest =>
        let (_, after) ← readValue fuel (skipBlanks rest)
        let member := (key, readOf (skipBlanks rest) after)
        match skipBlanks after with
        | '}' :: rest => some ([member], rest)
        | ',' :: rest => (splitMembers fuel rest).map fun (members, after) ↦ (member :: members, after)
        | _ => none
      | _ => none
    | _ => none

/-- The keys of an object, each with the text of its value. -/
def membersOf (text : Text) : Option (List (Text × Text)) :=
  match skipBlanks text with
  | '{' :: rest =>
    if (skipBlanks rest).head? = some '}' then
      if skipBlanks ((skipBlanks rest).drop 1) = [] then some [] else none
    else (splitMembers (2 * text.length + 2) rest).bind fun (members, after) ↦
      if skipBlanks after = [] then some members else none
  | _ => none

/-! ## What is written part by part -/

/-- A text of a value without blanks around it. -/
def WritesValue (text : Text) : Prop := ∃ v, Spells (.value v) text

/-- A member of an object, with a blank behind the colon. -/
structure WritesMember (member : Text × Text) (text : Text) : Prop where
  value : WritesValue member.2
  text_eq : ∃ body units, Body body units ∧ member.1 = ofUnits units ∧
    text = '"' :: (body ++ '"' :: ':' :: ' ' :: member.2)

theorem comma_append (text : Text) : ", ".toList ++ text = ',' :: ([' '] ++ text) := rfl

theorem readOf_append (text after : Text) : readOf (text ++ after) after = text := by
  rw [readOf, List.length_append, Nat.add_sub_cancel, List.take_left]

section Member

variable {member : Text × Text} {text : Text} (h : WritesMember member text)

include h

theorem WritesMember.head : text.head? = some '"' := by
  obtain ⟨body, units, -, -, rfl⟩ := h.text_eq
  rfl

theorem WritesMember.length_le : member.2.length ≤ text.length := by
  obtain ⟨body, units, -, -, rfl⟩ := h.text_eq
  simp only [List.length_cons, List.length_append]
  omega

/-- One round of the loop over the members. -/
theorem WritesMember.split {blanks rest : Text} (hblanks : Blanks blanks) (hrest : Follows rest) {fuel : ℕ}
    (hfuel : 2 * text.length ≤ fuel) :
    splitMembers (fuel + 1) (blanks ++ (text ++ rest)) =
      match skipBlanks rest with
      | '}' :: rest => some ([member], rest)
      | ',' :: rest => (splitMembers fuel rest).map fun (members, after) ↦ (member :: members, after)
      | _ => none := by
  have hlength := h.length_le
  obtain ⟨v, hv⟩ := h.value
  obtain ⟨body, units, hbody, hkey, rfl⟩ := h.text_eq
  have hread := readAs_of_spells hv fuel rest (by omega) hrest
  have hstring : readString (body ++ '"' :: ':' :: ' ' :: (member.2 ++ rest)) =
      some (member.1, ':' :: ' ' :: (member.2 ++ rest)) := by
    rw [readString, readUnits_body hbody, hkey]
    rfl
  have hspace : skipBlanks (' ' :: (member.2 ++ rest)) = member.2 ++ rest :=
    (skipBlanks_append blanks_space (member.2 ++ rest)).trans (hv.skipBlanks_value rest)
  rw [splitMembers, skipBlanks_append hblanks]
  simp only [List.cons_append, List.append_assoc, skipBlanks_of_not (by decide : isBlank '"' = false), hstring,
    Option.bind_eq_bind, Option.bind_some, skipBlanks_of_not (by decide : isBlank ':' = false), hspace, hread,
    readOf_append]

end Member

theorem splitMembers_intercalate {member : Text × Text} {members : List (Text × Text)} {text : Text}
    {texts : List Text} (h : WritesMember member text) (hmore : List.Forall₂ WritesMember members texts)
    {blanks : Text} (hblanks : Blanks blanks) (rest : Text) {fuel : ℕ}
    (hfuel : 2 * (", ".toList.intercalate (text :: texts)).length < fuel) :
    splitMembers fuel (blanks ++ (", ".toList.intercalate (text :: texts) ++ '}' :: rest)) =
      some (member :: members, rest) := by
  obtain ⟨fuel, rfl⟩ := Nat.exists_eq_add_of_le' (by omega : 1 ≤ fuel)
  induction hmore generalizing member text blanks fuel with
  | nil =>
    rw [List.intercalate_singleton] at hfuel ⊢
    rw [h.split hblanks (follows_cons (by decide) (by decide) _) (by omega), skipBlanks_of_not (by decide)]
    rfl
  | @cons next text' members texts hnext hmore ih =>
    have htwo : ", ".toList.length = 2 := rfl
    rw [List.intercalate_cons_cons] at hfuel ⊢
    simp only [List.length_append, htwo] at hfuel
    obtain ⟨fuel, rfl⟩ := Nat.exists_eq_add_of_le' (by omega : 1 ≤ fuel)
    have hsplit := ih hnext blanks_space fuel (by omega)
    rw [List.append_assoc, List.append_assoc, comma_append,
      h.split hblanks (follows_cons (by decide) (by decide) _) (by omega), skipBlanks_of_not (by decide)]
    simp only [hsplit, Option.map_some]

/-- An object is split into the members it was written of. -/
theorem membersOf_intercalate {members : List (Text × Text)} {texts : List Text}
    (h : List.Forall₂ WritesMember members texts) :
    membersOf ('{' :: (", ".toList.intercalate texts ++ ['}'])) = some members := by
  unfold membersOf
  rw [skipBlanks_of_not (by decide)]
  cases h with
  | nil => rfl
  | @cons member text members texts hmember hmore =>
    have hopen : (skipBlanks (", ".toList.intercalate (text :: texts) ++ ['}'])).head? ≠ some '}' := by
      obtain ⟨rest, rfl⟩ := List.head?_eq_some_iff.mp hmember.head
      cases texts <;> simp [List.intercalate_cons_cons, skipBlanks_of_not (by decide : isBlank '"' = false)]
    have hfuel : 2 * (", ".toList.intercalate (text :: texts)).length <
        2 * ('{' :: (", ".toList.intercalate (text :: texts) ++ ['}'])).length + 2 := by
      simp only [List.length_cons, List.length_append]
      omega
    have hsplit := splitMembers_intercalate hmember hmore blanks_nil [] hfuel
    rw [List.nil_append] at hsplit
    simp only [if_neg hopen, hsplit, Option.bind_some]
    rfl

end Squaero.Lib.Json
