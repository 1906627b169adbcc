import Squaero.Lib.JsonPrint

/-!
# JSON with some values concealed

Two trees are the same except for the values under some keys when concealing those values makes them equal. Below, a
member of another key can be replaced before or after that, and what is printed shows which value it has.
-/

namespace Squaero.Lib.Json

/-- `cJSON_ReplaceItemInObjectCaseSensitive`: another value under the first `key`. -/
def replaceItem (key : Text) (v : Json) : List (Text × Json) → List (Text × Json)
  | [] => []
  | (k, w) :: members => if k = key then (k, v) :: members else (k, w) :: replaceItem key v members

section Replace

variable {key : Text} {ms : List (Text × Json)} {w : Json}

theorem getItem_cons (k : Text) (v : Json) (ms : List (Text × Json)) (key : Text) :
    getItem ((k, v) :: ms) key = if k = key then some v else getItem ms key := by
  unfold getItem
  by_cases h : k = key <;> simp [h]

theorem replaceItem_replaceItem (v v' : Json) : replaceItem key v (replaceItem key v' ms) = replaceItem key v ms := by
  induction ms with
  | nil => rfl
  | cons m ms ih =>
    rw [replaceItem, replaceItem]
    split
    next h => rw [replaceItem, if_pos h]
    next h => rw [replaceItem, if_neg h, ih]

theorem replaceItem_self (h : getItem ms key = some w) : replaceItem key w ms = ms := by
  induction ms with
  | nil => cases h
  | cons m ms ih =>
    rw [getItem_cons] at h
    rw [replaceItem]
    split_ifs at h ⊢ with hkey
    · rw [← Option.some.inj h]
    · rw [ih h]

theorem getItem_replaceItem (h : getItem ms key = some w) (v : Json) : getItem (replaceItem key v ms) key = some v := by
  induction ms with
  | nil => cases h
  | cons m ms ih =>
    rw [getItem_cons] at h
    rw [replaceItem]
    split_ifs at h ⊢ with hkey
    · rw [getItem_cons, if_pos hkey]
    · rw [getItem_cons, if_neg hkey, ih h]

end Replace

/-! ## Concealing -/

section Conceal

variable (isSecret : Text → Bool) (mask : Json)

mutual

/-- The tree with `mask` for every value under a secret key. -/
def conceal : Json → Json
  | .arr items => .arr (concealItems items)
  | .obj members => .obj (concealMembers members)
  | v => v

def concealItems : List Json → List Json
  | [] => []
  | item :: items => conceal item :: concealItems items

def concealMembers : List (Text × Json) → List (Text × Json)
  | [] => []
  | (key, value) :: members => (key, if isSecret key then mask else conceal value) :: concealMembers members

end

mutual

theorem conceal_conceal (mask' : Json) :
    (v : Json) → conceal isSecret mask (conceal isSecret mask' v) = conceal isSecret mask v
  | .arr items => congrArg Json.arr (concealItems_concealItems mask' items)
  | .obj members => congrArg Json.obj (concealMembers_concealMembers mask' members)
  | .null | .bool _ | .num _ | .str _ => rfl

theorem concealItems_concealItems (mask' : Json) : (items : List Json) →
    concealItems isSecret mask (concealItems isSecret mask' items) = concealItems isSecret mask items
  | [] => rfl
  | item :: items => by
    rw [concealItems, concealItems, concealItems, conceal_conceal mask' item, concealItems_concealItems mask' items]

theorem concealMembers_concealMembers (mask' : Json) : (members : List (Text × Json)) →
    concealMembers isSecret mask (concealMembers isSecret mask' members) = concealMembers isSecret mask members
  | [] => rfl
  | (key, value) :: members => by
    rw [concealMembers, concealMembers, concealMembers, concealMembers_concealMembers mask' members]
    split
    · rfl
    · rw [conceal_conceal mask' value]

end

variable {isSecret mask} {key : Text} {ms : List (Text × Json)}

/-- Which values are concealed does not depend on what stands for them. -/
theorem conceal_eq_iff {v v' : Json} (mask' : Json) :
    conceal isSecret mask v = conceal isSecret mask v' ↔ conceal isSecret mask' v = conceal isSecret mask' v' := by
  constructor
  · intro h
    rw [← conceal_conceal isSecret mask' mask v, h, conceal_conceal]
  · intro h
    rw [← conceal_conceal isSecret mask mask' v, h, conceal_conceal]

theorem getItem_concealMembers (hkey : isSecret key = false) :
    getItem (concealMembers isSecret mask ms) key = (getItem ms key).map (conceal isSecret mask) := by
  induction ms with
  | nil => rfl
  | cons m ms ih =>
    rw [concealMembers, getItem_cons, getItem_cons]
    split
    next h => rw [if_neg (by simp [h, hkey]), Option.map_some]
    next => exact ih

theorem concealMembers_replaceItem (hkey : isSecret key = false) (v : Json) :
    concealMembers isSecret mask (replaceItem key v ms) =
      replaceItem key (conceal isSecret mask v) (concealMembers isSecret mask ms) := by
  induction ms with
  | nil => rfl
  | cons m ms ih =>
    rw [replaceItem, concealMembers, replaceItem]
    split
    next h => rw [concealMembers, if_neg (by simp [h, hkey])]
    next => rw [concealMembers, ih]

end Conceal

/-! ## Printing -/

/-- Two strings are printed the same way only when they are the same. -/
theorem printString_injective : Function.Injective printString := by
  intro s t h
  have hbody := List.append_cancel_right (List.cons.inj h).2
  have hs := readUnits_body (body_flatMap_escape s) []
  have ht := readUnits_body (body_flatMap_escape t) []
  rw [hbody, ht] at hs
  have hunits := (Prod.mk.inj (Option.some.inj hs)).1
  rw [← ofUnits_toNat s, ← hunits, ofUnits_toNat]

/-- A member's value stands in what is printed, and around it there is always the same. -/
theorem exists_printMembers_replaceItem {printNumber : ℚ → Text} {key : Text} {ms : List (Text × Json)} {w : Json}
    (h : getItem ms key = some w) : ∃ front back, ∀ v,
      printMembers printNumber (replaceItem key v ms) = front ++ (print printNumber v ++ back) := by
  induction ms with
  | nil => cases h
  | cons m ms ih =>
    obtain ⟨k, u⟩ := m
    rw [getItem_cons] at h
    by_cases hkey : k = key
    · have hreplace (v : Json) : replaceItem key v ((k, u) :: ms) = (k, v) :: ms := if_pos hkey
      cases ms with
      | nil =>
        refine ⟨printString k ++ [':'], [], fun v ↦ ?_⟩
        rw [hreplace, printMembers, List.append_nil, List.append_assoc, List.singleton_append]
      | cons m ms =>
        refine ⟨printString k ++ [':'], ',' :: printMembers printNumber (m :: ms), fun v ↦ ?_⟩
        rw [hreplace, printMembers]
        · simp
        · exact List.cons_ne_nil m ms
    · rw [if_neg hkey] at h
      obtain ⟨front, back, hrest⟩ := ih h
      have hreplace (v : Json) : replaceItem key v ((k, u) :: ms) = (k, u) :: replaceItem key v ms := if_neg hkey
      cases ms with
      | nil => cases h
      | cons m ms =>
        refine ⟨printString k ++ ':' :: (print printNumber u ++ ',' :: front), back, fun v ↦ ?_⟩
        obtain ⟨m', ms', hcons⟩ : ∃ m' ms', replaceItem key v (m :: ms) = m' :: ms' := by
          rw [replaceItem]
          split <;> exact ⟨_, _, rfl⟩
        rw [hreplace, hcons, printMembers, ← hcons, hrest v]
        · simp
        · exact hcons ▸ List.cons_ne_nil m' ms'

end Squaero.Lib.Json
