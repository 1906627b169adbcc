import Squaero.Conn.Dsn
import Squaero.Lib.JsonConceal

/-!
# What a trace shows of a request

`core/src/ipc/redact.c`: a request is printed with the values under secret keys masked, or not at all. Two requests
that differ in their secrets only should be printed alike. A DSN may reach `conn.open` as a string that holds JSON, and
an object may have a key twice.
-/

namespace Squaero.Ipc

open Squaero.Lib Squaero.Lib.Json
open Squaero.Conn (CJson)

/-! ## `core/src/ipc/redact.c` -/

def redacted : Text := "***".toList

def withheld : Text := "<request withheld: not valid JSON>".toList

def secretParts : List Text :=
  ["password".toList, "passwd".toList, "pwd".toList, "passphrase".toList, "secret".toList, "token".toList,
    "privatekey".toList, "private_key".toList, "apikey".toList, "credential".toList]

def containsFold (haystack needle : Text) : Bool :=
  needle = [] || haystack.tails.any fun p ↦ p ≠ [] && needle.isPrefixOf (p.map Char.toLower)

def isSecretKey (key : Text) : Bool := secretParts.any (containsFold key)

mutual

def redactTree : Json → Json
  | .arr items => .arr (redactItems items)
  | .obj members => .obj (redactMembers [] members)
  | v => v

def redactItems : List Json → List Json
  | [] => []
  | item :: items => redactTree item :: redactItems items

/-- The loop over an object, with the members that it has `passed`. The value is replaced by name: the first member of
that name, which the loop may have passed already. -/
def redactMembers (passed : List (Text × Json)) : List (Text × Json) → List (Text × Json)
  | [] => passed
  | (key, value) :: members =>
    if isSecretKey key then redactMembers (replaceItem key (.str redacted) (passed ++ [(key, value)])) members
    else redactMembers (passed ++ [(key, redactTree value)]) members

end

def isRedacted : Json → Bool
  | .str s => s = redacted
  | _ => false

mutual

def hasExposedSecret : Json → Bool
  | .arr items => exposedItems items
  | .obj members => exposedMembers members
  | _ => false

def exposedItems : List Json → Bool
  | [] => false
  | item :: items => hasExposedSecret item || exposedItems items

def exposedMembers : List (Text × Json) → Bool
  | [] => false
  | (key, value) :: members =>
    (if isSecretKey key then !isRedacted value else hasExposedSecret value) || exposedMembers members

end

def dbcoreIpcRedact (cjson : CJson) (request : Option Text) : Text :=
  match request.bind cjson.parse with
  | none => withheld
  | some root =>
    if root.isObj || root.isArr then
      if hasExposedSecret (redactTree root) then withheld else (redactTree root).print cjson.printNumber
    else root.print cjson.printNumber

/-! ## Requests that differ in secrets only -/

/-- The DSN of a `conn.open` that gives it as a string. -/
def dsnString (root : Json) : Option Text :=
  match field (some root) "method", field (field (some root) "params") "dsn" with
  | some (.str method), some (.str dsn) => if method = "conn.open".toList then some dsn else none
  | _, _ => none

/-- The request with another DSN. -/
def withDsn (dsn : Json) : Json → Json
  | .obj members =>
    match getItem members "params".toList with
    | some (.obj params) => .obj (replaceItem "params".toList (.obj (replaceItem "dsn".toList dsn params)) members)
    | _ => .obj members
  | v => v

/-- The same JSON except for what is stored under secret keys, those within the string of a DSN included. -/
inductive Alike (cjson : CJson) (j₁ j₂ : Json) : Prop
  | tree (h : conceal isSecretKey .null j₁ = conceal isSecretKey .null j₂)
  | dsn {s₁ s₂ : Text} {d₁ d₂ : Json} (h₁ : dsnString j₁ = some s₁) (h₂ : dsnString j₂ = some s₂)
    (hread₁ : cjson.parse s₁ = some d₁) (hread₂ : cjson.parse s₂ = some d₂)
    (hdsn : conceal isSecretKey .null d₁ = conceal isSecretKey .null d₂)
    (h : conceal isSecretKey .null (withDsn .null j₁) = conceal isSecretKey .null (withDsn .null j₂))

mutual

/-- Somewhere in view a secret key comes again, and its later value is not the mask. -/
def stray : Json → Bool
  | .arr items => strayItems items
  | .obj members => strayMembers [] members
  | _ => false

def strayItems : List Json → Bool
  | [] => false
  | item :: items => stray item || strayItems items

/-- The members of an object behind those with the keys `seen`. -/
def strayMembers (seen : List Text) : List (Text × Json) → Bool
  | [] => false
  | (key, value) :: members =>
    (if isSecretKey key then decide (key ∈ seen) && !isRedacted value else stray value) ||
      strayMembers (key :: seen) members

end

/-! ## What the loop leaves -/

/-- The members behind those with the keys `seen`: only the first value of a secret key is masked. -/
def settled (seen : List Text) : List (Text × Json) → List (Text × Json)
  | [] => []
  | (key, value) :: members =>
    (key, if isSecretKey key then if key ∈ seen then value else .str redacted else redactTree value) ::
      settled (key :: seen) members

/-- The first value of each secret key is the mask. -/
def FirstsMasked (passed : List (Text × Json)) : Prop :=
  ∀ key, isSecretKey key = true → ∀ v, getItem passed key = some v → v = .str redacted

theorem getItem_eq_none_iff {ms : List (Text × Json)} {key : Text} : getItem ms key = none ↔ key ∉ ms.map (·.1) := by
  induction ms with
  | nil => simp [getItem]
  | cons m ms ih =>
    rw [getItem_cons, List.map_cons, List.mem_cons, not_or, ← ih]
    split
    next h => simp [h]
    next h => simp [Ne.symm h]

theorem replaceItem_append_singleton {ms : List (Text × Json)} {key : Text} (h : key ∉ ms.map (·.1)) (v w : Json) :
    replaceItem key v (ms ++ [(key, w)]) = ms ++ [(key, v)] := by
  induction ms with
  | nil => exact if_pos rfl
  | cons m ms ih =>
    rw [List.map_cons, List.mem_cons, not_or] at h
    rw [List.cons_append, replaceItem, if_neg (Ne.symm h.1), ih h.2, List.cons_append]

theorem FirstsMasked.append {passed : List (Text × Json)} (h : FirstsMasked passed) {key : Text} {v : Json}
    (hv : isSecretKey key = true → key ∉ passed.map (·.1) → v = .str redacted) :
    FirstsMasked (passed ++ [(key, v)]) := by
  intro k hk w hw
  rw [Conn.getItem_append] at hw
  cases hpassed : getItem passed k with
  | some u =>
    rw [hpassed, Option.some_or] at hw
    exact h k hk w (hpassed.trans hw)
  | none =>
    rw [hpassed, Option.none_or, getItem_cons] at hw
    split at hw
    next hsame =>
      subst hsame
      rw [← Option.some.inj hw]
      exact hv hk (getItem_eq_none_iff.mp hpassed)
    next => cases hw

theorem redactMembers_eq {passed members : List (Text × Json)} {seen : List Text} (h : FirstsMasked passed)
    (hseen : ∀ k, k ∈ seen ↔ k ∈ passed.map (·.1)) :
    redactMembers passed members = passed ++ settled seen members := by
  induction members generalizing passed seen with
  | nil => rw [redactMembers, settled, List.append_nil]
  | cons m members ih =>
    obtain ⟨key, value⟩ := m
    have hnext (v : Json) (k : Text) : k ∈ key :: seen ↔ k ∈ (passed ++ [(key, v)]).map (·.1) := by
      rw [List.map_append, List.mem_append, List.mem_cons, hseen k]
      simp [or_comm]
    have hstep {v : Json} (hv : isSecretKey key = true → key ∉ passed.map (·.1) → v = .str redacted) :
        redactMembers (passed ++ [(key, v)]) members = passed ++ (key, v) :: settled (key :: seen) members := by
      rw [ih (h.append hv) (hnext v), List.append_assoc, List.singleton_append]
    rw [redactMembers, settled]
    split
    next hsecret =>
      split
      next hmem =>
        -- the first member of the name is passed already and masked, so nothing changes
        obtain ⟨u, hu⟩ := Option.ne_none_iff_exists'.mp fun hnone ↦ getItem_eq_none_iff.mp hnone ((hseen key).mp hmem)
        have hfirst : getItem (passed ++ [(key, value)]) key = some (.str redacted) := by
          rw [Conn.getItem_append, hu, Option.some_or, h key hsecret u hu]
        rw [replaceItem_self hfirst]
        exact hstep fun _ hnot ↦ absurd ((hseen key).mp hmem) hnot
      next hmem =>
        rw [replaceItem_append_singleton fun hpassed ↦ hmem ((hseen key).mpr hpassed)]
        exact hstep fun _ _ ↦ rfl
    next hsecret => exact hstep fun hkey ↦ absurd hkey hsecret

theorem redactTree_obj (members : List (Text × Json)) : redactTree (.obj members) = .obj (settled [] members) := by
  have hnone : FirstsMasked [] := fun key _ v hv ↦ by cases hv
  have hloop : redactMembers [] members = [] ++ settled [] members := redactMembers_eq hnone (by simp)
  rw [redactTree, hloop, List.nil_append]

mutual

/-- What is exposed afterwards is a later value of a secret key. -/
theorem hasExposedSecret_redactTree : (v : Json) → hasExposedSecret (redactTree v) = stray v
  | .arr items => exposedItems_redactItems items
  | .obj members => (congrArg hasExposedSecret (redactTree_obj members)).trans (exposedMembers_settled [] members)
  | .null | .bool _ | .num _ | .str _ => rfl

theorem exposedItems_redactItems : (items : List Json) → exposedItems (redactItems items) = strayItems items
  | [] => rfl
  | item :: items => by
    rw [redactItems, exposedItems, strayItems, hasExposedSecret_redactTree item, exposedItems_redactItems items]

theorem exposedMembers_settled (seen : List Text) : (members : List (Text × Json)) →
    exposedMembers (settled seen members) = strayMembers seen members
  | [] => rfl
  | (key, value) :: members => by
    rw [settled, exposedMembers, strayMembers, exposedMembers_settled (key :: seen) members]
    congr 1
    split
    · by_cases hmem : key ∈ seen
      · simp [hmem]
      · simp [hmem, isRedacted]
    · exact hasExposedSecret_redactTree value

end

theorem eq_of_isRedacted {v : Json} (h : isRedacted v = true) : v = .str redacted := by
  cases v with
  | str s => exact congrArg Json.str (of_decide_eq_true h)
  | _ => cases h

mutual

/-- Where nothing strays every value under a secret key is masked. -/
theorem redactTree_of_not_stray : (v : Json) → stray v = false →
    redactTree v = conceal isSecretKey (.str redacted) v
  | .arr items, h => congrArg Json.arr (redactItems_of_not_stray items h)
  | .obj members, h => (redactTree_obj members).trans (congrArg Json.obj (settled_of_not_stray [] members h))
  | .null, _ | .bool _, _ | .num _, _ | .str _, _ => rfl

theorem redactItems_of_not_stray : (items : List Json) → strayItems items = false →
    redactItems items = concealItems isSecretKey (.str redacted) items
  | [], _ => rfl
  | item :: items, h => by
    rw [strayItems, Bool.or_eq_false_iff] at h
    rw [redactItems, concealItems, redactTree_of_not_stray item h.1, redactItems_of_not_stray items h.2]

theorem settled_of_not_stray (seen : List Text) : (members : List (Text × Json)) →
    strayMembers seen members = false → settled seen members = concealMembers isSecretKey (.str redacted) members
  | [], _ => rfl
  | (key, value) :: members, h => by
    rw [strayMembers, Bool.or_eq_false_iff] at h
    rw [settled, concealMembers, settled_of_not_stray (key :: seen) members h.2]
    split_ifs at h ⊢ with hsecret hmem
    · have hvalue : isRedacted value = true := by simpa [hmem] using h.1
      rw [eq_of_isRedacted hvalue]
    · rfl
    · rw [redactTree_of_not_stray value h.1]

end

/-! ## The string of a DSN -/

theorem dsnString_eq_some {j : Json} {s : Text} (h : dsnString j = some s) : ∃ members params, j = .obj members ∧
    getItem members "method".toList = some (.str "conn.open".toList) ∧
    getItem members "params".toList = some (.obj params) ∧ getItem params "dsn".toList = some (.str s) := by
  unfold dsnString at h
  split at h
  next method dsn hmethod hdsn =>
    split_ifs at h with hopen
    cases h
    cases j with
    | obj members =>
      rw [Conn.field_obj] at hmethod hdsn
      cases hparams : getItem members "params".toList with
      | none =>
        rw [hparams] at hdsn
        cases hdsn
      | some params =>
        rw [hparams] at hdsn
        cases params with
        | obj params => exact ⟨members, params, rfl, hopen ▸ hmethod, hparams, hdsn⟩
        | _ => cases hdsn
    | _ => cases hmethod
  next => cases h

theorem dsnString_conceal (mask : Json) (j : Json) : dsnString (conceal isSecretKey mask j) = dsnString j := by
  cases j with
  | obj members =>
    have hmethod : isSecretKey "method".toList = false := by decide
    have hparams : isSecretKey "params".toList = false := by decide
    have hdsn : isSecretKey "dsn".toList = false := by decide
    unfold dsnString
    rw [conceal, Conn.field_obj, Conn.field_obj, Conn.field_obj, Conn.field_obj, getItem_concealMembers hmethod,
      getItem_concealMembers hparams]
    have hfield : field ((getItem members "params".toList).map (conceal isSecretKey mask)) "dsn" =
        (field (getItem members "params".toList) "dsn").map (conceal isSecretKey mask) := by
      cases getItem members "params".toList with
      | none => rfl
      | some params =>
        cases params with
        | obj params => exact getItem_concealMembers hdsn
        | _ => rfl
    rw [hfield]
    generalize getItem members "method".toList = method
    generalize field (getItem members "params".toList) "dsn" = dsn
    cases method with
    | none => rfl
    | some method => cases method <;> cases dsn <;> first | rfl | (rename_i dsn; cases dsn <;> rfl)
  | _ => rfl

/-- The string stands in what is printed of a request, and around it there is always the same. -/
theorem exists_print_dsn {printNumber : ℚ → Text} {members params : List (Text × Json)} {u w : Json}
    (hparams : getItem members "params".toList = some u) (hdsn : getItem params "dsn".toList = some w) :
    ∃ front back, ∀ v, (Json.obj (replaceItem "params".toList (.obj (replaceItem "dsn".toList v params)) members)).print
      printNumber = front ++ (v.print printNumber ++ back) := by
  obtain ⟨outer, outer', houter⟩ := @exists_printMembers_replaceItem printNumber _ _ _ hparams
  obtain ⟨inner, inner', hinner⟩ := @exists_printMembers_replaceItem printNumber _ _ _ hdsn
  refine ⟨'{' :: outer ++ '{' :: inner, inner' ++ '}' :: outer' ++ ['}'], fun v ↦ ?_⟩
  rw [print, houter, print, hinner]
  simp

/-- Concealing keeps the DSN, and another DSN can be put in before or after it. -/
theorem exists_conceal_dsn {j : Json} {s : Text} (h : dsnString j = some s) (mask : Json) : ∃ members params,
    conceal isSecretKey mask j = .obj members ∧ getItem members "params".toList = some (.obj params) ∧
    getItem params "dsn".toList = some (.str s) ∧ conceal isSecretKey mask (withDsn .null j) =
      .obj (replaceItem "params".toList (.obj (replaceItem "dsn".toList .null params)) members) := by
  have hparamsKey : isSecretKey "params".toList = false := by decide
  have hdsnKey : isSecretKey "dsn".toList = false := by decide
  obtain ⟨members, params, rfl, -, hparams, hdsn⟩ := dsnString_eq_some h
  refine ⟨concealMembers isSecretKey mask members, concealMembers isSecretKey mask params, rfl, ?_, ?_, ?_⟩
  · rw [getItem_concealMembers hparamsKey, hparams]
    rfl
  · rw [getItem_concealMembers hdsnKey, hdsn]
    rfl
  · rw [withDsn, hparams]
    dsimp only
    rw [conceal, concealMembers_replaceItem hparamsKey, conceal, concealMembers_replaceItem hdsnKey]
    rfl

/-- Concealed requests that differ in the string of their DSN are printed with that string. -/
theorem print_conceal_eq_iff {printNumber : ℚ → Text} {mask : Json} {j₁ j₂ : Json} {s₁ s₂ : Text}
    (h₁ : dsnString j₁ = some s₁) (h₂ : dsnString j₂ = some s₂)
    (h : conceal isSecretKey mask (withDsn .null j₁) = conceal isSecretKey mask (withDsn .null j₂)) :
    (conceal isSecretKey mask j₁).print printNumber = (conceal isSecretKey mask j₂).print printNumber ↔ s₁ = s₂ := by
  obtain ⟨members₁, params₁, hconceal₁, hparams₁, hdsn₁, hwith₁⟩ := exists_conceal_dsn h₁ mask
  obtain ⟨members₂, params₂, hconceal₂, hparams₂, hdsn₂, hwith₂⟩ := exists_conceal_dsn h₂ mask
  rw [hwith₁, hwith₂] at h
  have hmembers := Json.obj.inj h
  have hparams : replaceItem "dsn".toList .null params₁ = replaceItem "dsn".toList .null params₂ := by
    have hfirst := @getItem_replaceItem _ _ _ hparams₁ (.obj (replaceItem "dsn".toList .null params₁))
    rw [hmembers, getItem_replaceItem hparams₂] at hfirst
    exact (Json.obj.inj (Option.some.inj hfirst)).symm
  obtain ⟨front, back, hprint⟩ := @exists_print_dsn printNumber _ _ _ _ hparams₁ hdsn₁
  -- both are the first request with its own string put in
  have hown₁ : members₁ = replaceItem "params".toList (.obj (replaceItem "dsn".toList (.str s₁) params₁)) members₁ := by
    rw [replaceItem_self hdsn₁, replaceItem_self hparams₁]
  have hown₂ : members₂ = replaceItem "params".toList (.obj (replaceItem "dsn".toList (.str s₂) params₁)) members₁ := by
    calc members₂
        = replaceItem "params".toList (.obj (replaceItem "dsn".toList (.str s₂) params₂)) members₂ := by
          rw [replaceItem_self hdsn₂, replaceItem_self hparams₂]
      _ = replaceItem "params".toList (.obj (replaceItem "dsn".toList (.str s₂) params₁))
            (replaceItem "params".toList (.obj (replaceItem "dsn".toList .null params₁)) members₁) := by
          rw [hmembers, replaceItem_replaceItem, ← replaceItem_replaceItem (.str s₂) .null, ← hparams,
            replaceItem_replaceItem]
      _ = _ := replaceItem_replaceItem ..
  rw [hconceal₁, hconceal₂, hown₁, hown₂, hprint, hprint]
  constructor
  · intro hsame
    exact printString_injective (List.append_cancel_right (List.append_cancel_left hsame))
  · rintro rfl
    rfl

/-! ## Two requests -/

theorem stray_isContainer {j : Json} (h : stray j = true) : (j.isObj || j.isArr) = true := by
  cases j with
  | arr => rfl
  | obj => rfl
  | _ => cases h

theorem dbcoreIpcRedact_eq (cjson : CJson) {t : Text} {j : Json} (h : cjson.parse t = some j) :
    dbcoreIpcRedact cjson (some t) =
      if stray j then withheld else (conceal isSecretKey (.str redacted) j).print cjson.printNumber := by
  unfold dbcoreIpcRedact
  rw [Option.bind_some, h]
  dsimp only
  cases hcontainer : j.isObj || j.isArr with
  | true =>
    rw [if_pos rfl, hasExposedSecret_redactTree]
    cases hstray : stray j with
    | true => rfl
    | false => rw [redactTree_of_not_stray j hstray]
  | false =>
    have hplain : stray j = false ∧ conceal isSecretKey (.str redacted) j = j := by
      cases j with
      | arr => cases hcontainer
      | obj => cases hcontainer
      | _ => exact ⟨rfl, rfl⟩
    rw [hplain.1, hplain.2]
    rfl

theorem withheld_ne_print {j : Json} (h : (j.isObj || j.isArr) = true) (printNumber : ℚ → Text) (mask : Json) :
    withheld ≠ (conceal isSecretKey mask j).print printNumber := by
  intro hsame
  have hhead := congrArg List.head? hsame
  cases j with
  | arr => cases hhead
  | obj => cases hhead
  | _ => cases h

theorem Alike.container {cjson : CJson} {j₁ j₂ : Json} (h : Alike cjson j₁ j₂) :
    (j₁.isObj || j₁.isArr) = (j₂.isObj || j₂.isArr) := by
  cases h with
  | tree h =>
    have hconceal (j : Json) : ((conceal isSecretKey .null j).isObj || (conceal isSecretKey .null j).isArr) =
        (j.isObj || j.isArr) := by
      cases j <;> rfl
    rw [← hconceal j₁, h, hconceal]
  | dsn h₁ h₂ _ _ _ _ =>
    obtain ⟨_, _, rfl, -⟩ := dsnString_eq_some h₁
    obtain ⟨_, _, rfl, -⟩ := dsnString_eq_some h₂
    rfl

theorem Alike.print_eq_iff {cjson : CJson} {j₁ j₂ : Json} (h : Alike cjson j₁ j₂) (printNumber : ℚ → Text) :
    (conceal isSecretKey (.str redacted) j₁).print printNumber =
      (conceal isSecretKey (.str redacted) j₂).print printNumber ↔ dsnString j₁ = dsnString j₂ := by
  cases h with
  | tree h =>
    have hdsn : dsnString j₁ = dsnString j₂ := by rw [← dsnString_conceal .null j₁, h, dsnString_conceal]
    rw [(conceal_eq_iff (.str redacted)).mp h]
    exact iff_of_true rfl hdsn
  | dsn h₁ h₂ _ _ _ h =>
    rw [print_conceal_eq_iff h₁ h₂ ((conceal_eq_iff (.str redacted)).mp h), h₁, h₂, Option.some_inj]

/-- Two requests that differ in their secrets only are shown alike exactly when a secret strays in both or in neither,
and in neither case a DSN that is a string is the same string. -/
theorem redact_eq_redact_iff (cjson : CJson) {t₁ t₂ : Text} {j₁ j₂ : Json} (h₁ : cjson.parse t₁ = some j₁)
    (h₂ : cjson.parse t₂ = some j₂) (h : Alike cjson j₁ j₂) :
    dbcoreIpcRedact cjson (some t₁) = dbcoreIpcRedact cjson (some t₂) ↔
      stray j₁ = stray j₂ ∧ (stray j₁ = false → dsnString j₁ = dsnString j₂) := by
  rw [dbcoreIpcRedact_eq cjson h₁, dbcoreIpcRedact_eq cjson h₂]
  cases hstray₁ : stray j₁ with
  | true =>
    cases hstray₂ : stray j₂ with
    | true => simp
    | false =>
      have hcontainer := h.container ▸ stray_isContainer hstray₁
      simpa using withheld_ne_print hcontainer cjson.printNumber (.str redacted)
  | false =>
    cases hstray₂ : stray j₂ with
    | true =>
      have hcontainer := h.container.symm ▸ stray_isContainer hstray₂
      simpa using (withheld_ne_print hcontainer cjson.printNumber (.str redacted)).symm
    | false => simpa using h.print_eq_iff cjson.printNumber

/-- cJSON on texts without numbers. -/
def withoutNumbers : CJson := ⟨Json.read, fun _ ↦ []⟩

/-- A request with a password. -/
def passwordRequest (password : String) : Json := .obj [("password".toList, .str password.toList)]

theorem read_passwordRequest (password : String) :
    withoutNumbers.parse ((passwordRequest password).print withoutNumbers.printNumber) = some (passwordRequest password) :=
  Json.read_print ⟨trivial, trivial⟩

theorem redact_eq_redact_iff_passwords :
    dbcoreIpcRedact withoutNumbers (some ((passwordRequest "a").print withoutNumbers.printNumber)) =
        dbcoreIpcRedact withoutNumbers (some ((passwordRequest "b").print withoutNumbers.printNumber)) ↔
      stray (passwordRequest "a") = stray (passwordRequest "b") ∧
        (stray (passwordRequest "a") = false → dsnString (passwordRequest "a") = dsnString (passwordRequest "b")) :=
  redact_eq_redact_iff withoutNumbers (read_passwordRequest "a") (read_passwordRequest "b") (.tree rfl)

/-- A connection is opened with a DSN that is a string. -/
def openRequest (password : String) : Json :=
  .obj [("method".toList, .str "conn.open".toList), ("params".toList, .obj [("driver".toList, .str "postgres".toList),
    ("dsn".toList, .str ((passwordRequest password).print withoutNumbers.printNumber))])]

theorem read_openRequest (password : String) :
    withoutNumbers.parse ((openRequest password).print withoutNumbers.printNumber) = some (openRequest password) :=
  Json.read_print ⟨trivial, ⟨trivial, trivial, trivial⟩, trivial⟩

/-- Two such requests that differ in the password are not shown alike. -/
theorem openRequest_shows : Alike withoutNumbers (openRequest "a") (openRequest "b") ∧
    withoutNumbers.parse ((openRequest "a").print withoutNumbers.printNumber) = some (openRequest "a") ∧
    withoutNumbers.parse ((openRequest "b").print withoutNumbers.printNumber) = some (openRequest "b") ∧
    dbcoreIpcRedact withoutNumbers (some ((openRequest "a").print withoutNumbers.printNumber)) ≠
      dbcoreIpcRedact withoutNumbers (some ((openRequest "b").print withoutNumbers.printNumber)) := by
  have hdsn (password : String) : dsnString (openRequest password) =
      some ((passwordRequest password).print withoutNumbers.printNumber) := rfl
  have halike : Alike withoutNumbers (openRequest "a") (openRequest "b") :=
    .dsn (hdsn "a") (hdsn "b") (read_passwordRequest "a") (read_passwordRequest "b") rfl rfl
  refine ⟨halike, read_openRequest "a", read_openRequest "b", ?_⟩
  rw [dbcoreIpcRedact_eq _ (read_openRequest "a"), dbcoreIpcRedact_eq _ (read_openRequest "b")]
  have hplain (password : String) : stray (openRequest password) = false := rfl
  rw [hplain, hplain, if_neg Bool.false_ne_true, if_neg Bool.false_ne_true, Ne, halike.print_eq_iff, hdsn, hdsn,
    Option.some_inj]
  decide

end Squaero.Ipc
