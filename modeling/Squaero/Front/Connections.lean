import Squaero.Front.Transport
import Squaero.Lib.JsArith

/-!
# Saved connections and their import

`frontend/src/utils/connections.ts`: reading an entry of a connections file, checking it, and merging the entries of a
file into the saved connections. A JavaScript value is a JSON value whose objects have each name once.
-/

namespace Squaero.Front.Connections

open Squaero.Lib

abbrev Params := List (Text × Text)

inductive ConnEnv
  | dev
  | test
  | prod
  deriving DecidableEq, Repr

structure Connection where
  id : Text
  name : Text
  driver : Text
  params : Params
  color : Option Text
  group : Option Text
  icon : Option Text
  keepAlive : Option ℕ
  safeMode : Option SafeMode
  env : Option ConnEnv
  deriving DecidableEq, Repr

/-! ## Reading an entry -/

def textOf : Option Json → Option Text
  | some (.str s) => some s
  | _ => none

/-- `normalizeKeepAlive` of `reconnect.ts` -/
def normalizeKeepAlive : Option Json → Option ℕ
  | some (.num x) => if 1 ≤ x then some ⌊x⌋₊ else none
  | some (.str s) =>
    match numberOf s with
    | .finite false m => if 1 ≤ m.value then some ⌊m.value⌋₊ else none
    | _ => none
  | _ => none

/-- `parseSafeMode` of `safeMode.ts` -/
def parseSafeMode (v : Option Json) : Option SafeMode :=
  if textOf v = some "readOnly".toList then some .readOnly
  else if textOf v = some "confirm".toList then some .confirm
  else none

/-- `parseEnv` of `connectionEnv.ts` -/
def parseEnv (v : Option Json) : Option ConnEnv :=
  if textOf v = some "dev".toList then some .dev
  else if textOf v = some "test".toList then some .test
  else if textOf v = some "prod".toList then some .prod
  else none

namespace Params

def get (params : Params) (key : String) : Option Text := (params.find? (·.1 = key.toList)).map (·.2)

def set (params : Params) (key : String) (value : Text) : Params :=
  if (get params key).isSome then params.map fun p ↦ if p.1 = key.toList then (p.1, value) else p
  else params ++ [(key.toList, value)]

def delete (params : Params) (key : String) : Params := params.filter (·.1 ≠ key.toList)

end Params

/-- A value that JavaScript takes for true. -/
def isFilled (value : Option Text) : Bool := value.any (· ≠ [])

/-- `migrateInformixConnection` -/
def migrateInformixConnection (conn : Connection) : Connection :=
  let legacyKeys := ["server", "protocol", "client_locale", "db_locale"]
  if conn.driver ≠ "informix".toList then conn
  else if legacyKeys.all fun k ↦ (conn.params.get k).isNone then conn
  else
    let tls := conn.params.get "protocol" = some "onsocssl".toList
    let params :=
      if isFilled (conn.params.get "server") ∧ ¬ isFilled (conn.params.get "sqli_server") then
        conn.params.set "sqli_server" ((conn.params.get "server").getD [])
      else conn.params
    let params := legacyKeys.foldl Params.delete params
    let port := jsTrim ((params.get "port").getD [])
    let params :=
      if tls then
        (if isFilled (params.get "tls") then params else params.set "tls" "verify-ca".toList).set "port_review" ['1']
      else if port = [] ∨ port = "9088".toList then params.set "port" "9089".toList
      else if port ≠ "9089".toList then params.set "port_review" ['1']
      else params
    { conn with params := params }

/-- `Object.entries`, of objects and arrays. -/
def entriesOf : Option Json → Option (List (Text × Json))
  | some (.obj members) => some members
  | some (.arr items) => some (items.mapIdx fun i item ↦ (Nat.toDigits 10 i, item))
  | _ => none

/-- `coerceConnection` -/
def coerceConnection : Json → Option Connection
  | .obj c => do
    let get (key : String) := Json.getItem c key.toList
    let id ← textOf (get "id")
    let name ← textOf (get "name")
    let driver ← textOf (get "driver")
    let entries ← entriesOf (get "params")
    let conn : Connection :=
      { id := id
        name := name
        driver := driver
        params := entries.filterMap fun (k, v) ↦ (textOf (some v)).map fun v ↦ (k, v)
        color := (textOf (get "color")).filter (· ≠ [])
        group := ((textOf (get "group")).map jsTrim).filter (· ≠ [])
        icon := (textOf (get "icon")).filter (· ≠ [])
        keepAlive := normalizeKeepAlive (get "keepAlive")
        safeMode := parseSafeMode (get "safeMode")
        env := parseEnv (get "env") }
    return migrateInformixConnection conn
  | _ => none

/-! ## Checking an entry -/

/-- The required fields of `driverSchema`. -/
def requiredFields (driver : Text) : Option (List String) :=
  if driver = "sqlite".toList then some ["path"]
  else if driver = "postgres".toList then some ["host", "database", "user"]
  else if driver = "mysql".toList then some ["host", "user"]
  else if driver = "informix".toList then some ["host", "user"]
  else if driver = "mongodb".toList then some ["host", "database"]
  else if driver = "mssql".toList then some ["host", "user"]
  else none

/-- `validateConnection`, with the keys of the messages. -/
def validateConnection (conn : Connection) : List String :=
  (if jsTrim conn.name = [] then ["valid.nameRequired"] else []) ++
    match requiredFields conn.driver with
    | none => ["valid.unknownDriver"]
    | some fields =>
      (fields.filter fun field ↦ jsTrim ((conn.params.get field).getD []) = []).map fun _ ↦ "valid.fieldRequired"

/-- What the import takes of a file. -/
def accepted (lenient : Bool) (item : Json) : Option Connection :=
  (coerceConnection item).filter fun c ↦ if lenient then jsTrim c.name ≠ [] else validateConnection c = []

/-! ## Merging -/

/-- The number of an id `conn-N`. -/
def connNumber (id : Text) : Option JsNum :=
  match id with
  | 'c' :: 'o' :: 'n' :: 'n' :: '-' :: digits =>
    if digits ≠ [] ∧ digits.all Char.isDigit then some (numberOf digits) else none
  | _ => none

def connId (n : JsNum) : Text := "conn-".toList ++ n.toText

/-- The largest number of an id, or nought. -/
def largestNumber (list : List Connection) : JsNum :=
  (list.filterMap fun c ↦ connNumber c.id).foldl JsNum.max (.finite false .zero)

/-- `nextConnectionId` -/
def nextConnectionId (existing : List Connection) : Text := connId ((largestNumber existing).plus .one)

structure Merged where
  list : List Connection
  added : ℕ
  updated : ℕ
  skipped : ℕ
  ids : List Text

section

variable (toLowerCase : Text → Text)

/-- `norm` -/
def norm (s : Text) : Text := toLowerCase (jsTrim s)

/-- The connection that an entry replaces: of the same id and name, or the first of the same name. -/
def matching (list : List Connection) (c : Connection) : Option Connection :=
  let byName := list.find? fun e ↦ norm toLowerCase e.name = norm toLowerCase c.name
  match if jsTrim c.id = [] then none else list.find? fun e ↦ e.id = c.id with
  | some byId => if norm toLowerCase byId.name = norm toLowerCase c.name then some byId else byName
  | none => byName

/-- The id of an entry that is added. -/
def addedId (list : List Connection) (c : Connection) : Text :=
  if jsTrim c.id = [] ∨ ∃ e ∈ list, e.id = c.id then nextConnectionId list else c.id

variable (lenient : Bool)

/-- The body of the loop. -/
def mergeItem (st : Merged) (item : Json) : Merged :=
  match accepted lenient item with
  | none => { st with skipped := st.skipped + 1 }
  | some c =>
    match matching toLowerCase st.list c with
    | some e =>
      { st with
        list := st.list.map fun x ↦ if x.id = e.id then { c with id := e.id } else x
        updated := st.updated + 1
        ids := st.ids ++ [e.id] }
    | none =>
      let id := addedId st.list c
      { st with
        list := st.list ++ [{ c with id := id }]
        added := st.added + 1
        ids := st.ids ++ [id] }

/-- `mergeConnections` -/
def mergeConnections (existing : List Connection) (incoming : List Json) : Merged :=
  incoming.foldl (mergeItem toLowerCase lenient) ⟨existing, 0, 0, 0, []⟩

end

/-! ## Fresh ids -/

theorem connNumber_connId (d : ℕ) :
    connNumber ("conn-".toList ++ Nat.toDigits 10 d) = some (.ofNonneg false d (Nat.cast_nonneg d)) := by
  have hdigits := Json.digits_toDigits d
  have hwritten : Nat.toDigits 10 d ≠ [] ∧ (Nat.toDigits 10 d).all Char.isDigit = true :=
    ⟨hdigits.1, List.all_eq_true.mpr hdigits.2⟩
  have hnumber : connNumber ("conn-".toList ++ Nat.toDigits 10 d) = some (numberOf (Nat.toDigits 10 d)) :=
    if_pos hwritten
  rw [hnumber, numberOf_digits hdigits]
  congr 2
  rw [Json.natOfDigits_toDigits]

/-- Every number of an id is a whole number, rounded. -/
theorem connNumber_eq {id : Text} {x : JsNum} (h : connNumber id = some x) :
    ∃ n : ℕ, x = .ofNonneg false n (Nat.cast_nonneg n) := by
  unfold connNumber at h
  split at h
  next digits =>
    split_ifs at h with hdigits
    refine ⟨Json.natOfDigits digits, ?_⟩
    rw [← Option.some.inj h]
    exact numberOf_digits ⟨hdigits.1, List.all_eq_true.mp hdigits.2⟩
  next => cases h

/-- No id but that of the largest number itself can be the next one: numbers are doubles, and from 2^53 on a double
may be its own successor. -/
def Exhausted (list : List Connection) : Prop :=
  (largestNumber list).plus .one = largestNumber list ∧ ∃ e ∈ list, e.id = connId (largestNumber list)

theorem foldl_max_spec {numbers : List JsNum} (h : ∀ x ∈ numbers, x.IsSize) {start : JsNum} (hstart : start.IsSize) :
    (numbers.foldl JsNum.max start).IsSize ∧ start.AtMost (numbers.foldl JsNum.max start) ∧
      (∀ x ∈ numbers, x.AtMost (numbers.foldl JsNum.max start)) ∧
      (numbers.foldl JsNum.max start = start ∨ numbers.foldl JsNum.max start ∈ numbers) := by
  induction numbers generalizing start with
  | nil => exact ⟨hstart, .refl hstart, nofun, .inl rfl⟩
  | cons x numbers ih =>
    obtain ⟨hx, hrest⟩ := List.forall_mem_cons.mp h
    obtain ⟨hsize, hle, hle'⟩ := JsNum.max_spec hstart hx
    obtain ⟨hfold, hstartLe, hall, hmem⟩ := ih hrest hsize
    refine ⟨hfold, hle.trans hstartLe, List.forall_mem_cons.mpr ⟨hle'.trans hstartLe, hall⟩, ?_⟩
    rcases hmem with heq | hmem
    · rw [List.foldl_cons, heq]
      rcases JsNum.max_choice hstart hx with hfirst | hsecond
      · exact .inl hfirst
      · rw [hsecond]
        exact .inr (.head _)
    · exact .inr (.tail _ hmem)

/-- The next id is taken only where the numbers have run out. -/
theorem nextConnectionId_mem_iff (list : List Connection) :
    (∃ e ∈ list, e.id = nextConnectionId list) ↔ Exhausted list := by
  have hsizes : ∀ x ∈ list.filterMap fun c ↦ connNumber c.id, x.IsSize := by
    intro x hx
    obtain ⟨c, -, hc⟩ := List.mem_filterMap.mp hx
    obtain ⟨n, rfl⟩ := connNumber_eq hc
    exact JsNum.isSize_ofNonneg _
  obtain ⟨hsize, -, hall, hmem⟩ := foldl_max_spec hsizes (show JsNum.IsSize (.finite false .zero) from rfl)
  constructor
  · rintro ⟨e, he, hid⟩
    have hwhole : ∃ n : ℕ, largestNumber list = .ofNonneg false n (Nat.cast_nonneg n) := by
      rcases hmem with hzero | hmem
      · refine ⟨0, hzero.trans ?_⟩
        rw [← JsNum.ofNonneg_zero]
        congr 1
      · obtain ⟨c, -, hc⟩ := List.mem_filterMap.mp hmem
        exact connNumber_eq hc
    obtain ⟨n, hn⟩ := hwhole
    have hnext := JsNum.plus_one_cases n (Nat.cast_nonneg n)
    rw [← hn] at hnext
    rcases hnext with hsame | ⟨d, htext, hd⟩
    · refine ⟨hsame, e, he, ?_⟩
      rw [hid, nextConnectionId, hsame]
    · -- the text has the digits of the successor, so that it is one of the numbers
      have hnumber : connNumber e.id = some ((largestNumber list).plus .one) := by
        rw [hid, nextConnectionId, connId, htext, connNumber_connId, hd]
      have hle := hall _ (List.mem_filterMap.mpr ⟨e, he, hnumber⟩)
      obtain ⟨hsucc, hge⟩ := JsNum.plus_one_spec hsize
      have hsame : (largestNumber list).plus .one = largestNumber list :=
        JsNum.AtMost.antisymm hsucc hsize hle hge
      refine ⟨hsame, e, he, ?_⟩
      rw [hid, nextConnectionId, hsame]
  · rintro ⟨hsame, e, he, hid⟩
    refine ⟨e, he, ?_⟩
    rw [hid, nextConnectionId, hsame]

end Squaero.Front.Connections
