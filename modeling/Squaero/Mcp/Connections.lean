import Squaero.Conn.Dsn

/-!
# The connections file

`tools/quaero-mcp/mcp_conns.c`: the entries of an exported file that are opted in, in the order of the file, and the
one that a caller's id or name stands for.
-/

namespace Squaero.Mcp

open Squaero.Lib Squaero.Ipc

/-- `mcp_conn_t` -/
structure McpConn where
  id : Option Text
  name : Option Text
  driver : Text
  params : Json
  allowWrite : Bool

def jsonTrue (obj : Option Json) (key : String) : Bool :=
  match field obj key with
  | some (.bool value) => value
  | _ => false

/-- The string that is the first item called `key`; the server tests its arguments in the same words. -/
def jsonStr (obj : Option Json) (key : String) : Option Text :=
  match field obj key with
  | some (.str value) => some value
  | _ => none

/-- The record of an entry: opt-in only, and unusable without a driver and a DSN. -/
def connOf (entry : Json) : Option McpConn :=
  if !entry.isObj || !jsonTrue (some entry) "mcp" then none
  else
    match jsonStr (some entry) "driver", field (some entry) "params" with
    | some driver, some params =>
      if params.isObj then
        some ⟨jsonStr (some entry) "id", jsonStr (some entry) "name", driver, params,
          jsonTrue (some entry) "mcpWrite"⟩
      else none
    | _, _ => none

/-- The array of entries, or why there is none. -/
def entriesOf (cjson : Conn.CJson) (json : Option Text) : Except Text (List Json) :=
  match json with
  | none => .error "no connections JSON".toList
  | some text =>
    match cjson.parse text with
    | none => .error "invalid JSON".toList
    | some root =>
      match field (some root) "connections" with
      | some (.arr entries) => .ok entries
      | _ => .error "missing \"connections\" array".toList

/-- `mcp_conns_parse` -/
def mcpConnsParse (cjson : Conn.CJson) (json : Option Text) : Except Text (List McpConn) :=
  (entriesOf cjson json).map fun entries ↦ entries.filterMap connOf

/-- `mcp_conns_at` -/
def mcpConnsAt (conns : List McpConn) (i : ℕ) : Option McpConn := conns[i]?

/-- `mcp_conns_find`, as an index: a pointer to a record tells it from every other one. -/
def mcpConnsFind (conns : List McpConn) (idOrName : Text) : Option ℕ :=
  (conns.findIdx? fun conn ↦ conn.id = some idOrName).or
    (conns.findIdx? fun conn ↦ conn.name = some idOrName)

/-! ## What the file grants -/

/-- A record stands for an entry that is opted in, and may write only where the entry says so. -/
theorem entry_of_connOf {entry : Json} {conn : McpConn} (h : connOf entry = some conn) :
    field (some entry) "mcp" = some (.bool true) ∧
      (conn.allowWrite = true → field (some entry) "mcpWrite" = some (.bool true)) := by
  have hflag : ∀ key, jsonTrue (some entry) key = true → field (some entry) key = some (.bool true) := by
    intro key hkey
    unfold jsonTrue at hkey
    split at hkey
    next value hfield => rw [hfield, hkey]
    next => cases hkey
  unfold connOf at h
  split at h
  next => cases h
  next hentry =>
    rw [Bool.or_eq_true, not_or, Bool.not_eq_true', Bool.not_eq_true', Bool.not_eq_false,
      Bool.not_eq_false] at hentry
    split at h
    next =>
      split at h
      next =>
        cases h
        exact ⟨hflag "mcp" hentry.2, hflag "mcpWrite"⟩
      next => cases h
    next => cases h

/-! ## What an argument stands for -/

section Resolves

variable {conns : List McpConn} {idOrName : Text} {i : ℕ} {conn : McpConn}

/-- The record at `i` is the first whose `key` is the given text. -/
structure FirstWith (conns : List McpConn) (key : McpConn → Option Text) (idOrName : Text) (i : ℕ) : Prop where
  here : ∃ conn, conns[i]? = some conn ∧ key conn = some idOrName
  before : ∀ j < i, ∀ conn, conns[j]? = some conn → key conn ≠ some idOrName

/-- The first with that id, or where no id is it the first with that name. -/
def Resolves (conns : List McpConn) (idOrName : Text) (i : ℕ) : Prop :=
  FirstWith conns (·.id) idOrName i ∨
    (∀ conn ∈ conns, conn.id ≠ some idOrName) ∧ FirstWith conns (·.name) idOrName i

theorem firstWith_of_findIdx {key : McpConn → Option Text}
    (h : conns.findIdx? (fun conn ↦ key conn = some idOrName) = some i) :
    FirstWith conns key idOrName i := by
  obtain ⟨hi, hkey, hbefore⟩ := List.findIdx?_eq_some_iff_getElem.mp h
  refine ⟨⟨conns[i], List.getElem?_eq_getElem hi, of_decide_eq_true hkey⟩, fun j hj conn hconn hsame ↦ ?_⟩
  obtain ⟨hlength, hget⟩ := List.getElem?_eq_some_iff.mp hconn
  exact hbefore j hj (by rw [hget]; exact decide_eq_true hsame)

theorem mcpConnsFind_resolves (h : mcpConnsFind conns idOrName = some i) : Resolves conns idOrName i := by
  rw [mcpConnsFind] at h
  rcases Option.or_eq_some_iff.mp h with hid | ⟨hnone, hname⟩
  · exact .inl (firstWith_of_findIdx hid)
  · refine .inr ⟨fun conn hconn hid ↦ ?_, firstWith_of_findIdx hname⟩
    have hno := List.findIdx?_eq_none_iff.mp hnone conn hconn
    exact of_decide_eq_false hno hid

theorem FirstWith.unique {key : McpConn → Option Text} (hi : FirstWith conns key idOrName i) {j : ℕ}
    (hj : FirstWith conns key idOrName j) : i = j := by
  obtain ⟨conn, hconn, hkey⟩ := hi.here
  obtain ⟨other, hother, hsame⟩ := hj.here
  rcases Nat.lt_trichotomy i j with hlt | heq | hgt
  · exact absurd hkey (hj.before i hlt conn hconn)
  · exact heq
  · exact absurd hsame (hi.before j hgt other hother)

/-- An argument stands for one record. -/
theorem Resolves.unique (hi : Resolves conns idOrName i) {j : ℕ} (hj : Resolves conns idOrName j) : i = j := by
  have hnone : ∀ {k : ℕ}, FirstWith conns (·.id) idOrName k → ¬ ∀ conn ∈ conns, conn.id ≠ some idOrName := by
    intro k hk hno
    obtain ⟨conn, hconn, hid⟩ := hk.here
    exact hno conn (List.mem_of_getElem? hconn) hid
  rcases hi with hid | ⟨hno, hname⟩
  · rcases hj with hid' | ⟨hno', -⟩
    · exact hid.unique hid'
    · exact absurd hno' (hnone hid)
  · rcases hj with hid' | ⟨-, hname'⟩
    · exact absurd hno (hnone hid')
    · exact hname.unique hname'

end Resolves

end Squaero.Mcp
