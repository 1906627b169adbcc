import Squaero.Conn.Tunnel
import Squaero.Mcp.Server

/-!
# Grants of the MCP server

What each request to the core is allowed by: the entry that the client's argument stands for, opened once, its
connId, and leave to write. Beside it, which requests of the client get the response that their id asks for.
-/

namespace Squaero.Mcp

open Squaero.Lib Squaero.Ipc
open Squaero.Gate.StmtClass (stmtClassify)

section Grants

variable (cjson : Conn.CJson) (conns : List McpConn) (entries : List Json)

/-- The `connection` argument of a tool call. -/
def connectionArgument (request : Text) : Option Text :=
  jsonStr (field (field (cjson.parse request) "params") "arguments") "connection"

/-- The request was sent for the record at `i`. -/
def SentFor (x : Sent) (i : ℕ) : Prop :=
  ∃ c, connectionArgument cjson x.request = some c ∧ Resolves conns c i

/-- The connId that a response of the core returns. -/
def returnedConnId (answer : Option Text) : Option Text :=
  match coreResult cjson answer with
  | .ok result => jsonStr (some result) "connId"
  | .error _ => none

/-- An opening of the record at `i`. -/
structure Opening (i : ℕ) (x : Sent) : Prop where
  method : x.method = "conn.open"
  sentFor : SentFor cjson conns x i

/-- `conn.open` as the file grants it: for an entry that is opted in, and while it is not open. -/
structure MayOpen (log : List Sent) (x : Sent) (i : ℕ) (entry : Json) (rec : McpConn) : Prop where
  optedIn : field (some entry) "mcp" = some (.bool true)
  params : x.params = [("driver".toList, .str rec.driver), ("dsn".toList, rec.params)]
  closed : ∀ earlier ∈ log, Opening cjson conns i earlier → returnedConnId cjson earlier.answer = none

/-- The other methods as the file grants them: on the connection of the entry, a statement that writes only where
the entry allows it. -/
structure MayUse (log : List Sent) (x : Sent) (i : ℕ) (entry : Json) : Prop where
  optedIn : field (some entry) "mcp" = some (.bool true)
  connId : ∃ earlier ∈ log, Opening cjson conns i earlier ∧
    ∃ id, returnedConnId cjson earlier.answer = some id ∧ Json.getItem x.params "connId".toList = some (.str id)
  write : x.method = "query.run" → ∀ sql, Json.getItem x.params "sql".toList = some (.str sql) →
    stmtClassify sql = .write → field (some entry) "mcpWrite" = some (.bool true)

/-- What may be sent to the core, after what was sent before. -/
def Granted (log : List Sent) (x : Sent) : Prop :=
  ∃ i rec entry, SentFor cjson conns x i ∧ conns[i]? = some rec ∧ entry ∈ entries ∧ connOf entry = some rec ∧
    (x.method = "conn.open" ∧ MayOpen cjson conns log x i entry rec ∨
      x.method ∈ ["schema.tree", "schema.describe", "query.run"] ∧ MayUse cjson conns log x i entry)

/-- A slot as the log has it: open by an opening whose connId it holds, or no opening returned one. -/
def Kept (log : List Sent) (i : ℕ) (slot : Slot) : Prop :=
  if slot.opened then
    ∃ x ∈ log, Opening cjson conns i x ∧ returnedConnId cjson x.answer = some slot.connId
  else ∀ x ∈ log, Opening cjson conns i x → returnedConnId cjson x.answer = none

/-- The invariant of the server. -/
structure Keeps (w : Server) : Prop where
  record : ∀ (k : ℕ) slot, w.slots[k]? = some slot → slot.record = k
  kept : ∀ (k : ℕ) slot, w.slots[k]? = some slot → Kept cjson conns w.sent k slot
  granted : Log.Each (Granted cjson conns entries) w.sent

end Grants

variable {cjson : Conn.CJson} {core : ℕ → Option Text} {conns : List McpConn} {info : ServerInfo}
  {entries : List Json} {request : Text} {log : List Sent} {x : Sent} {i : ℕ} {slot : Slot}

theorem keeps_new : Keeps cjson conns entries (mcpServerNew conns) := by
  have hslots : ∀ (k : ℕ) slot, (mcpServerNew conns).slots[k]? = some slot → slot = ⟨k, false, []⟩ := by
    intro k slot hslot
    simp only [mcpServerNew, List.getElem?_map, Option.map_eq_some_iff] at hslot
    obtain ⟨j, hj, rfl⟩ := hslot
    obtain ⟨hlt, hget⟩ := List.getElem?_eq_some_iff.mp hj
    rw [← hget, List.getElem_range]
  refine ⟨fun k slot hslot ↦ ?_, fun k slot hslot ↦ ?_, Log.each_nil⟩
  · rw [hslots k slot hslot]
  · rw [hslots k slot hslot]
    exact fun x hx ↦ absurd hx List.not_mem_nil

/-! ## One request to the core -/

theorem SentFor.unique {j : ℕ} (hi : SentFor cjson conns x i) (hj : SentFor cjson conns x j) : i = j := by
  obtain ⟨c, hc, hresolves⟩ := hi
  obtain ⟨d, hd, hresolves'⟩ := hj
  rw [hc] at hd
  cases hd
  exact hresolves.unique hresolves'

/-- A slot is kept by what is not an opening of its record that returned a connId. -/
theorem Kept.concat (h : Kept cjson conns log i slot)
    (hx : Opening cjson conns i x → returnedConnId cjson x.answer = none) :
    Kept cjson conns (log ++ [x]) i slot := by
  unfold Kept at h ⊢
  split at h
  next hopened =>
    rw [if_pos hopened]
    obtain ⟨y, hy, hopening, hid⟩ := h
    exact ⟨y, List.mem_append_left _ hy, hopening, hid⟩
  next hopened =>
    rw [if_neg hopened]
    intro y hy hopening
    rcases List.mem_append.mp hy with hy | hy
    · exact h y hy hopening
    · rw [List.mem_singleton.mp hy] at hopening ⊢
      exact hx hopening

/-- A granted request to the core that leaves every slot as it stands. -/
theorem Keeps.concat {w : Server} (h : Keeps cjson conns entries w)
    (hgranted : Granted cjson conns entries w.sent x)
    (hx : ∀ j, Opening cjson conns j x → returnedConnId cjson x.answer = none) :
    Keeps cjson conns entries { w with sent := w.sent ++ [x] } where
  record := h.record
  kept k slot hslot := (h.kept k slot hslot).concat (hx k)
  granted := Log.each_concat.mpr ⟨h.granted, hgranted⟩

/-- A granted opening that returned a connId, noted in the slot of its record. -/
theorem Keeps.opened {w : Server} (h : Keeps cjson conns entries w)
    (hgranted : Granted cjson conns entries w.sent x) (hopening : Opening cjson conns i x) {connId : Text}
    (hid : returnedConnId cjson x.answer = some connId) :
    Keeps cjson conns entries
      { w with sent := w.sent ++ [x], slots := w.slots.set i ⟨i, true, connId⟩ } := by
  refine ⟨fun k slot hslot ↦ ?_, fun k slot hslot ↦ ?_, Log.each_concat.mpr ⟨h.granted, hgranted⟩⟩
  · rw [List.getElem?_set] at hslot
    split_ifs at hslot with hik hlt
    · rw [← Option.some.inj hslot, ← hik]
    · exact h.record k slot hslot
  · rw [List.getElem?_set] at hslot
    split_ifs at hslot with hik hlt
    · rw [← Option.some.inj hslot, ← hik]
      exact ⟨x, List.mem_append_right _ (List.mem_singleton_self x), hopening, hid⟩
    · refine (h.kept k slot hslot).concat fun hother ↦ ?_
      exact absurd (hopening.sentFor.unique hother.sentFor) hik

/-! ## The connection of a record -/

/-- A client's request whose argument stands for the record `rec` at `i`, that of `entry`. -/
structure Addresses (cjson : Conn.CJson) (conns : List McpConn) (entries : List Json) (request : Text) (i : ℕ)
    (entry : Json) (rec : McpConn) : Prop where
  resolves : ∃ c, connectionArgument cjson request = some c ∧ Resolves conns c i
  record : conns[i]? = some rec
  mem : entry ∈ entries
  connOf : connOf entry = some rec

/-- The core returns connIds that fit their buffer. -/
def ShortConnIds (cjson : Conn.CJson) (core : ℕ → Option Text) : Prop :=
  ∀ n id, returnedConnId cjson (core n) = some id → id.length < 32

variable {entry : Json} {rec : McpConn} {w : Server}

/-- While `request` is served. -/
def Serving (cjson : Conn.CJson) (conns : List McpConn) (entries : List Json) (request : Text) (w : Server) : Prop :=
  Keeps cjson conns entries w ∧ w.serving = request

theorem find_slot {k : ℕ} (h : Keeps cjson conns entries w)
    (hfind : w.slots.zipIdx.find? (fun item ↦ item.1.record = i) = some (slot, k)) :
    k = i ∧ w.slots[i]? = some slot := by
  have hslot : w.slots[k]? = some slot := List.mem_zipIdx_iff_getElem?.mp (List.mem_of_find?_eq_some hfind)
  have hfound := List.find?_some hfind
  have hrecord : slot.record = i := of_decide_eq_true hfound
  have hk : k = i := (h.record k slot hslot).symm.trans hrecord
  exact ⟨hk, hk ▸ hslot⟩

/-- The request that opens a record. -/
def openRequest (core : ℕ → Option Text) (rec : McpConn) (w : Server) : Sent :=
  ⟨w.serving, "conn.open", [("driver".toList, .str rec.driver), ("dsn".toList, rec.params)], core w.sent.length⟩

/-- `ensure_open` on a slot that is not open. -/
theorem ensureOpen_closed {k : ℕ} (hfind : w.slots.zipIdx.find? (fun item ↦ item.1.record = i) = some (slot, k))
    (hclosed : slot.opened = false) :
    (ensureOpen cjson core rec i).run w =
      let w' := { w with sent := w.sent ++ [openRequest core rec w] }
      match coreResult cjson (core w.sent.length) with
      | .error err => (.error err, w')
      | .ok result =>
        match jsonStr (some result) "connId" with
        | none => (.error "core did not return a connId".toList, w')
        | some id =>
          (.ok (id.take 31), { w' with slots := w.slots.set k { slot with opened := true, connId := id.take 31 } }) := by
  unfold ensureOpen
  simp only [StateT.run_bind, StateT.run_get, pure_bind, hfind, hclosed, Bool.false_eq_true, if_false]
  show (match coreResult cjson (core w.sent.length) with
    | .error err => _
    | .ok result => _ : ServerM (Except Text Text)).run _ = _
  cases coreResult cjson (core w.sent.length) with
  | error err => rfl
  | ok result =>
    dsimp only
    cases jsonStr (some result) "connId" with
    | none => rfl
    | some id => rfl

theorem opening_openRequest (haddr : Addresses cjson conns entries w.serving i entry rec) :
    Opening cjson conns i (openRequest core rec w) := ⟨rfl, haddr.resolves⟩

theorem granted_openRequest (haddr : Addresses cjson conns entries w.serving i entry rec)
    (hclosed : ∀ x ∈ w.sent, Opening cjson conns i x → returnedConnId cjson x.answer = none) :
    Granted cjson conns entries w.sent (openRequest core rec w) := by
  have hopen : MayOpen cjson conns w.sent (openRequest core rec w) i entry rec :=
    ⟨(entry_of_connOf haddr.connOf).1, rfl, hclosed⟩
  exact ⟨i, rec, entry, haddr.resolves, haddr.record, haddr.mem, haddr.connOf, .inl ⟨rfl, hopen⟩⟩

/-- An opening that returned no connId leaves every slot as it stands. -/
theorem keeps_openRequest_of_none (h : Keeps cjson conns entries w)
    (haddr : Addresses cjson conns entries w.serving i entry rec)
    (hclosed : ∀ x ∈ w.sent, Opening cjson conns i x → returnedConnId cjson x.answer = none)
    (hnone : returnedConnId cjson (core w.sent.length) = none) :
    Keeps cjson conns entries { w with sent := w.sent ++ [openRequest core rec w] } :=
  h.concat (granted_openRequest haddr hclosed) fun _ _ ↦ hnone

/-- `ensure_open` keeps the invariant, and the connId it answers with is one that the core returned for the record. -/
theorem ensureOpen_serving (hshort : ShortConnIds cjson core)
    (haddr : Addresses cjson conns entries request i entry rec) :
    Triple (Serving cjson conns entries request) (ensureOpen cjson core rec i)
      fun r w ↦ Serving cjson conns entries request w ∧ ∀ connId, r = .ok connId →
        ∃ earlier ∈ w.sent, Opening cjson conns i earlier ∧ returnedConnId cjson earlier.answer = some connId := by
  refine ⟨fun w hw ↦ ?_⟩
  obtain ⟨hkeeps, rfl⟩ := hw
  cases hfind : w.slots.zipIdx.find? (fun item ↦ item.1.record = i) with
  | none =>
    have hrun : (ensureOpen cjson core rec i).run w = (.error "connection not registered".toList, w) := by
      unfold ensureOpen
      simp only [StateT.run_bind, StateT.run_get, pure_bind, hfind]
      rfl
    rw [hrun]
    exact ⟨⟨hkeeps, rfl⟩, nofun⟩
  | some item =>
    obtain ⟨slot, k⟩ := item
    obtain ⟨rfl, hslot⟩ := find_slot hkeeps hfind
    have hkept := hkeeps.kept k slot hslot
    cases hopened : slot.opened with
    | true =>
      have hrun : (ensureOpen cjson core rec k).run w = (.ok slot.connId, w) := by
        unfold ensureOpen
        simp only [StateT.run_bind, StateT.run_get, pure_bind, hfind, hopened, if_true]
        rfl
      rw [Kept, if_pos hopened] at hkept
      rw [hrun]
      refine ⟨⟨hkeeps, rfl⟩, fun connId hconnId ↦ ?_⟩
      cases hconnId
      exact hkept
    | false =>
      rw [Kept, if_neg (Bool.eq_false_iff.mp hopened)] at hkept
      rw [ensureOpen_closed hfind hopened]
      -- the response decides: a result with a string connId opens the slot, anything else leaves it closed
      cases hresult : coreResult cjson (core w.sent.length) with
      | error err =>
        have hnone : returnedConnId cjson (core w.sent.length) = none := by rw [returnedConnId, hresult]
        exact ⟨⟨keeps_openRequest_of_none hkeeps haddr hkept hnone, rfl⟩, nofun⟩
      | ok result =>
        have hreturned : returnedConnId cjson (core w.sent.length) = jsonStr (some result) "connId" := by
          rw [returnedConnId, hresult]
        cases hid : jsonStr (some result) "connId" with
        | none =>
          rw [hid] at hreturned
          simp only [hid]
          exact ⟨⟨keeps_openRequest_of_none hkeeps haddr hkept hreturned, rfl⟩, nofun⟩
        | some id =>
          rw [hid] at hreturned
          have htake : id.take 31 = id := List.take_of_length_le (Nat.le_of_lt_succ (hshort _ _ hreturned))
          have hrecord := hkeeps.record k slot hslot
          simp only [hid, htake, hrecord]
          refine ⟨⟨hkeeps.opened (granted_openRequest haddr hkept) (opening_openRequest haddr) hreturned, rfl⟩, ?_⟩
          intro connId hconnId
          cases hconnId
          exact ⟨openRequest core rec w, List.mem_append_right _ (List.mem_singleton_self _),
            opening_openRequest haddr, hreturned⟩

/-! ## Tools -/

/-- The members of a tool name no connId of their own, and a statement that writes only with leave. -/
def Lawful (method : String) (rec : McpConn) (params : List (Text × Json)) : Prop :=
  method = "query.run" → ∀ sql, Json.getItem params "sql".toList = some (.str sql) →
    stmtClassify sql = .write → rec.allowWrite = true

theorem resolveConn_eq_ok {args : Option Json} (h : resolveConn conns args = .ok (rec, i)) :
    conns[i]? = some rec ∧ ∃ c, jsonStr args "connection" = some c ∧ Resolves conns c i := by
  unfold resolveConn at h
  cases hc : jsonStr args "connection" with
  | none => simp [hc] at h
  | some c =>
    simp only [hc] at h
    split at h
    next => cases h
    next found hfound =>
      cases h
      obtain ⟨j, hj, hmap⟩ := Option.bind_eq_some_iff.mp hfound
      obtain ⟨conn, hconn, hpair⟩ := Option.map_eq_some_iff.mp hmap
      cases hpair
      exact ⟨hconn, c, rfl, mcpConnsFind_resolves hj⟩

/-- The record that a tool call finds is that of an entry of the file. -/
theorem addresses_of_resolveConn {args : Option Json} (hconns : conns = entries.filterMap connOf)
    (hargs : args = field (field (cjson.parse request) "params") "arguments")
    (h : resolveConn conns args = .ok (rec, i)) :
    ∃ entry, Addresses cjson conns entries request i entry rec := by
  obtain ⟨hrecord, c, hc, hresolves⟩ := resolveConn_eq_ok h
  have hmem : rec ∈ entries.filterMap connOf := hconns ▸ List.mem_of_getElem? hrecord
  obtain ⟨entry, hentry, hconnOf⟩ := List.mem_filterMap.mp hmem
  exact ⟨entry, ⟨c, by rw [connectionArgument, ← hargs, hc], hresolves⟩, hrecord, hentry, hconnOf⟩

/-- A call on the connection of a record. -/
theorem callCore_serving {method : String} {params : List (Text × Json)} {connId : Text}
    (hmethod : method ∈ ["schema.tree", "schema.describe", "query.run"])
    (hlawful : Lawful method rec params) (haddr : Addresses cjson conns entries request i entry rec) :
    Triple
      (fun w ↦ Serving cjson conns entries request w ∧
        ∃ earlier ∈ w.sent, Opening cjson conns i earlier ∧ returnedConnId cjson earlier.answer = some connId)
      (callCore cjson core method (("connId".toList, .str connId) :: params))
      fun _ ↦ Serving cjson conns entries request := by
  refine ⟨fun w hw ↦ ?_⟩
  obtain ⟨⟨hkeeps, rfl⟩, earlier, hearlier, hopening, hid⟩ := hw
  have hgrants := entry_of_connOf haddr.connOf
  have huse : MayUse cjson conns w.sent
      ⟨w.serving, method, ("connId".toList, .str connId) :: params, core w.sent.length⟩ i entry :=
    { optedIn := hgrants.1
      connId := ⟨earlier, hearlier, hopening, connId, hid, rfl⟩
      write := fun hrun sql hsql hwrite ↦ hgrants.2 (hlawful hrun sql hsql hwrite) }
  have hgranted : Granted cjson conns entries w.sent
      ⟨w.serving, method, ("connId".toList, .str connId) :: params, core w.sent.length⟩ :=
    ⟨i, rec, entry, haddr.resolves, haddr.record, haddr.mem, haddr.connOf, .inr ⟨hmethod, huse⟩⟩
  refine ⟨hkeeps.concat hgranted fun j hother ↦ ?_, rfl⟩
  have hopen := hother.method
  simp only at hopen
  rw [hopen] at hmethod
  exact absurd hmethod (by decide)

/-- The tools that go to the core, whatever their own arguments. -/
theorem callTool_serving {method : String} {args : Option Json} {own : McpConn → Except Text (List (Text × Json))}
    (hshort : ShortConnIds cjson core) (hconns : conns = entries.filterMap connOf)
    (hargs : args = field (field (cjson.parse request) "params") "arguments")
    (hmethod : method ∈ ["schema.tree", "schema.describe", "query.run"])
    (hlawful : ∀ rec params, own rec = .ok params → Lawful method rec params) :
    Triple (Serving cjson conns entries request) (callTool cjson core conns method args own)
      fun _ ↦ Serving cjson conns entries request := by
  unfold callTool
  split
  next why _ => exact Triple.pure fun _ hw ↦ hw
  next rec i hresolve =>
    obtain ⟨entry, haddr⟩ := addresses_of_resolveConn hconns hargs hresolve
    split
    next why _ => exact Triple.pure fun _ hw ↦ hw
    next params hown =>
      refine Triple.bind (ensureOpen_serving hshort haddr) fun r ↦ ?_
      cases r with
      | error err => exact Triple.pure fun _ hw ↦ hw.1
      | ok connId =>
        have hlawfulOwn := hlawful rec params hown
        refine Triple.bind ((callCore_serving hmethod hlawfulOwn haddr).pre
          fun w hw ↦ ⟨hw.1, hw.2 connId rfl⟩) fun answer ↦ ?_
        cases answer with
        | error err => exact Triple.pure fun _ hw ↦ hw
        | ok result => exact Triple.pure fun _ hw ↦ hw

/-- The gate of `query_run`. -/
theorem lawful_queryArguments {args : Option Json} {params : List (Text × Json)}
    (h : queryArguments args rec = .ok params) : Lawful "query.run" rec params := by
  intro _ sql hsql hwrite
  unfold queryArguments at h
  split at h
  next => cases h
  next sql' _ =>
    split at h
    next => cases h
    next hgate =>
      cases h
      have hsame : sql = sql' := by
        rw [Json.getItem, List.find?_cons_of_pos (by rfl)] at hsql
        exact (Json.str.inj (Option.some.inj hsql)).symm
      subst hsame
      simpa [hwrite] using hgate

theorem handleToolsCall_serving {params : Option Json} (hshort : ShortConnIds cjson core)
    (hconns : conns = entries.filterMap connOf) (hparams : params = field (cjson.parse request) "params") :
    Triple (Serving cjson conns entries request) (handleToolsCall cjson core conns params)
      fun _ ↦ Serving cjson conns entries request := by
  have hargs : field params "arguments" = field (field (cjson.parse request) "params") "arguments" := by
    rw [hparams]
  unfold handleToolsCall
  split
  next => exact Triple.pure fun _ hw ↦ hw
  next name _ =>
    refine Triple.ite (fun _ ↦ Triple.pure fun _ hw ↦ hw) fun _ ↦ ?_
    refine Triple.ite (fun _ ↦ Triple.pure fun _ hw ↦ hw) fun _ ↦ ?_
    refine Triple.ite (fun _ ↦ ?_) fun _ ↦ ?_
    · exact callTool_serving hshort hconns hargs (by decide) fun _ _ _ hrun ↦ absurd hrun (by decide)
    refine Triple.ite (fun _ ↦ ?_) fun _ ↦ ?_
    · exact callTool_serving hshort hconns hargs (by decide) fun _ _ _ hrun ↦ absurd hrun (by decide)
    refine Triple.ite (fun _ ↦ ?_) fun _ ↦ Triple.pure fun _ hw ↦ hw
    exact callTool_serving hshort hconns hargs (by decide) fun _ _ hown ↦ lawful_queryArguments hown

theorem mcpServerHandle_serving (hshort : ShortConnIds cjson core) (hconns : conns = entries.filterMap connOf) :
    Triple (Serving cjson conns entries request) (mcpServerHandle cjson core conns info request)
      fun _ ↦ Serving cjson conns entries request := by
  unfold mcpServerHandle
  split
  next => exact Triple.pure fun _ hw ↦ hw
  next root hroot =>
    dsimp only
    split
    next => exact Triple.pure fun _ hw ↦ hw
    next m _ =>
      refine Triple.ite (fun _ ↦ Triple.pure fun _ hw ↦ hw) fun _ ↦ ?_
      refine Triple.ite (fun _ ↦ Triple.pure fun _ hw ↦ hw) fun _ ↦ ?_
      refine Triple.ite (fun _ ↦ Triple.pure fun _ hw ↦ hw) fun _ ↦ ?_
      refine Triple.ite (fun _ ↦ ?_) fun _ ↦ ?_
      · have hparams : field (some root) "params" = field (cjson.parse request) "params" := by rw [hroot]
        exact Triple.bind (handleToolsCall_serving hshort hconns hparams) fun _ ↦ Triple.pure fun _ hw ↦ hw
      · exact Triple.ite (fun _ ↦ Triple.pure fun _ hw ↦ hw) fun _ ↦ Triple.pure fun _ hw ↦ hw

/-! ## Which requests are answered -/

/-- A request with an id gets a response with that id and one of `result` and `error`, one without gets none. -/
def Answered (cjson : Conn.CJson) (request : Text) (response : Option Json) : Prop :=
  ∀ root, cjson.parse request = some root →
    match field (some root) "id" with
    | some id => ∃ resp, response = some resp ∧ field (some resp) "id" = some id ∧
        ((field (some resp) "result").isSome ↔ field (some resp) "error" = none)
    | none => response = none

/-- The methods that are answered whether there is an id or not. -/
def alwaysAnswered : List Text := ["initialize", "ping", "tools/list", "tools/call"].map String.toList

/-- With an id the method is not that of a notification, without one it is not one that is answered always. -/
def Addressed (cjson : Conn.CJson) (request : Text) : Prop :=
  ∀ root, cjson.parse request = some root → ∀ m, jsonStr (some root) "method" = some m →
    match field (some root) "id" with
    | some _ => "notifications/".toList.isPrefixOf m = false
    | none => m ∉ alwaysAnswered

section Response

variable {root id : Json} {m : Text}

theorem responseResult_answers (result : Json) :
    field (some (responseResult (some id) result)) "id" = some id ∧
      ((field (some (responseResult (some id) result)) "result").isSome ↔
        field (some (responseResult (some id) result)) "error" = none) := by
  have hresult : field (some (responseResult (some id) result)) "result" = some result := rfl
  have herror : field (some (responseResult (some id) result)) "error" = none := rfl
  exact ⟨rfl, by simp [hresult, herror]⟩

theorem responseError_answers (code : ℤ) (message : String) :
    field (some (responseError (some id) code message)) "id" = some id ∧
      ((field (some (responseError (some id) code message)) "result").isSome ↔
        field (some (responseError (some id) code message)) "error" = none) := by
  have hresult : field (some (responseError (some id) code message)) "result" = none := rfl
  have herror : (field (some (responseError (some id) code message)) "error").isSome := rfl
  refine ⟨rfl, ?_⟩
  rw [hresult, Option.eq_none_iff_forall_ne_some]
  refine ⟨nofun, fun hnone ↦ ?_⟩
  obtain ⟨error, hsome⟩ := Option.isSome_iff_exists.mp herror
  exact absurd hsome (hnone error)

/-- The response by the method alone. -/
theorem mcpServerHandle_response (hroot : cjson.parse request = some root)
    (hm : jsonStr (some root) "method" = some m) (w : Server) :
    (m ∈ alwaysAnswered ∧ ∃ result, ((mcpServerHandle cjson core conns info request).run w).1 =
        some (responseResult (field (some root) "id") result)) ∨
      (m ∉ alwaysAnswered ∧ "notifications/".toList.isPrefixOf m = true ∧
        ((mcpServerHandle cjson core conns info request).run w).1 = none) ∨
      (m ∉ alwaysAnswered ∧ "notifications/".toList.isPrefixOf m = false ∧
        ((mcpServerHandle cjson core conns info request).run w).1 =
          (field (some root) "id").map fun id ↦ responseError (some id) (-32601) "method not found") := by
  have hmem : m ∈ alwaysAnswered ↔
      m = "initialize".toList ∨ m = "ping".toList ∨ m = "tools/list".toList ∨ m = "tools/call".toList := by
    simp [alwaysAnswered]
  unfold mcpServerHandle
  simp only [hroot, hm]
  split
  next h => exact .inl ⟨hmem.mpr (.inl h), _, rfl⟩
  next h₁ =>
    split
    next h => exact .inl ⟨hmem.mpr (.inr (.inl h)), _, rfl⟩
    next h₂ =>
      split
      next h => exact .inl ⟨hmem.mpr (.inr (.inr (.inl h))), _, rfl⟩
      next h₃ =>
        split
        next h => exact .inl ⟨hmem.mpr (.inr (.inr (.inr h))), _, rfl⟩
        next h₄ =>
          have hother : m ∉ alwaysAnswered := by
            rw [hmem]
            rintro (h | h | h | h)
            exacts [h₁ h, h₂ h, h₃ h, h₄ h]
          split
          next hprefix => exact .inr (.inl ⟨hother, hprefix, rfl⟩)
          next hprefix => exact .inr (.inr ⟨hother, Bool.eq_false_iff.mpr hprefix, rfl⟩)

theorem not_notification_of_alwaysAnswered (h : m ∈ alwaysAnswered) :
    "notifications/".toList.isPrefixOf m = false := by
  have hall : ∀ m ∈ alwaysAnswered, "notifications/".toList.isPrefixOf m = false := by decide
  exact hall m h

/-- A request is answered as its id asks exactly when its method is one for that. -/
theorem answered_iff (w : Server) :
    Answered cjson request ((mcpServerHandle cjson core conns info request).run w).1 ↔ Addressed cjson request := by
  unfold Answered Addressed
  cases hroot : cjson.parse request with
  | none => simp
  | some root =>
    have hroots : ∀ {P : Json → Prop}, (∀ root', some root = some root' → P root') ↔ P root :=
      fun {P} ↦ ⟨fun h ↦ h root rfl, fun h root' heq ↦ Option.some.inj heq ▸ h⟩
    rw [hroots, hroots]
    cases hm : jsonStr (some root) "method" with
    | none =>
      have hresponse : ((mcpServerHandle cjson core conns info request).run w).1 =
          (field (some root) "id").map fun id ↦ responseError (some id) (-32600) "invalid request" := by
        unfold mcpServerHandle
        simp only [hroot, hm]
        rfl
      rw [hresponse]
      refine ⟨fun _ ↦ nofun, fun _ ↦ ?_⟩
      cases field (some root) "id" with
      | none => rfl
      | some id => exact ⟨_, rfl, responseError_answers _ _⟩
    | some m =>
      have hms : ∀ {P : Text → Prop}, (∀ m', some m = some m' → P m') ↔ P m :=
        fun {P} ↦ ⟨fun h ↦ h m rfl, fun h m' heq ↦ Option.some.inj heq ▸ h⟩
      rw [hms]
      rcases mcpServerHandle_response hroot hm w with
        ⟨hmem, result, hresponse⟩ | ⟨hmem, hbeginning, hresponse⟩ | ⟨hmem, hbeginning, hresponse⟩
      · rw [hresponse]
        cases field (some root) "id" with
        | none => simp [hmem]
        | some id =>
          exact iff_of_true ⟨_, rfl, responseResult_answers result⟩ (not_notification_of_alwaysAnswered hmem)
      · rw [hresponse]
        cases field (some root) "id" with
        | none => exact iff_of_true rfl hmem
        | some id =>
          have hnotice : ¬ "notifications/".toList.isPrefixOf m = false := by
            rw [hbeginning]
            decide
          exact iff_of_false (fun ⟨_, hnone, _⟩ ↦ Option.some_ne_none _ hnone.symm) hnotice
      · rw [hresponse]
        cases field (some root) "id" with
        | none => exact iff_of_true rfl hmem
        | some id => exact iff_of_true ⟨_, rfl, responseError_answers _ _⟩ hbeginning

end Response

/-! ## Runs -/

theorem serve_serving (hshort : ShortConnIds cjson core) (hconns : conns = entries.filterMap connOf) :
    Triple (Keeps cjson conns entries) (serve cjson core conns info request)
      fun response w ↦ Keeps cjson conns entries w ∧ (Answered cjson request response ↔ Addressed cjson request) := by
  refine ⟨fun w hw ↦ ?_⟩
  have hkeeps : Keeps cjson conns entries { w with serving := request } := ⟨hw.record, hw.kept, hw.granted⟩
  exact ⟨((mcpServerHandle_serving hshort hconns).run _ ⟨hkeeps, rfl⟩).1, answered_iff _⟩

theorem serveAll_serving (hshort : ShortConnIds cjson core) (hconns : conns = entries.filterMap connOf)
    (requests : List Text) :
    Triple (Keeps cjson conns entries) (serveAll cjson core conns info requests)
      fun served w ↦ Keeps cjson conns entries w ∧
        ((∀ item ∈ served, Answered cjson item.1 item.2) ↔ ∀ request ∈ requests, Addressed cjson request) := by
  induction requests with
  | nil =>
    have hnil : (∀ item ∈ ([] : List (Text × Option Json)), Answered cjson item.1 item.2) ↔
        ∀ request ∈ ([] : List Text), Addressed cjson request :=
      iff_of_true (fun _ h ↦ absurd h List.not_mem_nil) fun _ h ↦ absurd h List.not_mem_nil
    exact Triple.pure fun w hw ↦ ⟨hw, hnil⟩
  | cons request requests ih =>
    refine Triple.bind (serve_serving hshort hconns) fun response ↦ ?_
    refine ⟨fun w hw ↦ ?_⟩
    obtain ⟨hkeeps, hrest⟩ := ih.run w hw.1
    refine ⟨hkeeps, ?_⟩
    rw [List.forall_mem_cons, ← hrest, ← hw.2]
    exact List.forall_mem_cons

/-- The first response is that of the first request. -/
theorem mem_serveAll_cons (requests : List Text) (w : Server) :
    (request, ((mcpServerHandle cjson core conns info request).run { w with serving := request }).1) ∈
      ((serveAll cjson core conns info (request :: requests)).run w).1 := List.mem_cons_self ..

theorem mcpConnsParse_eq_ok {file : Text} (h : mcpConnsParse cjson (some file) = .ok conns) :
    ∃ entries, entriesOf cjson (some file) = .ok entries ∧ conns = entries.filterMap connOf := by
  unfold mcpConnsParse at h
  cases hentries : entriesOf cjson (some file) with
  | error err => rw [hentries] at h; cases h
  | ok entries =>
    rw [hentries] at h
    cases h
    exact ⟨entries, rfl, rfl⟩

/-- Over every sequence of requests nothing is sent to the core but what the file grants, and the requests that are
answered as their id asks are those whose method goes with it. -/
theorem serveAll_granted_answered {file : Text} (hfile : mcpConnsParse cjson (some file) = .ok conns)
    (hshort : ShortConnIds cjson core) (requests : List Text) :
    ∃ entries, entriesOf cjson (some file) = .ok entries ∧
      Log.Each (Granted cjson conns entries)
        ((serveAll cjson core conns info requests).run (mcpServerNew conns)).2.sent ∧
      ((∀ item ∈ ((serveAll cjson core conns info requests).run (mcpServerNew conns)).1,
          Answered cjson item.1 item.2) ↔ ∀ request ∈ requests, Addressed cjson request) := by
  obtain ⟨entries, hentries, hconns⟩ := mcpConnsParse_eq_ok hfile
  obtain ⟨hkeeps, hanswered⟩ := (serveAll_serving hshort hconns requests).run (mcpServerNew conns) keeps_new
  exact ⟨entries, hentries, hkeeps.granted, hanswered⟩

/-! ## A file, a core and a client -/

/-- A text that cJSON reads as `value`. -/
def written (value : Json) : Text := value.print Conn.wholeJson.printNumber

theorem parse_written {value : Json} (h : value.AllNumbers (Json.Written Conn.wholeJson.printNumber)) :
    Conn.wholeJson.parse (written value) = some value := Json.read_print h

/-- An entry that is opted in, read-only. -/
def readOnlyEntry : Json :=
  .obj [("id".toList, .str "a".toList), ("driver".toList, .str "sqlite".toList), ("params".toList, .obj []),
    ("mcp".toList, .bool true)]

def readOnlyFile : Json := .obj [("connections".toList, .arr [readOnlyEntry])]

def readOnlyConn : McpConn := ⟨some "a".toList, none, "sqlite".toList, .obj [], false⟩

/-- A core whose every result is a connection opened. -/
def opensAlways : Json := .obj [("result".toList, .obj [("connId".toList, .str "c1".toList)])]

def listTools : Json := .obj [("method".toList, .str "tools/list".toList)]

theorem mcpConnsParse_readOnlyFile :
    mcpConnsParse Conn.wholeJson (some (written readOnlyFile)) = .ok [readOnlyConn] := by
  have hparse : Conn.wholeJson.parse (written readOnlyFile) = some readOnlyFile :=
    parse_written ⟨⟨⟨trivial, trivial, trivial, trivial, trivial⟩, trivial⟩, trivial⟩
  have hfields : field (some readOnlyFile) "connections" = some (.arr [readOnlyEntry]) := rfl
  rw [mcpConnsParse, entriesOf]
  simp only [hparse, hfields]
  rfl

theorem shortConnIds_opensAlways : ShortConnIds Conn.wholeJson fun _ ↦ some (written opensAlways) := by
  intro _ id hid
  have hparse : Conn.wholeJson.parse (written opensAlways) = some opensAlways :=
    parse_written ⟨⟨trivial, trivial⟩, trivial⟩
  have hresult : coreResult Conn.wholeJson (some (written opensAlways)) =
      .ok (.obj [("connId".toList, .str "c1".toList)]) := by
    rw [coreResult]
    simp only [hparse]
    rfl
  rw [returnedConnId, hresult] at hid
  rw [← Option.some.inj hid]
  decide

theorem serveAll_granted_answered_readOnlyFile :
    ∃ entries, entriesOf Conn.wholeJson (some (written readOnlyFile)) = .ok entries ∧
      Log.Each (Granted Conn.wholeJson [readOnlyConn] entries)
        ((serveAll Conn.wholeJson (fun _ ↦ some (written opensAlways)) [readOnlyConn]
          (mcpServerSetInfo "quaero".toList "0".toList) [written listTools]).run (mcpServerNew [readOnlyConn])).2.sent ∧
      ((∀ item ∈ ((serveAll Conn.wholeJson (fun _ ↦ some (written opensAlways)) [readOnlyConn]
          (mcpServerSetInfo "quaero".toList "0".toList) [written listTools]).run (mcpServerNew [readOnlyConn])).1,
          Answered Conn.wholeJson item.1 item.2) ↔
        ∀ request ∈ [written listTools], Addressed Conn.wholeJson request) :=
  serveAll_granted_answered mcpConnsParse_readOnlyFile shortConnIds_opensAlways [written listTools]

/-- A message without an id is answered where its method is that of a request. -/
theorem serveAll_answers_listTools :
    ¬ ∀ item ∈ ((serveAll Conn.wholeJson (fun _ ↦ some (written opensAlways)) []
      (mcpServerSetInfo "quaero".toList "0".toList) [written listTools]).run (mcpServerNew [])).1,
      Answered Conn.wholeJson item.1 item.2 := by
  intro h
  have hparse : Conn.wholeJson.parse (written listTools) = some listTools := parse_written ⟨trivial, trivial⟩
  have hmethod : jsonStr (some listTools) "method" = some "tools/list".toList := rfl
  have hfirst := h _ (mem_serveAll_cons [] (mcpServerNew []))
  dsimp only at hfirst
  rw [answered_iff] at hfirst
  have hnotAlways : "tools/list".toList ∉ alwaysAnswered := hfirst listTools hparse _ hmethod
  exact hnotAlways (by decide)

end Squaero.Mcp
