import Squaero.Ipc.Rpc
import Squaero.Mongo.QueryParse

/-!
# Connection strings

A DSN as cJSON reads it: the fields `core/src/conn/ssh_config.c` takes from it, what
`dsn_rewrite_loopback` makes of it for the local end of a tunnel, and what each driver hands its client
library to connect to. cJSON finds the first member of a name and deletes the first member of a name,
so where a name repeats the rewritten object still has the second member in front of the new one.
-/

namespace Squaero.Conn

open Squaero.Lib Squaero.Core Squaero.Ipc
open Squaero.Mongo (strtol)

/-! ## Fields -/

/-- `dup_field` and its likes in the drivers: a string that is there and not empty. -/
def strField (root : Option Json) (key : String) : Option Text :=
  match field root key with
  | some (.str s) => if s = [] then none else some s
  | _ => none

/-- A decimal string in the range of ports. -/
def portText (s : Text) : Option ℕ :=
  let (value, rest) := strtol s
  if rest ≠ s ∧ rest = [] ∧ 0 < value ∧ value ≤ 65535 then some value.toNat else none

/-- `int_field`, which the drivers have for their `port` too: 0 when absent or out of range. -/
def intField (root : Option Json) (key : String) : ℕ :=
  match field root key with
  | some (.num value) =>
    if 0 < valueInt value ∧ valueInt value ≤ 65535 then (valueInt value).toNat else 0
  | some (.str s) => (portText s).getD 0
  | _ => 0

/-! ## The SSH fields -/

/-- `ssh_auth_method`. -/
inductive SshAuthMethod
  | agent
  | password
  | key
  deriving DecidableEq, Repr

/-- `ssh_hostkey_policy`. -/
inductive SshHostkeyPolicy
  | acceptNew
  | strict
  | off
  deriving DecidableEq, Repr

/-- `ssh_config` with `present` set. -/
structure SshConfig where
  host : Text
  port : ℕ
  user : Text
  auth : SshAuthMethod
  password : Option Text
  keyPath : Option Text
  keyData : Option Text
  keyPassphrase : Option Text
  targetHost : Text
  targetPort : ℕ
  hostkeyPolicy : SshHostkeyPolicy
  knownHosts : Option Text
  deriving DecidableEq, Repr

/-- The allocations that may fail while a connection is opened. -/
inductive Allocation
  | sshField
  | sshTarget
  | rewrite
  | slot
  deriving DecidableEq, Repr

def loopback : Text := "127.0.0.1".toList

/-- `ssh_hostkey_policy_from_string`. -/
def sshHostkeyPolicyFromString (s : Option Text) : SshHostkeyPolicy :=
  if s = some "strict".toList then .strict
  else if s = some "off".toList then .off
  else .acceptNew

/-- The string of a field, empty or not. -/
def valueString (root : Option Json) (key : String) : Option Text :=
  match field root key with
  | some (.str s) => some s
  | _ => none

def sshAuth (root : Option Json) : Option SshAuthMethod :=
  match valueString root "ssh_auth" with
  | none => some .agent
  | some auth =>
    if auth = "agent".toList then some .agent
    else if auth = "password".toList then some .password
    else if auth = "key".toList then some .key
    else none

/-- `ssh_config_parse` where `ssh_host` is given. -/
def presentConfig (fails : Allocation → Bool) (root : Option Json) (host : Text) :
    Except (Status × Text) SshConfig :=
  let sshPort := intField root "ssh_port"
  let targetHost := (strField root "ssh_target_host").or (strField root "host")
  let targetPort := intField root "ssh_target_port"
  if fails .sshField then .error (.nomem, "out of memory parsing ssh config".toList)
  else
    match sshAuth root, strField root "ssh_user" with
    | none, _ => .error (.param, "ssh_auth must be password, key or agent".toList)
    | some _, none => .error (.param, "ssh_user is required for an SSH tunnel".toList)
    | some auth, some user =>
      if auth = .password ∧ strField root "ssh_password" = none then
        .error (.param, "ssh_password is required for password auth".toList)
      else if auth = .key ∧ strField root "ssh_key" = none ∧
          strField root "ssh_private_key" = none then
        .error (.param, "ssh_key (or ssh_private_key) is required for key auth".toList)
      else if targetHost = none ∧ fails .sshTarget then
        .error (.nomem, "out of memory parsing ssh config".toList)
      else
        .ok
          { host := host
            port := if 0 < sshPort then sshPort else 22
            user := user
            auth := auth
            password := strField root "ssh_password"
            keyPath := strField root "ssh_key"
            keyData := strField root "ssh_private_key"
            keyPassphrase := strField root "ssh_key_passphrase"
            targetHost := targetHost.getD loopback
            targetPort := if targetPort = 0 then intField root "port" else targetPort
            hostkeyPolicy := sshHostkeyPolicyFromString (valueString root "ssh_host_key_policy")
            knownHosts := strField root "ssh_known_hosts" }

/-- `ssh_config_parse` on the tree of a DSN: none where no tunnel is asked for. -/
def sshConfigParse (fails : Allocation → Bool) (root : Option Json) :
    Except (Status × Text) (Option SshConfig) :=
  if root = none then .error (.param, "dsn must be a JSON object".toList)
  else
    match strField root "ssh_host" with
    | none => .ok none
    | some host => (presentConfig fails root host).map some

/-- A DSN that asks for no tunnel asks for none whatever allocation fails. -/
theorem sshConfigParse_direct {fails fails' : Allocation → Bool} {root : Option Json}
    (h : sshConfigParse fails root = .ok none) : sshConfigParse fails' root = .ok none := by
  unfold sshConfigParse at h ⊢
  split_ifs at h ⊢
  cases hhost : strField root "ssh_host" with
  | none => rfl
  | some host =>
    rw [hhost] at h
    cases hconfig : presentConfig fails root host with
    | error failure => exact absurd h (by simp [hconfig, Except.map])
    | ok cfg => exact absurd h (by simp [hconfig, Except.map])

/-! ## The DSN of a tunnelled connection -/

/-- `cJSON_DeleteItemFromObjectCaseSensitive`. -/
def deleteItem (members : List (Text × Json)) (key : String) : List (Text × Json) :=
  members.eraseP fun m ↦ m.1 = key.toList

/-- The values of the members called `key` behind the first one. -/
def laterItems (members : List (Text × Json)) (key : String) : List Json :=
  ((members.filter fun m ↦ m.1 = key.toList).tail).map (·.2)

/-- The members of the object `dsn_rewrite_loopback` prints. -/
def loopbackMembers (localPort : ℕ) (members : List (Text × Json)) : List (Text × Json) :=
  deleteItem (deleteItem (deleteItem members "host") "port") "socket" ++
    [("host".toList, .str loopback), ("port".toList, .num localPort)]

section Members

variable {members more : List (Text × Json)} {key other : String}

theorem field_obj : field (some (.obj members)) key = Json.getItem members key.toList := rfl

theorem getItem_append (name : Text) : Json.getItem (members ++ more) name =
    (Json.getItem members name).or (Json.getItem more name) := by
  unfold Json.getItem
  rw [List.find?_append, Option.map_or]

/-- Behind the deletion the second member of the name is found. -/
theorem getItem_deleteItem :
    Json.getItem (deleteItem members key) key.toList = (laterItems members key).head? := by
  unfold Json.getItem deleteItem laterItems
  rw [List.head?_map]
  congr 1
  induction members with
  | nil => rfl
  | cons m members ih =>
    by_cases hm : m.1 = key.toList
    · simp [hm, List.head?_filter]
    · simp [hm, ih]

theorem getItem_deleteItem_of_ne (h : key.toList ≠ other.toList) :
    Json.getItem (deleteItem members key) other.toList = Json.getItem members other.toList := by
  unfold Json.getItem deleteItem
  congr 1
  induction members with
  | nil => rfl
  | cons m members ih =>
    by_cases hm : m.1 = key.toList
    · have hother : m.1 ≠ other.toList := fun heq ↦ h (hm.symm.trans heq)
      simp [hm, h]
    · by_cases hother : m.1 = other.toList
      · simp [hother, Ne.symm h]
      · simp [hm, hother, ih]

theorem laterItems_deleteItem_of_ne (h : key.toList ≠ other.toList) :
    laterItems (deleteItem members key) other = laterItems members other := by
  unfold laterItems deleteItem
  congr 2
  induction members with
  | nil => rfl
  | cons m members ih =>
    by_cases hm : m.1 = key.toList
    · have hother : m.1 ≠ other.toList := fun heq ↦ h (hm.symm.trans heq)
      simp [hm, h]
    · by_cases hother : m.1 = other.toList
      · simp [hother, Ne.symm h, ih]
      · simp [hm, hother, ih]

theorem mem_of_mem_deleteItem {m : Text × Json} (h : m ∈ deleteItem members key) : m ∈ members :=
  List.mem_of_mem_eraseP h

end Members

/-- What the core uses of cJSON: the tree of a text, whose strings are C strings, and how a number is
printed. -/
structure CJson where
  parse : Text → Option Json
  printNumber : ℚ → Text

/-- What cJSON prints of an object with some of these members, a loopback host and a port, it reads
back. -/
def CJson.PrintsBack (cjson : CJson) (members : List (Text × Json)) : Prop :=
  ∀ members' : List (Text × Json), (∀ m ∈ members', m ∈ members ∨
      m = ("host".toList, .str loopback) ∨ ∃ port : ℕ, port ≤ 65535 ∧ m = ("port".toList, .num port)) →
    cjson.parse ((Json.obj members').print cjson.printNumber) = some (.obj members')

/-- `dsn_rewrite_loopback`. -/
def dsnRewriteLoopback (cjson : CJson) (fails : Bool) (dsn : Text) (localPort : ℕ) : Option Text :=
  if localPort < 1 ∨ 65535 < localPort then none
  else
    match cjson.parse dsn with
    | some (.obj members) =>
      if fails then none
      else some ((Json.obj (loopbackMembers localPort members)).print cjson.printNumber)
    | _ => none

theorem dsnRewriteLoopback_eq_some {cjson : CJson} {fails : Bool} {dsn rewritten : Text}
    {localPort : ℕ} {members : List (Text × Json)} (hdsn : cjson.parse dsn = some (.obj members))
    (h : dsnRewriteLoopback cjson fails dsn localPort = some rewritten) :
    1 ≤ localPort ∧ localPort ≤ 65535 ∧
      rewritten = (Json.obj (loopbackMembers localPort members)).print cjson.printNumber := by
  simp only [dsnRewriteLoopback, hdsn] at h
  split_ifs at h
  exact ⟨by omega, by omega, (Option.some.inj h).symm⟩

/-- A driver finds in the rewritten DSN what was printed into it. -/
theorem CJson.PrintsBack.rewritten {cjson : CJson} {members : List (Text × Json)}
    (h : cjson.PrintsBack members) {localPort : ℕ} (hmax : localPort ≤ 65535) :
    cjson.parse ((Json.obj (loopbackMembers localPort members)).print cjson.printNumber) =
      some (.obj (loopbackMembers localPort members)) := by
  apply h
  intro m hm
  rcases List.mem_append.mp hm with hold | hnew
  · exact .inl (mem_of_mem_deleteItem (mem_of_mem_deleteItem (mem_of_mem_deleteItem hold)))
  · have hpair : m = ("host".toList, .str loopback) ∨ m = ("port".toList, .num localPort) := by
      simpa using hnew
    exact .inr (hpair.imp_right fun hport ↦ ⟨localPort, hmax, hport⟩)

/-- `dsn_tunnel_unsupported`. -/
def dsnTunnelUnsupported (root : Option Json) : Option Text :=
  if (strField root "instance").isSome then
    some ("a named instance cannot go through the SSH tunnel: ".toList ++
      "clear 'instance' and give the instance's TCP port".toList)
  else none

/-! ## What the drivers dial -/

inductive Port
  | unset
  | number (port : ℕ)
  | text (port : Text)
  deriving DecidableEq, Repr

/-- What a driver hands its client library to connect to. -/
inductive Target
  | server (host : Option Text) (port : Port) (socket : Option Text) (namedInstance : Option Text)
  | uri (uri : Text)
  | file (path : Text)
  deriving DecidableEq, Repr

/-- A port field in its range; 0 is none. -/
def portField (root : Option Json) : Port :=
  if intField root "port" = 0 then .unset else .number (intField root "port")

/-- `connect_handle` of the MySQL driver, which takes any positive number. -/
def mysqlTarget (root : Option Json) : Target :=
  let port := match field root "port" with
    | some (.num value) => if 0 < valueInt value then .number (valueInt value).toNat else .unset
    | some (.str s) => ((portText s).map .number).getD .unset
    | _ => .unset
  .server (strField root "host") port (strField root "socket") none

/-- `pg_drv_connect`. -/
def postgresTarget (root : Option Json) : Target :=
  let port := match strField root "port", field root "port" with
    | some s, _ => .text s
    | none, some (.num value) =>
      if 0 < valueInt value then .text (Nat.toDigits 10 (valueInt value).toNat) else .unset
    | none, _ => .unset
  .server (strField root "host") port none none

/-- `open_connection` of the SQL Server driver. -/
def mssqlTarget (root : Option Json) : Option Target :=
  let accepted := ["off".toList, "request".toList, "require".toList, "strict".toList]
  if strField root "host" = none ∨ strField root "user" = none then none
  else if (strField root "encryption").any (· ∉ accepted) then none
  else if strField root "instance" ≠ none ∧ intField root "port" ≠ 0 then none
  else some (.server (strField root "host") (portField root) none (strField root "instance"))

/-- `parse_port` of the Informix driver. -/
def informixPort (root : Option Json) : Option ℕ :=
  let inRange (value : ℤ) := if 0 < value ∧ value ≤ 65535 then some value.toNat else none
  match field root "port" with
  | none => some 9089
  | some .null => some 9089
  | some (.num value) => inRange (valueInt value)
  | some (.str s) =>
    if s = [] then some 9089
    else
      let (value, rest) := strtol s
      if rest ≠ [] then none else inRange value
  | some _ => none

/-- `informix_dsn_parse`, with the sizes of the fields of `ifx_dsn`. -/
def informixTarget (root : Option Json) : Option Target :=
  let modes := ["off".toList, "disable".toList, "require".toList, "verify-ca".toList,
    "verify-full".toList]
  let fits (cap : ℕ) (value : Option Text) := (value.getD []).length < cap
  if !root.any Json.isObj then none
  else if strField root "odbc_dsn" ≠ none then none
  else if strField root "protocol" = some "onsocssl".toList ∧ strField root "tls" = none then none
  else if strField root "host" = none ∨ strField root "user" = none then none
  else
    match informixPort root with
    | none => none
    | some port =>
      if (strField root "tls").any (· ∉ modes) then none
      else if !(fits 256 (strField root "host") && fits 129 (strField root "database") &&
          fits 129 (strField root "user") && fits 256 (strField root "password") &&
          fits 1024 (strField root "tls_ca") && fits 129 (strField root "sqli_server")) then none
      else some (.server (strField root "host") (.number port) none none)

/-- `build_uri` of the MongoDB driver. -/
def mongodbTarget (root : Option Json) : Target :=
  match strField root "uri" with
  | some uri => .uri uri
  | none =>
    let port := intField root "port"
    .server (some ((strField root "host").getD loopback))
      (.number (if port ≠ 0 then port else 27017)) none none

/-- What the driver called `driver` connects to, or none where it refuses the DSN. -/
def target (driver : Text) (root : Option Json) : Option Target :=
  if root = none then none
  else if driver = "mysql".toList then some (mysqlTarget root)
  else if driver = "postgres".toList then some (postgresTarget root)
  else if driver = "mssql".toList then mssqlTarget root
  else if driver = "informix".toList then informixTarget root
  else if driver = "mongodb".toList then some (mongodbTarget root)
  else if driver = "sqlite".toList then (valueString root "path").map .file
  else none

/-! ## What a rewritten DSN leads to -/

section Loopback

variable {members : List (Text × Json)} {localPort : ℕ} {key : String}

theorem field_loopbackMembers :
    field (some (.obj (loopbackMembers localPort members))) key =
      (Json.getItem (deleteItem (deleteItem (deleteItem members "host") "port") "socket")
        key.toList).or (Json.getItem [("host".toList, .str loopback),
          ("port".toList, .num localPort)] key.toList) := by
  rw [field_obj, loopbackMembers, getItem_append]

theorem host_loopbackMembers : field (some (.obj (loopbackMembers localPort members))) "host" =
    (laterItems members "host").head?.or (some (.str loopback)) := by
  rw [field_loopbackMembers, getItem_deleteItem_of_ne (by decide),
    getItem_deleteItem_of_ne (by decide), getItem_deleteItem]
  rfl

theorem port_loopbackMembers : field (some (.obj (loopbackMembers localPort members))) "port" =
    (laterItems members "port").head?.or (some (.num localPort)) := by
  rw [field_loopbackMembers, getItem_deleteItem_of_ne (by decide), getItem_deleteItem,
    laterItems_deleteItem_of_ne (by decide)]
  rfl

theorem socket_loopbackMembers :
    field (some (.obj (loopbackMembers localPort members))) "socket" =
      (laterItems members "socket").head? := by
  rw [field_loopbackMembers, getItem_deleteItem, laterItems_deleteItem_of_ne (by decide),
    laterItems_deleteItem_of_ne (by decide)]
  exact Option.or_none

/-- The rewriting leaves the other members alone. -/
theorem other_loopbackMembers (hhost : "host".toList ≠ key.toList)
    (hport : "port".toList ≠ key.toList) (hsocket : "socket".toList ≠ key.toList) :
    field (some (.obj (loopbackMembers localPort members))) key =
      field (some (.obj members)) key := by
  have hnew : Json.getItem [("host".toList, .str loopback), ("port".toList, .num localPort)]
      key.toList = none := by
    unfold Json.getItem
    rw [List.find?_cons_of_neg (by simpa using hhost), List.find?_cons_of_neg (by simpa using hport)]
    rfl
  rw [field_loopbackMembers, hnew, Option.or_none, getItem_deleteItem_of_ne hsocket,
    getItem_deleteItem_of_ne hport, getItem_deleteItem_of_ne hhost, field_obj]

/-- The lookups of an address find the local end of a tunnel. -/
structure PointsAt (localPort : ℕ) (root : Option Json) : Prop where
  host : field root "host" = some (.str loopback)
  port : field root "port" = some (.num localPort)
  socket : field root "socket" = none

theorem pointsAt_loopbackMembers_iff :
    PointsAt localPort (some (.obj (loopbackMembers localPort members))) ↔
      (∀ v ∈ (laterItems members "host").head?, v = .str loopback) ∧
        (∀ v ∈ (laterItems members "port").head?, v = .num localPort) ∧
        laterItems members "socket" = [] := by
  have hhead (found : Option Json) (v : Json) :
      found.or (some v) = some v ↔ ∀ u ∈ found, u = v := by
    cases found <;> simp
  constructor
  · intro h
    exact
      ⟨(hhead _ _).mp (host_loopbackMembers.symm.trans h.host),
        (hhead _ _).mp (port_loopbackMembers.symm.trans h.port),
        List.head?_eq_none_iff.mp (socket_loopbackMembers.symm.trans h.socket)⟩
  · intro h
    exact
      { host := host_loopbackMembers.trans ((hhead _ _).mpr h.1)
        port := port_loopbackMembers.trans ((hhead _ _).mpr h.2.1)
        socket := socket_loopbackMembers.trans (List.head?_eq_none_iff.mpr h.2.2) }

/-- What a client library is given leads to the local end of a tunnel and nowhere else. `uriHosts` are
the servers it reads in a MongoDB URI, none where it refuses the text. -/
def Target.Tunnelled (uriHosts : Text → List (Text × ℕ)) (localPort : ℕ) : Target → Prop
  | .server host port socket namedInstance =>
    host = some loopback ∧ (port = .number localPort ∨ port = .text (Nat.toDigits 10 localPort)) ∧
      socket = none ∧ namedInstance = none
  | .uri text => ∀ server ∈ uriHosts text, server = (loopback, localPort)
  | .file _ => True

theorem intField_port (hport : localPort ≤ 65535) (hpos : 1 ≤ localPort) {root : Option Json}
    (h : field root "port" = some (.num localPort)) : intField root "port" = localPort := by
  have hvalue : valueInt (localPort : ℚ) = localPort := valueInt_natCast (by
    unfold intMax
    omega)
  rw [intField, h]
  simp only [hvalue]
  rw [if_pos ⟨by omega, by omega⟩, Int.toNat_natCast]

/-- Every driver connects to the local end of the tunnel, MongoDB unless it is given a URI. -/
theorem PointsAt.tunnelled {root : Option Json} {driver : Text} {uriHosts : Text → List (Text × ℕ)}
    (h : PointsAt localPort root) (hpos : 1 ≤ localPort) (hmax : localPort ≤ 65535)
    (hinstance : strField root "instance" = none)
    (huri : driver = "mongodb".toList → ∀ uri, strField root "uri" = some uri → uriHosts uri = [])
    {t : Target} (ht : target driver root = some t) : t.Tunnelled uriHosts localPort := by
  have hhost : strField root "host" = some loopback := by
    rw [strField, h.host]
    rfl
  have hsocket : strField root "socket" = none := by rw [strField, h.socket]
  have hvalue : valueInt (localPort : ℚ) = localPort := valueInt_natCast (by
    unfold intMax
    omega)
  have hint : intField root "port" = localPort := intField_port hmax hpos h.port
  have hne : localPort ≠ 0 := by omega
  unfold target at ht
  split_ifs at ht with hroot hmysql hpostgres hmssql hinformix hmongodb hsqlite
  · cases ht
    simp [mysqlTarget, h.port, hhost, hsocket, hvalue, Target.Tunnelled, Nat.pos_of_ne_zero hne]
  · cases ht
    have hstr : strField root "port" = none := by rw [strField, h.port]
    simp [postgresTarget, hstr, h.port, hhost, hvalue, Target.Tunnelled, Nat.pos_of_ne_zero hne]
  · simp only [mssqlTarget] at ht
    split_ifs at ht
    cases ht
    simp [portField, hint, hne, hhost, hinstance, Target.Tunnelled]
  · have hport : informixPort root = some localPort := by
      simp [informixPort, h.port, hvalue, Nat.pos_of_ne_zero hne, hmax]
    unfold informixTarget at ht
    simp only [hport] at ht
    split_ifs at ht
    cases ht
    simp [hhost, Target.Tunnelled]
  · cases ht
    unfold mongodbTarget
    cases hfield : strField root "uri" with
    | none => simp [hhost, hint, hne, Target.Tunnelled]
    | some uri => simp [huri hmongodb uri hfield, Target.Tunnelled]
  · obtain ⟨path, -, rfl⟩ := Option.map_eq_some_iff.mp ht
    trivial

end Loopback

end Squaero.Conn
