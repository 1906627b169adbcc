import Squaero.Front.QueryBuilder
import Squaero.Front.SqlVariables

/-!
# Users and their privileges

`utils/userAdmin.ts`: the statements of the user panel for MySQL and MariaDB. Names, hosts and passwords go into
string literals, the chosen database, table and columns into quoted identifiers. The builders differ in what
they do to a name and a host before that: all but `showGrantsSql` trim the name, and three of them turn an empty
host into `%`, which is the host of another account.
-/

namespace Squaero.Front.UserAdmin

open Squaero.Lib Squaero.Lib.SqlLex

/-- The columns of `UserAdminSupport`. -/
structure UserAdminSupport where
  userNameCol : Option Text
  userHostCol : Option Text
  userSuperCol : Option Text
  userGrantCol : Option Text

structure UserRow where
  name : Text
  host : Text
  superuser : Bool
  grantOption : Bool
  deriving DecidableEq, Repr

structure GrantOptions where
  privileges : List Text
  scope : Text
  user : Text
  host : Option Text
  columns : Option (List Text)

def mysqlPrivileges : List Text :=
  ["SELECT".toList, "INSERT".toList, "UPDATE".toList, "DELETE".toList, "CREATE".toList, "DROP".toList,
    "ALTER".toList, "INDEX".toList, "REFERENCES".toList, "CREATE VIEW".toList, "SHOW VIEW".toList,
    "TRIGGER".toList, "EXECUTE".toList, "GRANT OPTION".toList, "ALL PRIVILEGES".toList]

inductive GrantTarget
  | server
  | database (db : Text)
  | table (db table : Text)
  | column (db table : Text) (columns : List Text)
  | custom (text : Text)

def grantScope : GrantTarget → Option Text
  | .server => some "*.*".toList
  | .database db => if db ≠ [] then some (quoteIdentifier db "mysql".toList ++ ".*".toList) else none
  | .table db table =>
    if db ≠ [] ∧ table ≠ [] then
      some (quoteIdentifier db "mysql".toList ++ '.' :: quoteIdentifier table "mysql".toList)
    else none
  | .column db table columns =>
    if db ≠ [] ∧ table ≠ [] ∧ 0 < columns.length then
      some (quoteIdentifier db "mysql".toList ++ '.' :: quoteIdentifier table "mysql".toList)
    else none
  | .custom text => if jsTrim text = [] then none else some (jsTrim text)

/-- The privileges the form offers at the level of a target. -/
def privilegesFor : GrantTarget → List Text
  | .column _ _ _ => ["SELECT".toList, "INSERT".toList, "UPDATE".toList, "REFERENCES".toList]
  | .table _ _ => mysqlPrivileges.filter (· ≠ "EXECUTE".toList)
  | _ => mysqlPrivileges

/-- `r[i] ?? ""`. -/
def cell (row : List (Option Text)) (i : ℕ) : Text := (row[i]?.getD none).getD []

def parseUserRows (columns : List Text) (rows : List (List (Option Text))) (support : UserAdminSupport) :
    List UserRow :=
  let idx (col : Option Text) : Option ℕ := col.bind fun name ↦ columns.findIdx? (· = name)
  let yes (row : List (Option Text)) (i : Option ℕ) : Bool :=
    i.any fun i ↦ jsUpper (jsTrim (cell row i)) = "Y".toList
  match idx support.userNameCol with
  | none => []
  | some ni =>
    let hi := idx support.userHostCol
    let si := idx support.userSuperCol
    let gi := idx support.userGrantCol
    (rows.map fun r ↦ ⟨cell r ni, hi.elim [] (cell r), yes r si, yes r gi⟩).filter fun u : UserRow ↦ u.name ≠ []

/-- `value.replace(/\\/g, "\\\\").replace(/'/g, "''")`. -/
def q (value : Text) : Text :=
  (value.flatMap fun c ↦ if c = '\\' then ['\\', '\\'] else [c]).flatMap fun c ↦
    if c = '\'' then ['\'', '\''] else [c]

/-- `'${q(user)}'@'${q(host)}'`. -/
def account (user host : Text) : Text :=
  ('\'' :: (q user ++ ['\''])) ++ ('@' :: '\'' :: (q host ++ ['\'']))

/-- `host || "%"`. -/
def orAnyHost (host : Text) : Text := if host = [] then ['%'] else host

def showGrantsSql (engine user : Text) (host : Option Text) : Option Text :=
  if engineFamily engine ≠ "mysql".toList ∨ user = [] then none
  else some ("SHOW GRANTS FOR ".toList ++ account user (host.getD ['%']))

def privilegeList (privileges columns : List Text) : Option Text :=
  let cleaned := (privileges.map jsTrim).filter (· ≠ [])
  if cleaned = [] then none
  else if 0 < columns.length then
    let cols := ", ".toList.intercalate (columns.map fun c ↦ quoteIdentifier c "mysql".toList)
    some (", ".toList.intercalate (cleaned.map fun p ↦ p ++ (" (".toList ++ (cols ++ [')']))))
  else if cleaned.any fun p ↦ jsUpper p = "ALL PRIVILEGES".toList then some "ALL PRIVILEGES".toList
  else some (", ".toList.intercalate cleaned)

/-- `buildGrantSql` and `buildRevokeSql`, which differ in two words. -/
def buildPrivilegeSql (verb preposition : Text) (engine : Text) (opts : GrantOptions) : Option Text :=
  if engineFamily engine ≠ "mysql".toList then none
  else
    match privilegeList opts.privileges (opts.columns.getD []) with
    | none => none
    | some privs =>
      if jsTrim opts.scope = [] ∨ jsTrim opts.user = [] then none
      else some (verb ++ (privs ++ (" ON ".toList ++ (jsTrim opts.scope ++ (preposition ++
        account (jsTrim opts.user) (jsTrim (opts.host.getD ['%'])))))))

def buildGrantSql : Text → GrantOptions → Option Text := buildPrivilegeSql "GRANT ".toList " TO ".toList

def buildRevokeSql : Text → GrantOptions → Option Text := buildPrivilegeSql "REVOKE ".toList " FROM ".toList

def buildDropUserSql (engine user : Text) (host : Option Text) : Option Text :=
  if engineFamily engine ≠ "mysql".toList then none
  else if jsTrim user = [] then none
  else some ("DROP USER ".toList ++ account (jsTrim user) (orAnyHost (jsTrim (host.getD ['%']))))

def buildSetPasswordSql (engine user host password : Text) : Option Text :=
  if engineFamily engine ≠ "mysql".toList ∨ jsTrim user = [] ∨ password = [] then none
  else some ("ALTER USER ".toList ++ (account (jsTrim user) (orAnyHost (jsTrim host)) ++
    (" IDENTIFIED BY ".toList ++ '\'' :: (q password ++ ['\'']))))

def buildLockUserSql (engine user host : Text) (lock : Bool) : Option Text :=
  if engineFamily engine ≠ "mysql".toList ∨ jsTrim user = [] then none
  else some ("ALTER USER ".toList ++ (account (jsTrim user) (orAnyHost (jsTrim host)) ++
    (" ACCOUNT ".toList ++ if lock then "LOCK".toList else "UNLOCK".toList)))

/-! ## What a statement does -/

structure Account where
  name : Text
  host : Text
  deriving DecidableEq, Repr

/-- What a grant applies to, as the server reads it. -/
inductive Target
  | server
  | database (db : Text)
  | table (db table : Text)
  deriving DecidableEq, Repr

/-- A privilege with the columns it is limited to. -/
structure Privilege where
  name : Text
  columns : List Text
  deriving DecidableEq, Repr

inductive UserStatement
  | showGrants (account : Account)
  | grant (privileges : List Privilege) (target : Target) (account : Account)
  | revoke (privileges : List Privilege) (target : Target) (account : Account)
  | dropUser (account : Account)
  | setPassword (account : Account) (password : Text)
  | lock (account : Account) (locked : Bool)
  deriving DecidableEq, Repr

def parseAccount : List Token → Option (Account × List Token)
  | .str name :: .punct '@' :: .str host :: rest => some (⟨name, host⟩, rest)
  | _ => none

def parseTarget : List Token → Option (Target × List Token)
  | .punct '*' :: .punct '.' :: .punct '*' :: rest => some (.server, rest)
  | .ident db :: .punct '.' :: .punct '*' :: rest => some (.database db, rest)
  | .ident db :: .punct '.' :: .ident table :: rest => some (.table db table, rest)
  | _ => none

/-- The words up to `ON` or to what is no word. -/
def takeWords : List Token → List Text × List Token
  | .word text :: rest =>
    if text = "ON".toList then ([], .word text :: rest)
    else (text :: (takeWords rest).1, (takeWords rest).2)
  | rest => ([], rest)

def parseColumn : List Token → Option (Text × List Token)
  | .ident name :: rest => some (name, rest)
  | _ => none

def parsePrivilege (tokens : List Token) : Option (Privilege × List Token) :=
  let (words, rest) := takeWords tokens
  match eat (.punct '(') rest with
  | none => some (⟨[' '].intercalate words, []⟩, rest)
  | some rest => do
    let (columns, rest) ← parseSeparated parseColumn (.punct ',') rest.length rest
    let rest ← eat (.punct ')') rest
    some (⟨[' '].intercalate words, columns⟩, rest)

/-- The privileges, the target and the account of a `GRANT` or a `REVOKE`. -/
def parsePrivilegeStatement (preposition : Token) (tokens : List Token) :
    Option (List Privilege × Target × Account) := do
  let (privileges, tokens) ← parseSeparated parsePrivilege (.punct ',') tokens.length tokens
  let tokens ← eat (keyword "ON") tokens
  let (target, tokens) ← parseTarget tokens
  let tokens ← eat preposition tokens
  let (account, tokens) ← parseAccount tokens
  if tokens = [] then some (privileges, target, account) else none

/-- What follows the account of an `ALTER USER`. -/
def parseAlter (account : Account) (tokens : List Token) : Option UserStatement :=
  match tokens with
  | [first, second, .str password] =>
    if first = keyword "IDENTIFIED" ∧ second = keyword "BY" then some (.setPassword account password) else none
  | [first, second] =>
    if first = keyword "ACCOUNT" ∧ second = keyword "LOCK" then some (.lock account true)
    else if first = keyword "ACCOUNT" ∧ second = keyword "UNLOCK" then some (.lock account false)
    else none
  | _ => none

def parseUserStatement : List Token → Option UserStatement
  | [] => none
  | verb :: tokens =>
    if verb = keyword "SHOW" then do
      let tokens ← eat (keyword "GRANTS") tokens
      let tokens ← eat (keyword "FOR") tokens
      let (account, tokens) ← parseAccount tokens
      if tokens = [] then some (.showGrants account) else none
    else if verb = keyword "GRANT" then
      (parsePrivilegeStatement (keyword "TO") tokens).map fun r ↦ .grant r.1 r.2.1 r.2.2
    else if verb = keyword "REVOKE" then
      (parsePrivilegeStatement (keyword "FROM") tokens).map fun r ↦ .revoke r.1 r.2.1 r.2.2
    else if verb = keyword "DROP" then do
      let tokens ← eat (keyword "USER") tokens
      let (account, tokens) ← parseAccount tokens
      if tokens = [] then some (.dropUser account) else none
    else if verb = keyword "ALTER" then do
      let tokens ← eat (keyword "USER") tokens
      let (account, tokens) ← parseAccount tokens
      parseAlter account tokens
    else none

/-- The one statement that a text is to MySQL. -/
def readStatement (sql : Text) : Option UserStatement := (lex mysql sql).bind parseUserStatement

/-- The target that was chosen in the form. What is typed by hand is not looked into. -/
def chosen : GrantTarget → Option Target
  | .server => some .server
  | .database db => some (.database db)
  | .table db table => some (.table db table)
  | .column db table _ => some (.table db table)
  | .custom _ => none

/-- The columns that were chosen in the form. -/
def chosenColumns : GrantTarget → List Text
  | .column _ _ columns => columns
  | _ => []

/-- The options that the panel builds. -/
def optionsOf (u : UserRow) (target : GrantTarget) (scope : Text) (privileges : List Text) : GrantOptions where
  privileges := privileges
  scope := scope
  user := u.name
  host := some u.host
  columns := match target with
    | .column _ _ columns => some columns
    | _ => none

/-- A list of privileges covers one: it names it, or `ALL PRIVILEGES`, which stands for all but the right to
grant. -/
def Covers (names : List Text) (p : Text) : Prop :=
  p ∈ names ∨ "ALL PRIVILEGES".toList ∈ names ∧ p ≠ "GRANT OPTION".toList

/-- The privileges of a statement are exactly the selected ones, on the chosen columns. -/
def SamePrivileges (read : List Privilege) (selected columns : List Text) : Prop :=
  (∀ p ∈ mysqlPrivileges, Covers (read.map Privilege.name) p ↔ Covers selected p) ∧
    ∀ p ∈ read, p.columns = columns

/-- A choice in the panel. -/
structure Choice where
  user : UserRow
  password : Text
  locked : Bool
  target : GrantTarget
  privileges : List Text

/-- Each statement of the panel is one that acts on the account of the row, with the values chosen. -/
structure ActsExactly (engine : Text) (c : Choice) : Prop where
  show_ : ∃ sql, showGrantsSql engine c.user.name (some c.user.host) = some sql ∧
    readStatement sql = some (.showGrants ⟨c.user.name, c.user.host⟩)
  drop : ∃ sql, buildDropUserSql engine c.user.name (some c.user.host) = some sql ∧
    readStatement sql = some (.dropUser ⟨c.user.name, c.user.host⟩)
  password : ∃ sql, buildSetPasswordSql engine c.user.name c.user.host c.password = some sql ∧
    readStatement sql = some (.setPassword ⟨c.user.name, c.user.host⟩ c.password)
  lock : ∃ sql, buildLockUserSql engine c.user.name c.user.host c.locked = some sql ∧
    readStatement sql = some (.lock ⟨c.user.name, c.user.host⟩ c.locked)
  grant : ∃ scope sql read target, grantScope c.target = some scope ∧
    buildGrantSql engine (optionsOf c.user c.target scope c.privileges) = some sql ∧
    readStatement sql = some (.grant read target ⟨c.user.name, c.user.host⟩) ∧ chosen c.target = some target ∧
    SamePrivileges read c.privileges (chosenColumns c.target)
  revoke : ∃ scope sql read target, grantScope c.target = some scope ∧
    buildRevokeSql engine (optionsOf c.user c.target scope c.privileges) = some sql ∧
    readStatement sql = some (.revoke read target ⟨c.user.name, c.user.host⟩) ∧ chosen c.target = some target ∧
    SamePrivileges read c.privileges (chosenColumns c.target)

/-! ## The tokens of the pieces -/

theorem q_cons (c : Char) (value : Text) :
    q (c :: value) =
      (if c = '\\' then ['\\', '\\'] else if c = '\'' then ['\'', '\''] else [c]) ++ q value := by
  unfold q
  rw [List.flatMap_cons, List.flatMap_append]
  by_cases hbackslash : c = '\\'
  · subst hbackslash
    rfl
  · simp [hbackslash]

theorem spells_q (value : Text) : Spells ⟨'\'', true, true⟩ (q value) value := by
  induction value with
  | nil => exact .nil
  | cons c value ih =>
    rw [q_cons]
    by_cases hbackslash : c = '\\'
    · subst hbackslash
      exact Spells.escaped rfl (by decide) ih
    by_cases hquote : c = '\''
    · subst hquote
      exact Spells.doubled ih
    · rw [if_neg hbackslash, if_neg hquote]
      exact ih.plain hquote fun h ↦ hbackslash h.1

theorem literal_reads (value : Text) : Reads mysql ('\'' :: (q value ++ ['\''])) [.str value] :=
  reads_quoted rfl (by decide) (spells_q value)

theorem identifier_reads (name : Text) : Reads mysql (quoteIdentifier name "mysql".toList) [.ident name] :=
  reads_quoted rfl (by decide) (@spells_doubled ⟨'`', false, false⟩ rfl name)

theorem piece_cut {piece : Text} {tokens : List Token} (hpiece : ∀ c ∈ piece, c ∉ ['\'', '"', '`', '['])
    (hread : phrase piece = some tokens) : Cuts mysql piece tokens := cuts_phrase mysql_usual hpiece hread

def accountTokens (name host : Text) : List Token := [.str name, .punct '@', .str host]

theorem account_reads (name host : Text) : Reads mysql (account name host) (accountTokens name host) := by
  have hat : Cuts mysql ['@'] [.punct '@'] := piece_cut (by decide) (by decide)
  exact (literal_reads name).append (hat.append_reads (literal_reads host)) ⟨'@', _, rfl, by decide⟩

theorem readStatement_of_reads {sql : Text} {tokens : List Token} (h : Reads mysql sql tokens) :
    readStatement sql = parseUserStatement tokens := by
  rw [readStatement, h.lex]
  rfl

theorem readStatement_show (name host : Text) :
    readStatement ("SHOW GRANTS FOR ".toList ++ account name host) = some (.showGrants ⟨name, host⟩) := by
  have hverb : Cuts mysql "SHOW GRANTS FOR ".toList [keyword "SHOW", keyword "GRANTS", keyword "FOR"] :=
    piece_cut (by decide) (by decide)
  exact readStatement_of_reads (hverb.append_reads (account_reads name host))

theorem readStatement_drop (name host : Text) :
    readStatement ("DROP USER ".toList ++ account name host) = some (.dropUser ⟨name, host⟩) := by
  have hverb : Cuts mysql "DROP USER ".toList [keyword "DROP", keyword "USER"] :=
    piece_cut (by decide) (by decide)
  exact readStatement_of_reads (hverb.append_reads (account_reads name host))

/-- An `ALTER USER` with what follows the account. -/
theorem readStatement_alter (name host : Text) {rest : Text} {tokens : List Token} (hrest : Reads mysql rest tokens)
    (hopens : Opens rest) :
    readStatement ("ALTER USER ".toList ++ (account name host ++ rest)) = parseAlter ⟨name, host⟩ tokens := by
  have hverb : Cuts mysql "ALTER USER ".toList [keyword "ALTER", keyword "USER"] :=
    piece_cut (by decide) (by decide)
  exact readStatement_of_reads (hverb.append_reads ((account_reads name host).append hrest hopens))

theorem readStatement_password (name host password : Text) :
    readStatement ("ALTER USER ".toList ++ (account name host ++
      (" IDENTIFIED BY ".toList ++ '\'' :: (q password ++ ['\''])))) =
      some (.setPassword ⟨name, host⟩ password) := by
  have hwords : Cuts mysql " IDENTIFIED BY ".toList [keyword "IDENTIFIED", keyword "BY"] :=
    piece_cut (by decide) (by decide)
  exact readStatement_alter name host (hwords.append_reads (literal_reads password)) ⟨' ', _, rfl, by decide⟩

theorem readStatement_lock (name host : Text) (locked : Bool) :
    readStatement ("ALTER USER ".toList ++ (account name host ++
      (" ACCOUNT ".toList ++ if locked then "LOCK".toList else "UNLOCK".toList))) =
      some (.lock ⟨name, host⟩ locked) := by
  have hword : Cuts mysql " ACCOUNT ".toList [keyword "ACCOUNT"] := piece_cut (by decide) (by decide)
  have hopens (more : Text) : Opens (" ACCOUNT ".toList ++ more) := ⟨' ', _, rfl, by decide⟩
  cases locked with
  | true =>
    have hlock : Reads mysql "LOCK".toList [keyword "LOCK"] := reads_word mysql_usual (by decide)
    exact readStatement_alter name host (hword.append_reads hlock) (hopens _)
  | false =>
    have hunlock : Reads mysql "UNLOCK".toList [keyword "UNLOCK"] := reads_word mysql_usual (by decide)
    exact readStatement_alter name host (hword.append_reads hunlock) (hopens _)

/-! ## Targets -/

def targetTokens : Target → List Token
  | .server => [.punct '*', .punct '.', .punct '*']
  | .database db => [.ident db, .punct '.', .punct '*']
  | .table db table => [.ident db, .punct '.', .ident table]

/-- A quoted name with something behind its dot. -/
theorem dotted_reads (db : Text) {rest : Text} {tokens : List Token} (hrest : Reads mysql rest tokens)
    (hne : rest ≠ []) (hdigit : ∀ c, rest.head? = some c → c.isDigit = false) :
    Reads mysql (quoteIdentifier db "mysql".toList ++ '.' :: rest) (.ident db :: .punct '.' :: tokens) := by
  intro out more hmore
  have hquoted := @scan_quoted mysql ⟨'`', false, false⟩ '`' rfl _ db ('.' :: (rest ++ more))
    (@spells_doubled ⟨'`', false, false⟩ rfl db) (fun h ↦ absurd (Option.some.inj h) (by decide)) out
  have hdot := @scan_dot mysql mysql_usual (rest ++ more) (fun c hc ↦ hdigit c (by
    rwa [List.head?_append_of_ne_nil _ hne] at hc)) (.ident db :: out)
  calc SqlLex.scan mysql .between out (quoteIdentifier db "mysql".toList ++ '.' :: rest ++ more)
    _ = SqlLex.scan mysql .between (.ident db :: out) ('.' :: (rest ++ more)) := by
      rw [List.append_assoc, List.cons_append, ← show Quoting.token ⟨'`', false, false⟩ db = .ident db from rfl,
        ← hquoted]
      rw [show quoteIdentifier db "mysql".toList =
        '`' :: ((db.flatMap fun c ↦ if c = '`' then [c, c] else [c]) ++ ['`']) from rfl]
      simp
    _ = SqlLex.scan mysql .between (tokens.reverse ++ (.punct '.' :: .ident db :: out)) more := by
      rw [hdot, hrest _ _ hmore]
    _ = SqlLex.scan mysql .between ((.ident db :: .punct '.' :: tokens).reverse ++ out) more := by simp

theorem scope_reads {target : GrantTarget} {scope : Text} {t : Target} (hscope : grantScope target = some scope)
    (ht : chosen target = some t) : Reads mysql scope (targetTokens t) := by
  have htable (db table : Text) : Reads mysql
      (quoteIdentifier db "mysql".toList ++ '.' :: quoteIdentifier table "mysql".toList)
      (targetTokens (.table db table)) := by
    refine dotted_reads db (identifier_reads table) (List.cons_ne_nil _ _) fun c hc ↦ ?_
    obtain rfl : '`' = c := Option.some.inj hc
    decide
  have hstar : Cuts mysql ['*'] [.punct '*'] := piece_cut (by decide) (by decide)
  have hserver : Cuts mysql "*.*".toList (targetTokens .server) := piece_cut (by decide) (by decide)
  cases target with
  | server =>
    cases hscope
    cases ht
    exact hserver.reads
  | database db =>
    obtain ⟨-, hscope⟩ := Option.ite_none_right_eq_some.mp hscope
    cases hscope
    cases ht
    refine dotted_reads db hstar.reads (List.cons_ne_nil _ _) fun c hc ↦ ?_
    obtain rfl : '*' = c := Option.some.inj hc
    decide
  | table db table =>
    obtain ⟨-, hscope⟩ := Option.ite_none_right_eq_some.mp hscope
    cases hscope
    cases ht
    exact htable db table
  | column db table columns =>
    obtain ⟨-, hscope⟩ := Option.ite_none_right_eq_some.mp hscope
    cases hscope
    cases ht
    exact htable db table
  | custom text => cases ht

/-! ## Privileges -/

/-- The words of a privilege. -/
def words (p : Text) : List Text := p.splitOn ' '

theorem mysqlPrivileges_shape : ∀ p ∈ mysqlPrivileges, p ≠ [] ∧ jsTrim p = p ∧
    (jsUpper p = "ALL PRIVILEGES".toList ↔ p = "ALL PRIVILEGES".toList) ∧
    ∀ w ∈ words p, isWord w = true ∧ w ≠ "ON".toList := by decide

def columnTokens : List Text → List Token
  | [] => []
  | columns => .punct '(' :: ([Token.punct ','].intercalate (columns.map fun c ↦ [.ident c]) ++ [.punct ')'])

def privilegeTokens (columns : List Text) (p : Text) : List Token :=
  (words p).map Token.word ++ columnTokens columns

/-- A privilege as it stands in a statement. -/
def privilegeText (columns : List Text) (p : Text) : Text :=
  match columns with
  | [] => p
  | columns =>
    p ++ (" (".toList ++ (", ".toList.intercalate (columns.map fun c ↦ quoteIdentifier c "mysql".toList) ++ [')']))

/-- The privileges that stand in a statement. -/
def written (privileges columns : List Text) : List Text :=
  if columns = [] ∧ "ALL PRIVILEGES".toList ∈ privileges then ["ALL PRIVILEGES".toList] else privileges

theorem privilegeList_eq {privileges columns : List Text} (hne : privileges ≠ [])
    (hoffered : ∀ p ∈ privileges, p ∈ mysqlPrivileges) :
    privilegeList privileges columns =
      some (", ".toList.intercalate ((written privileges columns).map (privilegeText columns))) := by
  have hshape := fun p hp ↦ mysqlPrivileges_shape p (hoffered p hp)
  have htrim : privileges.map jsTrim = privileges :=
    (List.map_congr_left fun p hp ↦ (hshape p hp).2.1).trans (List.map_id' _)
  have hcleaned : (privileges.map jsTrim).filter (· ≠ []) = privileges := by
    rw [htrim, List.filter_eq_self]
    exact fun p hp ↦ decide_eq_true (hshape p hp).1
  have hall : (privileges.any fun p ↦ jsUpper p = "ALL PRIVILEGES".toList) = true ↔
      "ALL PRIVILEGES".toList ∈ privileges := by
    rw [List.any_eq_true]
    constructor
    · rintro ⟨p, hp, h⟩
      exact (hshape p hp).2.2.1.mp (of_decide_eq_true h) ▸ hp
    · exact fun hmem ↦ ⟨_, hmem, by decide⟩
  unfold privilegeList written
  dsimp only
  rw [hcleaned, if_neg hne]
  cases columns with
  | nil =>
    rw [if_neg (show ¬0 < ([] : List Text).length from lt_irrefl 0)]
    by_cases hmem : "ALL PRIVILEGES".toList ∈ privileges
    · rw [if_pos (hall.mpr hmem), if_pos ⟨rfl, hmem⟩]
      rfl
    · have hsame : privileges.map (privilegeText []) = privileges := List.map_id' _
      rw [if_neg (mt hall.mp hmem), if_neg (fun h ↦ hmem h.2), hsame]
  | cons c columns =>
    rw [if_pos (show 0 < (c :: columns).length from Nat.succ_pos _),
      if_neg (fun h ↦ List.cons_ne_nil c columns h.1)]
    rfl

theorem words_reads {p : Text} (hp : p ∈ mysqlPrivileges) : Reads mysql p ((words p).map Token.word) := by
  have hblank : Cuts mysql [' '] [] := piece_cut (by decide) (by decide)
  have hwords := (mysqlPrivileges_shape p hp).2.2.2
  obtain ⟨first, rest, hsplit⟩ := List.exists_cons_of_ne_nil (List.splitOn_ne_nil ' ' p)
  have hread := @reads_intercalate mysql Text [' '] [] hblank ⟨' ', [], rfl, by decide⟩ id (fun w ↦ [.word w])
    first rest fun w hw ↦ reads_word mysql_usual (hwords w (by rwa [words, hsplit])).1
  have htokens (first : Text) (rest : List Text) :
      ([] : List Token).intercalate ((first :: rest).map fun w ↦ [Token.word w]) = (first :: rest).map Token.word := by
    induction rest generalizing first with
    | nil => rfl
    | cons w rest ih =>
      have htail := ih w
      rw [List.map_cons] at htail
      rw [List.map_cons, List.map_cons, List.intercalate_cons_cons, htail]
      rfl
  rw [htokens, ← hsplit] at hread
  rwa [List.map_id, List.intercalate_splitOn] at hread

theorem columnsText_reads (c : Text) (columns : List Text) :
    Reads mysql (" (".toList ++ (", ".toList.intercalate ((c :: columns).map fun c ↦ quoteIdentifier c "mysql".toList) ++
      [')'])) (columnTokens (c :: columns)) := by
  have hopen : Cuts mysql " (".toList [.punct '('] := piece_cut (by decide) (by decide)
  have hcomma : Cuts mysql ", ".toList [.punct ','] := piece_cut (by decide) (by decide)
  have hclose : Cuts mysql [')'] [.punct ')'] := piece_cut (by decide) (by decide)
  have hnames := @reads_intercalate mysql Text ", ".toList [.punct ','] hcomma ⟨',', [' '], rfl, by decide⟩
    (fun c ↦ quoteIdentifier c "mysql".toList) (fun c ↦ [.ident c]) c columns fun i _ ↦ identifier_reads i
  exact hopen.append_reads (hnames.append hclose.reads ⟨')', [], rfl, by decide⟩)

theorem privilegeText_reads {p : Text} (hp : p ∈ mysqlPrivileges) (columns : List Text) :
    Reads mysql (privilegeText columns p) (privilegeTokens columns p) := by
  cases columns with
  | nil =>
    rw [privilegeTokens, columnTokens, List.append_nil]
    exact words_reads hp
  | cons c columns => exact (words_reads hp).append (columnsText_reads c columns) ⟨' ', _, rfl, by decide⟩

theorem takeWords_append {ws : List Text} (hws : ∀ w ∈ ws, w ≠ "ON".toList) {rest : List Token}
    (hrest : takeWords rest = ([], rest)) : takeWords (ws.map Token.word ++ rest) = (ws, rest) := by
  induction ws with
  | nil => exact hrest
  | cons w ws ih =>
    rw [List.map_cons, List.cons_append, takeWords, if_neg (hws w List.mem_cons_self),
      ih fun v hv ↦ hws v (List.mem_cons_of_mem w hv)]

theorem parsePrivilege_tokens {p : Text} (hp : p ∈ mysqlPrivileges) (columns : List Text) {rest : List Token}
    (hrest : takeWords rest = ([], rest)) (hopen : eat (.punct '(') rest = none) :
    parsePrivilege (privilegeTokens columns p ++ rest) = some (⟨p, columns⟩, rest) := by
  have hwords := fun w hw ↦ ((mysqlPrivileges_shape p hp).2.2.2 w hw).2
  have hname : [' '].intercalate (words p) = p := List.intercalate_splitOn ' '
  cases columns with
  | nil =>
    rw [privilegeTokens, columnTokens, List.append_nil, parsePrivilege, takeWords_append hwords hrest]
    simp only [hopen, hname]
  | cons c columns =>
    have hcolumns := @parseSeparated_tokens Text Text parseColumn (.punct ',') (fun c ↦ [.ident c]) id
      (.punct ')' :: rest) rfl (c :: columns) (List.cons_ne_nil _ _) (fun _ _ ↦ List.cons_ne_nil _ _)
      fun _ _ _ _ ↦ rfl
    have htokens : privilegeTokens (c :: columns) p ++ rest = (words p).map Token.word ++ (.punct '(' ::
        ([Token.punct ','].intercalate ((c :: columns).map fun c ↦ [.ident c]) ++ .punct ')' :: rest)) := by
      simp [privilegeTokens, columnTokens]
    rw [htokens, parsePrivilege, takeWords_append hwords rfl]
    simp only [eat_cons, hcolumns, hname, List.map_id, Option.bind_eq_bind, Option.bind_some]

theorem parsePrivileges_tokens {names : List Text} (hne : names ≠ []) (hnames : ∀ p ∈ names, p ∈ mysqlPrivileges)
    (columns : List Text) (rest : List Token) :
    let tokens := [Token.punct ','].intercalate (names.map (privilegeTokens columns)) ++ (keyword "ON" :: rest)
    parseSeparated parsePrivilege (.punct ',') tokens.length tokens =
      some (names.map fun p ↦ ⟨p, columns⟩, keyword "ON" :: rest) := by
  refine parseSeparated_tokens _ _ rfl hne (fun p hp ↦ ?_) fun p hp more hmore ↦ ?_
  · have hwords : (words p).map Token.word ≠ [] := fun h ↦
      List.splitOn_ne_nil ' ' p (List.map_eq_nil_iff.mp h)
    exact fun h ↦ hwords (List.append_eq_nil_iff.mp h).1
  · obtain rfl | ⟨later, rfl⟩ := hmore
    · exact parsePrivilege_tokens (hnames p hp) columns rfl rfl
    · exact parsePrivilege_tokens (hnames p hp) columns rfl rfl

theorem parseTarget_tokens (t : Target) (rest : List Token) :
    parseTarget (targetTokens t ++ rest) = some (t, rest) := by
  cases t <;> rfl

theorem parsePrivilegeStatement_tokens {names : List Text} (hne : names ≠ [])
    (hnames : ∀ p ∈ names, p ∈ mysqlPrivileges) (columns : List Text) (t : Target) (preposition : Token)
    (name host : Text) :
    parsePrivilegeStatement preposition ([Token.punct ','].intercalate (names.map (privilegeTokens columns)) ++
      (keyword "ON" :: (targetTokens t ++ (preposition :: accountTokens name host)))) =
      some (names.map fun p ↦ ⟨p, columns⟩, t, ⟨name, host⟩) := by
  unfold parsePrivilegeStatement
  rw [parsePrivileges_tokens hne hnames]
  simp only [Option.bind_eq_bind, Option.bind_some, eat_cons, parseTarget_tokens, accountTokens, parseAccount, if_true]

/-- A statement about privileges, from the tokens of its pieces. -/
theorem privilegeSql_reads {names : List Text} (hne : names ≠ []) (hnames : ∀ p ∈ names, p ∈ mysqlPrivileges)
    (columns : List Text) {scope : Text} {t : Target} (hscope : Reads mysql scope (targetTokens t))
    {verb preposition : Text} {first second : Token} (hverb : Cuts mysql verb [first])
    (hpreposition : Cuts mysql preposition [second]) (hopens : Opens preposition) (name host : Text) :
    Reads mysql (verb ++ (", ".toList.intercalate (names.map (privilegeText columns)) ++ (" ON ".toList ++
      (scope ++ (preposition ++ account name host)))))
      (first :: ([Token.punct ','].intercalate (names.map (privilegeTokens columns)) ++
        (keyword "ON" :: (targetTokens t ++ (second :: accountTokens name host))))) := by
  have hcomma : Cuts mysql ", ".toList [.punct ','] := piece_cut (by decide) (by decide)
  have hon : Cuts mysql " ON ".toList [keyword "ON"] := piece_cut (by decide) (by decide)
  obtain ⟨p, rest, rfl⟩ := List.exists_cons_of_ne_nil hne
  have hlist := @reads_intercalate mysql Text ", ".toList [.punct ','] hcomma ⟨',', [' '], rfl, by decide⟩
    (privilegeText columns) (privilegeTokens columns) p rest fun i hi ↦ privilegeText_reads (hnames i hi) columns
  have htail := hscope.append (hpreposition.append_reads (account_reads name host)) (hopens.append _)
  exact hverb.append_reads (hlist.append (hon.append_reads htail) ⟨' ', _, rfl, by decide⟩)

theorem readStatement_grant {names : List Text} (hne : names ≠ []) (hnames : ∀ p ∈ names, p ∈ mysqlPrivileges)
    (columns : List Text) {scope : Text} {t : Target} (hscope : Reads mysql scope (targetTokens t))
    (name host : Text) :
    readStatement ("GRANT ".toList ++ (", ".toList.intercalate (names.map (privilegeText columns)) ++
      (" ON ".toList ++ (scope ++ (" TO ".toList ++ account name host))))) =
      some (.grant (names.map fun p ↦ ⟨p, columns⟩) t ⟨name, host⟩) := by
  have hverb : Cuts mysql "GRANT ".toList [keyword "GRANT"] := piece_cut (by decide) (by decide)
  have hto : Cuts mysql " TO ".toList [keyword "TO"] := piece_cut (by decide) (by decide)
  rw [readStatement_of_reads (privilegeSql_reads hne hnames columns hscope hverb hto ⟨' ', _, rfl, by decide⟩ name host)]
  calc _ = (parsePrivilegeStatement (keyword "TO") _).map fun r ↦ UserStatement.grant r.1 r.2.1 r.2.2 := rfl
    _ = _ := by rw [parsePrivilegeStatement_tokens hne hnames, Option.map_some]

theorem readStatement_revoke {names : List Text} (hne : names ≠ []) (hnames : ∀ p ∈ names, p ∈ mysqlPrivileges)
    (columns : List Text) {scope : Text} {t : Target} (hscope : Reads mysql scope (targetTokens t))
    (name host : Text) :
    readStatement ("REVOKE ".toList ++ (", ".toList.intercalate (names.map (privilegeText columns)) ++
      (" ON ".toList ++ (scope ++ (" FROM ".toList ++ account name host))))) =
      some (.revoke (names.map fun p ↦ ⟨p, columns⟩) t ⟨name, host⟩) := by
  have hverb : Cuts mysql "REVOKE ".toList [keyword "REVOKE"] := piece_cut (by decide) (by decide)
  have hfrom : Cuts mysql " FROM ".toList [keyword "FROM"] := piece_cut (by decide) (by decide)
  rw [readStatement_of_reads
    (privilegeSql_reads hne hnames columns hscope hverb hfrom ⟨' ', _, rfl, by decide⟩ name host)]
  calc _ = (parsePrivilegeStatement (keyword "FROM") _).map fun r ↦ UserStatement.revoke r.1 r.2.1 r.2.2 := rfl
    _ = _ := by rw [parsePrivilegeStatement_tokens hne hnames, Option.map_some]

/-! ## The builders -/

theorem name_ne_nil {columns : List Text} {rows : List (List (Option Text))} {support : UserAdminSupport}
    {u : UserRow} (h : u ∈ parseUserRows columns rows support) : u.name ≠ [] := by
  unfold parseUserRows at h
  dsimp only at h
  split at h
  · cases h
  · exact of_decide_eq_true (List.mem_filter.mp h).2

theorem quoteIdentifier_eq (name : Text) : quoteIdentifier name "mysql".toList =
    '`' :: ((name.flatMap fun c ↦ if c = '`' then [c, c] else [c]) ++ ['`']) := rfl

theorem scope_trimmed {target : GrantTarget} {scope : Text} (h : grantScope target = some scope) :
    jsTrim scope = scope ∧ scope ≠ [] := by
  have hends (rest : Text) {last : Char} (hlast : isJsSpace last = false) :
      jsTrim ('`' :: (rest ++ [last])) = '`' :: (rest ++ [last]) := by
    refine jsTrim_of_ends (fun c hc ↦ Option.some.inj hc ▸ (by decide)) fun c hc ↦ ?_
    rw [← List.cons_append, List.getLast?_concat] at hc
    exact Option.some.inj hc ▸ hlast
  have htable (db table : Text) :
      jsTrim (quoteIdentifier db "mysql".toList ++ '.' :: quoteIdentifier table "mysql".toList) =
        quoteIdentifier db "mysql".toList ++ '.' :: quoteIdentifier table "mysql".toList := by
    have hquote := hends (((db.flatMap fun c ↦ if c = '`' then [c, c] else [c]) ++ ['`', '.', '`']) ++
      (table.flatMap fun c ↦ if c = '`' then [c, c] else [c])) (show isJsSpace '`' = false by decide)
    simpa only [quoteIdentifier_eq, List.cons_append, List.append_assoc, List.nil_append] using hquote
  cases target with
  | server =>
    cases h
    exact ⟨by decide, by decide⟩
  | database db =>
    obtain ⟨-, h⟩ := Option.ite_none_right_eq_some.mp h
    cases h
    have hstar := hends ((db.flatMap fun c ↦ if c = '`' then [c, c] else [c]) ++ ['`', '.'])
      (show isJsSpace '*' = false by decide)
    rw [List.append_assoc] at hstar
    rw [quoteIdentifier_eq, List.cons_append, List.append_assoc]
    exact ⟨hstar, List.cons_ne_nil _ _⟩
  | table db table =>
    obtain ⟨-, h⟩ := Option.ite_none_right_eq_some.mp h
    cases h
    exact ⟨htable db table, List.cons_ne_nil _ _⟩
  | column db table columns =>
    obtain ⟨-, h⟩ := Option.ite_none_right_eq_some.mp h
    cases h
    exact ⟨htable db table, List.cons_ne_nil _ _⟩
  | custom text =>
    obtain ⟨hne, h⟩ := Option.ite_none_left_eq_some.mp h
    cases h
    exact ⟨jsTrim_jsTrim text, hne⟩

theorem mem_offered {target : GrantTarget} {p : Text} (h : p ∈ privilegesFor target) : p ∈ mysqlPrivileges := by
  have hcolumn : ∀ p ∈ ["SELECT".toList, "INSERT".toList, "UPDATE".toList, "REFERENCES".toList],
      p ∈ mysqlPrivileges := by decide
  cases target with
  | server => exact h
  | database => exact h
  | table => exact (List.mem_filter.mp h).1
  | column => exact hcolumn p h
  | custom => exact h

section

variable {engine : Text} (hengine : engineFamily engine = "mysql".toList)

include hengine

theorem buildPrivilegeSql_eq {u : UserRow} (hname : jsTrim u.name ≠ []) {target : GrantTarget} {scope : Text}
    (hscope : grantScope target = some scope) {privileges : List Text} (hne : privileges ≠ [])
    (hoffered : ∀ p ∈ privileges, p ∈ mysqlPrivileges) (verb preposition : Text) :
    buildPrivilegeSql verb preposition engine (optionsOf u target scope privileges) =
      some (verb ++ (", ".toList.intercalate ((written privileges (chosenColumns target)).map
        (privilegeText (chosenColumns target))) ++ (" ON ".toList ++ (scope ++ (preposition ++
          account (jsTrim u.name) (jsTrim u.host)))))) := by
  obtain ⟨htrim, hne'⟩ := scope_trimmed hscope
  have hcolumns : (optionsOf u target scope privileges).columns.getD [] = chosenColumns target := by
    cases target <;> rfl
  have hopts : ¬(jsTrim (optionsOf u target scope privileges).scope = [] ∨
      jsTrim (optionsOf u target scope privileges).user = []) := not_or.mpr ⟨htrim.symm ▸ hne', hname⟩
  unfold buildPrivilegeSql
  rw [if_neg (not_not.mpr hengine), hcolumns]
  calc _ = (match some (", ".toList.intercalate ((written privileges (chosenColumns target)).map
        (privilegeText (chosenColumns target)))) with
      | none => none
      | some privs => if jsTrim (optionsOf u target scope privileges).scope = [] ∨
          jsTrim (optionsOf u target scope privileges).user = [] then none
        else some (verb ++ (privs ++ (" ON ".toList ++ (jsTrim scope ++ (preposition ++
          account (jsTrim u.name) (jsTrim u.host))))))) := by
        rw [← privilegeList_eq hne hoffered]
        rfl
    _ = _ := by
      dsimp only
      rw [if_neg hopts, htrim]

/-- Without a name that is more than blanks nothing is built. -/
theorem buildPrivilegeSql_blank {u : UserRow} (hname : jsTrim u.name = []) (target : GrantTarget) (scope : Text)
    (privileges : List Text) (verb preposition : Text) :
    buildPrivilegeSql verb preposition engine (optionsOf u target scope privileges) = none := by
  have hopts : jsTrim (optionsOf u target scope privileges).scope = [] ∨
      jsTrim (optionsOf u target scope privileges).user = [] := Or.inr hname
  unfold buildPrivilegeSql
  rw [if_neg (not_not.mpr hengine)]
  cases privilegeList (optionsOf u target scope privileges).privileges
    ((optionsOf u target scope privileges).columns.getD []) with
  | none => rfl
  | some privs => exact if_pos hopts

end

/-- What the statements do to a row: they show the grants of its account, grant to and revoke from the account
with the outer blanks trimmed, and drop, alter and lock that account with `%` for an empty host. -/
structure ActsAs (engine : Text) (c : Choice) (scope : Text) (target : Target) : Prop where
  show_ : (showGrantsSql engine c.user.name (some c.user.host)).map readStatement =
    some (some (.showGrants ⟨c.user.name, c.user.host⟩))
  drop : (buildDropUserSql engine c.user.name (some c.user.host)).map readStatement =
    if jsTrim c.user.name = [] then none
    else some (some (.dropUser ⟨jsTrim c.user.name, orAnyHost (jsTrim c.user.host)⟩))
  password : (buildSetPasswordSql engine c.user.name c.user.host c.password).map readStatement =
    if jsTrim c.user.name = [] ∨ c.password = [] then none
    else some (some (.setPassword ⟨jsTrim c.user.name, orAnyHost (jsTrim c.user.host)⟩ c.password))
  lock : (buildLockUserSql engine c.user.name c.user.host c.locked).map readStatement =
    if jsTrim c.user.name = [] then none
    else some (some (.lock ⟨jsTrim c.user.name, orAnyHost (jsTrim c.user.host)⟩ c.locked))
  grant : (buildGrantSql engine (optionsOf c.user c.target scope c.privileges)).map readStatement =
    if jsTrim c.user.name = [] then none
    else some (some (.grant ((written c.privileges (chosenColumns c.target)).map fun p ↦
      ⟨p, chosenColumns c.target⟩) target ⟨jsTrim c.user.name, jsTrim c.user.host⟩))
  revoke : (buildRevokeSql engine (optionsOf c.user c.target scope c.privileges)).map readStatement =
    if jsTrim c.user.name = [] then none
    else some (some (.revoke ((written c.privileges (chosenColumns c.target)).map fun p ↦
      ⟨p, chosenColumns c.target⟩) target ⟨jsTrim c.user.name, jsTrim c.user.host⟩))

theorem written_ne_nil {privileges : List Text} (hne : privileges ≠ []) (columns : List Text) :
    written privileges columns ≠ [] := by
  unfold written
  split
  · exact List.cons_ne_nil _ _
  · exact hne

theorem mem_of_mem_written {privileges columns : List Text} {p : Text} (h : p ∈ written privileges columns) :
    p ∈ privileges := by
  unfold written at h
  split at h
  case isTrue hall => exact List.mem_singleton.mp h ▸ hall.2
  case isFalse => exact h

/-- The statements of the panel are read as the choice, up to the trimmed blanks, the host that stands for an empty
one and the privileges that `ALL PRIVILEGES` replaces. -/
theorem userAdmin_acts {engine : Text} (hengine : engineFamily engine = "mysql".toList)
    {columns : List Text} {rows : List (List (Option Text))} {support : UserAdminSupport} {c : Choice}
    (hu : c.user ∈ parseUserRows columns rows support) {scope : Text} (hscope : grantScope c.target = some scope)
    {target : Target} (ht : chosen c.target = some target) (hne : c.privileges ≠ [])
    (hoffered : ∀ p ∈ c.privileges, p ∈ privilegesFor c.target) : ActsAs engine c scope target := by
  have hfamily : ¬engineFamily engine ≠ "mysql".toList := not_not.mpr hengine
  have hlisted := fun p hp ↦ mem_offered (hoffered p hp)
  have hwritten := fun p hp ↦ hlisted p (@mem_of_mem_written c.privileges (chosenColumns c.target) p hp)
  have hreads := scope_reads hscope ht
  refine ⟨?_, ?_, ?_, ?_, ?_, ?_⟩
  · unfold showGrantsSql
    rw [if_neg (not_or.mpr ⟨hfamily, name_ne_nil hu⟩), Option.map_some]
    exact congrArg some (readStatement_show _ _)
  · unfold buildDropUserSql
    rw [if_neg hfamily]
    by_cases hname : jsTrim c.user.name = []
    · rw [if_pos hname, if_pos hname, Option.map_none]
    · rw [if_neg hname, if_neg hname, Option.map_some]
      exact congrArg some (readStatement_drop _ _)
  · unfold buildSetPasswordSql
    by_cases hblank : jsTrim c.user.name = [] ∨ c.password = []
    · rw [if_pos (Or.inr hblank), if_pos hblank, Option.map_none]
    · rw [if_neg (not_or.mpr ⟨hfamily, hblank⟩), if_neg hblank, Option.map_some]
      exact congrArg some (readStatement_password _ _ _)
  · unfold buildLockUserSql
    by_cases hname : jsTrim c.user.name = []
    · rw [if_pos (Or.inr hname), if_pos hname, Option.map_none]
    · rw [if_neg (not_or.mpr ⟨hfamily, hname⟩), if_neg hname, Option.map_some]
      exact congrArg some (readStatement_lock _ _ _)
  · by_cases hname : jsTrim c.user.name = []
    · rw [if_pos hname, buildGrantSql, buildPrivilegeSql_blank hengine hname, Option.map_none]
    · rw [if_neg hname, buildGrantSql, buildPrivilegeSql_eq hengine hname hscope hne hlisted, Option.map_some]
      exact congrArg some (readStatement_grant (written_ne_nil hne _) hwritten _ hreads _ _)
  · by_cases hname : jsTrim c.user.name = []
    · rw [if_pos hname, buildRevokeSql, buildPrivilegeSql_blank hengine hname, Option.map_none]
    · rw [if_neg hname, buildRevokeSql, buildPrivilegeSql_eq hengine hname hscope hne hlisted, Option.map_some]
      exact congrArg some (readStatement_revoke (written_ne_nil hne _) hwritten _ hreads _ _)

/-- Two privileges on a table, for an account with a quote and a backslash in its name and blanks around it. -/
theorem userAdmin_acts_table : ActsAs "mariadb".toList
    ⟨⟨" a\'b\\".toList, [], true, false⟩, "p'".toList, true, .table "d`".toList "t t".toList,
      ["SELECT".toList, "GRANT OPTION".toList]⟩
    "`d```.`t t`".toList (.table "d`".toList "t t".toList) :=
  @userAdmin_acts "mariadb".toList (by decide) ["User".toList, "Host".toList, "Super_priv".toList]
    [[some " a\'b\\".toList, none, some " y".toList]]
    ⟨some "User".toList, some "Host".toList, some "Super_priv".toList, none⟩
    ⟨⟨" a\'b\\".toList, [], true, false⟩, "p'".toList, true, .table "d`".toList "t t".toList,
      ["SELECT".toList, "GRANT OPTION".toList]⟩
    (by decide) "`d```.`t t`".toList (by decide) (.table "d`".toList "t t".toList) rfl (List.cons_ne_nil _ _)
    (by decide)

/-- `GRANT OPTION` beside `ALL PRIVILEGES` is not granted, and the account with an empty host is not the one that
is dropped. -/
theorem allPrivileges_replace_grantOption :
    ⟨"u".toList, [], false, false⟩ ∈ parseUserRows ["User".toList] [[some "u".toList]]
      ⟨some "User".toList, none, none, none⟩ ∧
    ¬ActsExactly "mysql".toList ⟨⟨"u".toList, [], false, false⟩, "p".toList, true, .server,
      ["ALL PRIVILEGES".toList, "GRANT OPTION".toList]⟩ ∧
    (buildGrantSql "mysql".toList (optionsOf ⟨"u".toList, [], false, false⟩ .server "*.*".toList
      ["ALL PRIVILEGES".toList, "GRANT OPTION".toList])).bind readStatement =
      some (.grant [⟨"ALL PRIVILEGES".toList, []⟩] .server ⟨"u".toList, []⟩) ∧
    (buildDropUserSql "mysql".toList "u".toList (some [])).bind readStatement =
      some (.dropUser ⟨"u".toList, "%".toList⟩) := by
  have hgrant : (buildGrantSql "mysql".toList (optionsOf ⟨"u".toList, [], false, false⟩ .server "*.*".toList
      ["ALL PRIVILEGES".toList, "GRANT OPTION".toList])).bind readStatement =
      some (.grant [⟨"ALL PRIVILEGES".toList, []⟩] .server ⟨"u".toList, []⟩) := by decide
  refine ⟨by decide, fun h ↦ ?_, hgrant, by decide⟩
  obtain ⟨scope, sql, read, target, hscope, hsql, hread, -, hsame, -⟩ := h.grant
  cases hscope
  rw [hsql, Option.bind_some, hread] at hgrant
  cases hgrant
  have hcovers := (hsame "GRANT OPTION".toList (by decide)).mpr (Or.inl (by decide))
  rcases hcovers with h | h
  · exact absurd h (by decide)
  · exact h.2 rfl

end Squaero.Front.UserAdmin
