import NgramIndex.GuardState
import NgramIndex.IndexRegistry

/- The create and drop scripts of one table's native indexes, as far as the
   registry and the table's guard go. A script is generated from one state and
   executed in another, in a transaction that starts with its prepared check. -/
namespace NgramGuardScripts
open NgramGram NgramRowIdGuard NgramIndexRegistry Fallible

def guardPrefix : String := "__ngram_guard_"

structure Column where
  name : String
  varchar : Bool
  generated : Bool
  deriving DecidableEq, Repr

/-- What the scripts read and write. Index names are unique in a schema, so the
    names on its other tables count. -/
structure IndexedTable where
  columns : List Column
  indexes : List IndexEntry
  otherIndexes : List String
  registry : Registry
  db : AttachedDatabase
  nextRowId : Nat
  runtimeCompatible : Bool
  deriving DecidableEq, Repr

/-- What a script meets in the host: whether its handle is still registered,
    what refuses the creation barrier, an alteration or a bind, the random
    identities it is given, and whether building or dropping storage fails. -/
structure HostAnswers where
  handleKnown : Bool
  barrierRefusal : Option String
  alterRefusal : Option String
  bindRefusal : Option String
  storageFailure : Option String
  freshToken : String
  freshOid : Nat
  deriving DecidableEq, Repr

/-- The storage position of a physical column, found by its name in any case. -/
def storageIndex (columns : List Column) (name : String) : Option Nat :=
  (columns.filter (!·.generated)).findIdx? fun column => ciEquals column.name name

def resolveColumn (columns : List Column) (target : Target) (columnName : String) :
    Except String String :=
  if columns.any fun column => ciEquals column.name "rowid" then
    .error s!"cannot build an ngram index on {target.tableName}: its column shadows the rowid pseudo-column used as the row identifier"
  else
    match columns.find? fun column => ciEquals column.name columnName with
    | none => .error s!"Table {target.tableName} does not have a column named {columnName}"
    | some column =>
      if column.generated then
        .error s!"ngram indexes require a physical VARCHAR column; {target.tableName}.{columnName} is generated"
      else if !column.varchar then
        .error s!"ngram indexes require a VARCHAR column: {target.tableName}.{columnName}"
      else .ok column.name

def rowIdGuardReason (t : IndexedTable) (columnName guardName guardToken : String) (hwmRowid : Int) :
    Option String :=
  exactGuardReason t.runtimeCompatible t.indexes (storageIndex t.columns columnName) guardName guardToken hwmRowid
    t.db.checkpointIteration

def installedRowIdGuardToken (t : IndexedTable) (columnName guardName : String) : Except String String :=
  if !t.runtimeCompatible then .error requirePinnedRuntime
  else
    match readGuardState true t.indexes (storageIndex t.columns columnName) guardName none with
    | .error reason =>
        .error s!"ngram creation cannot finish because the fresh rowid guard is unavailable: {reason}"
    | .ok (_, state) =>
      if !state.protectionCompatible then
        .error "ngram creation cannot finish because the fresh rowid guard is incompatible with this extension build"
      else .ok state.token

def IndexedTable.cataloged (t : IndexedTable) (name : String) : Option CatalogIndex :=
  if name ∈ t.otherIndexes then some ⟨"", false⟩
  else (t.indexes.find? fun entry => entry.name == name).map fun entry => ⟨entry.indexType, true⟩

def rowIdGuardDropReason (t : IndexedTable) (bindRefusal : Option String)
    (guardName guardToken : String) : Option String :=
  guardDropReason t.runtimeCompatible (t.cataloged guardName) t.indexes bindRefusal guardName guardToken

def prefixedGuardNames (indexes : List IndexEntry) : List String :=
  ((indexes.filter fun entry => entry.indexType == ngramRowidGuardType &&
    guardPrefix.toList.isPrefixOf entry.name.toList).map (·.name)).mergeSort (· ≤ ·)

inductive Prepared where
  | create (location : IndexLocation) (bootstrap : Bool)
  | drop (owner : Target) (location : IndexLocation) (dropGuard : Bool)
  deriving DecidableEq, Repr

/-- The statements of the scripts. Those that build or drop an index's own
    storage touch neither the registry nor a guard. -/
inductive Statement where
  | dropIndexIfExists (name : String)
  | addColumn (name : String)
  | dropColumn (name : String)
  | createGuard (name : String) (columns : List String)
  | finishCreation (columnName guardName : String)
  | dropRegistry
  | createRegistry
  | insertRow (location : IndexLocation)
  | deleteRow (indexRef : String)
  | storage
  deriving DecidableEq, Repr

/-- The fence table starts with the token of a shared guard, or with none. -/
structure Script where
  prepared : Prepared
  fenceToken : Option String
  statements : List Statement
  deriving DecidableEq, Repr

/-- The name and token a new index records: a fresh guard's, whose token the
    script will fill in, or those of its siblings. -/
def resolveCreateGuard (t : IndexedTable) (target : Target) (siblings : List IndexLocation)
    (indexRef columnName : String) : Except String (String × String) :=
  match siblings with
  | [] => .ok (guardPrefix ++ hex indexRef, "")
  | first :: _ =>
    if siblings.any fun sibling =>
        sibling.guardName != first.guardName || sibling.guardToken != first.guardToken then
      .error s!"create_ngram_index: the ngram indexes on {target.tableName} record different rowid guards; drop them by id and rebuild them"
    else
      match rowIdGuardReason t columnName first.guardName first.guardToken (-1) with
      | some reason =>
          .error s!"create_ngram_index: the rowid guard shared by the ngram indexes on {target.tableName} cannot cover {columnName} ({reason}); drop the table's ngram indexes and rebuild them"
      | none => .ok (first.guardName, first.guardToken)

def epochName (indexRef : String) : String := "__ngram_epoch_" ++ hex indexRef

/-- Leftover guards go first: one would block the column drop. The added column
    replaces the table's storage and goes again. -/
def freshGuardStatements (t : IndexedTable) (location : IndexLocation) : List Statement :=
  (prefixedGuardNames t.indexes).map .dropIndexIfExists ++
    [.addColumn (epochName location.indexRef), .dropColumn (epochName location.indexRef),
      .createGuard location.guardName
        ((t.columns.filter fun column => !column.generated && column.varchar).map (·.name)),
      .finishCreation location.columnName location.guardName]

/-- An empty registry of an older layout is replaced; an absent one is created. -/
def registryStatements (registry : Registry) : List Statement :=
  (if registry.shape = .current then [] else [.dropRegistry]) ++
    if registry.currentOid = 0 then [.createRegistry] else []

def createScript (t : IndexedTable) (location : IndexLocation) (first : Bool) : Script where
  prepared := .create location (location.registryOid == 0)
  fenceToken := if first then none else some location.guardToken
  statements := (if first then freshGuardStatements t location else []) ++
    registryStatements t.registry ++ [.insertRow location, .storage]

def createIndexScript (t : IndexedTable) (target : Target) (catalogName columnInput indexRef : String) :
    Except String Script := do
  let columnName ← resolveColumn t.columns target columnInput
  let registry ← readRegistryForCreate t.registry catalogName
  let siblings ← existingIndexes registry target
  if siblings.any fun sibling => ciEquals sibling.columnName columnName then
    .error s!"An ngram index already exists on {target.tableName}.{columnName}; use drop_ngram_index first"
  else
    let (guardName, guardToken) ← resolveCreateGuard t target siblings indexRef columnName
    .ok (createScript t ⟨indexRef, columnName, registry.currentOid, guardName, guardToken⟩ siblings.isEmpty)

/-- A registry of an older layout goes with its last row. -/
def dropScript (t : IndexedTable) (owner : Target) (location : IndexLocation) (dropGuard : Bool) :
    Script where
  prepared := .drop owner location dropGuard
  fenceToken := none
  statements := (if dropGuard then [.dropIndexIfExists location.guardName] else []) ++
    [.deleteRow location.indexRef, .storage] ++
    if t.registry.shape ≠ .current ∧ t.registry.rows.length = 1 then [.dropRegistry] else []

/-- The legacy token is what an index of the first registry layout recorded in a
    table of its own; such an index has a guard of its own. -/
def dropIndexScript (t : IndexedTable) (indexRef legacyToken : String) : Except String Script :=
  match t.registry.rows.find? fun row => row.indexRef == indexRef with
  | none => .error s!"ngram: index {indexRef} does not exist"
  | some row =>
    let owner : Target := ⟨row.schemaName, row.tableName⟩
    let legacy := t.registry.shape == .identityOnly
    let guardName := if legacy then
      "__ngram_rowid_guard_" ++ String.ofList (row.indexRef.toList.map fun c => if c = '-' then '_' else c)
      else row.guardName
    let guardToken := if legacy then legacyToken else row.guardToken
    let dropGuard := guardName != "" &&
      (legacy || otherGuardReferences t.registry owner guardName row.indexRef == 0)
    .ok (dropScript t owner { locationOf row t.registry.oid with guardName, guardToken } dropGuard)

def changedWhilePrepared (target : Target) : String :=
  s!"create_ngram_index: the ngram indexes on {target.tableName} changed while the statement was being prepared; run it again"

def checkSibling (target : Target) (location sibling : IndexLocation) : Except String Unit :=
  siblingCheck (ciEquals sibling.columnName location.columnName)
    s!"An ngram index already exists on {target.tableName}.{location.columnName} ({sibling.indexRef}); use drop_ngram_index first"
    (changedWhilePrepared target) location.guardName location.guardToken sibling.guardName sibling.guardToken

/-- The barrier is held for the column and guard it was taken for. -/
def checkPreparedCreate (t : IndexedTable) (host : HostAnswers) (target : Target) (catalogName : String)
    (location : IndexLocation) (bootstrap : Bool) : Except String (Option (String × String)) := do
  if location.guardToken = "" ∧ host.barrierRefusal.isSome then
    .error ("create_ngram_index could not exclude a writer: " ++ host.barrierRefusal.getD "")
  else
    let _ ← resolveColumn t.columns target location.columnName
    validateRegistryForCreate t.registry catalogName location.registryOid bootstrap
    let siblings ← existingIndexes t.registry target
    siblings.forM (checkSibling target location)
    let objection := rowIdGuardReason t location.columnName location.guardName location.guardToken (-1)
    sharedGuardCheck location.guardToken siblings.isEmpty (changedWhilePrepared target) (objection.map fun reason =>
      s!"create_ngram_index: the rowid guard shared by the ngram indexes on {target.tableName} cannot cover {location.columnName} ({reason}); drop the table's ngram indexes and rebuild them")
    .ok (if location.guardToken = "" then some (location.columnName, location.guardName) else none)

def checkPreparedDrop (t : IndexedTable) (host : HostAnswers) (owner : Target) (location : IndexLocation)
    (dropGuard : Bool) : Except String Unit := do
  locateIndex t.registry owner location "drop_ngram_index"
  if !dropGuard then .ok ()
  else if otherGuardReferences t.registry owner location.guardName location.indexRef ≠ 0 then
    .error "drop_ngram_index: another ngram index now shares the rowid guard; run it again"
  else
    match rowIdGuardDropReason t host.bindRefusal location.guardName location.guardToken with
    | some reason => .error s!"ngram rowid guard validation failed: {reason}"
    | none => .ok ()

/-- A script's transaction: the table as it sees it, the token in its fence
    table, the creation barrier and whether the base storage was replaced. -/
structure ScriptState where
  table : IndexedTable
  fenceToken : Option String
  barrier : Option (String × String)
  replaced : Bool
  deriving DecidableEq, Repr

def insertedRow (target : Target) (location : IndexLocation) (token : String) : RegistryRow where
  indexRef := location.indexRef
  schemaName := target.schemaName
  tableName := target.tableName
  columnName := location.columnName
  guardName := location.guardName
  guardToken := token
  error := ""

def IndexedTable.withRows (t : IndexedTable) (rows : List RegistryRow) : IndexedTable :=
  { t with registry := { t.registry with rows } }

def runStatement (host : HostAnswers) (target : Target) (s : ScriptState) :
    Statement → Except String ScriptState
  | .dropIndexIfExists name =>
      .ok { s with table := { s.table with
        indexes := s.table.indexes.filter fun entry => entry.name != name
        otherIndexes := s.table.otherIndexes.filter (· != name) } }
  | .addColumn name =>
      if s.table.columns.any fun column => ciEquals column.name name then
        .error s!"Column with name {name} already exists!"
      else .ok { s with table := { s.table with columns := s.table.columns ++ [⟨name, false, false⟩] } }
  | .dropColumn name =>
      -- The host refuses every such alteration while a guard depends on the table.
      if s.table.indexes.any fun entry => entry.indexType == ngramRowidGuardType then
        .error s!"Cannot alter entry {target.tableName} because there are entries that depend on it."
      else if host.alterRefusal.isSome then .error (host.alterRefusal.getD "")
      else .ok { s with
        table := { s.table with columns := s.table.columns.filter fun column => !ciEquals column.name name }
        replaced := true }
  | .createGuard name columns =>
      if !s.table.runtimeCompatible then .error requirePinnedRuntime
      else if columns = [] then
        .error "ngram rowid guard requires one or more non-unique physical columns"
      else if s.table.indexes.any (·.name == name) || name ∈ s.table.otherIndexes then
        .error s!"Index with name {name} already exists!"
      else
        match columns.mapM (storageIndex s.table.columns) with
        | none => .error s!"Table {target.tableName} does not have a column of the guard"
        | some columnIds =>
          .ok { s with table := { s.table with indexes := s.table.indexes ++
            [⟨name, ngramRowidGuardType, columnIds,
              some (.bound (createRowIdGuard s.table.db s.table.nextRowId host.freshToken))⟩] } }
  | .finishCreation columnName guardName => do
      let token ← installedRowIdGuardToken s.table columnName guardName
      match s.barrier with
      | none => .error "ngram creation barrier is not held for this catalog"
      | some (heldColumn, heldGuard) =>
        if !ciEquals heldColumn columnName || heldGuard != guardName then
          .error "ngram creation barrier does not match the fresh rowid guard"
        else if !s.replaced then
          .error "ngram creation cannot finish because the base table was not replaced"
        else .ok { s with fenceToken := some token, barrier := none }
  | .dropRegistry =>
      if s.table.registry.oid = 0 then .error "Table with name registry does not exist!"
      else .ok { s with table := { s.table with registry := ⟨0, .current, []⟩ } }
  | .createRegistry =>
      if s.table.registry.oid ≠ 0 then .error "Table with name registry already exists!"
      else .ok { s with table := { s.table with registry := ⟨host.freshOid + 1, .current, []⟩ } }
  | .insertRow location =>
      match s.fenceToken with
      | none => .error "NOT NULL constraint failed: registry.guard_token"
      | some token =>
        let row := insertedRow target location token
        if s.table.registry.oid = 0 then .error "Table with name registry does not exist!"
        else if s.table.registry.rows.any fun other =>
            other.indexRef == row.indexRef || other.ownerKey == row.ownerKey then
          .error "Constraint Error: Duplicate key violates a unique constraint"
        else .ok { s with table := s.table.withRows (s.table.registry.rows ++ [row]) }
  | .deleteRow indexRef =>
      .ok { s with table := s.table.withRows (s.table.registry.rows.filter (·.indexRef != indexRef)) }
  | .storage =>
      match host.storageFailure with
      | some reason => .error reason
      | none => .ok s

def runCheck (t : IndexedTable) (host : HostAnswers) (target : Target) (catalogName : String) :
    Prepared → Except String (Option (String × String))
  | .create location bootstrap => checkPreparedCreate t host target catalogName location bootstrap
  | .drop owner location dropGuard => do
      checkPreparedDrop t host owner location dropGuard
      .ok none

/-- One script in its transaction. What it returns is committed; an error rolls
    the whole script back. -/
def runScript (t : IndexedTable) (host : HostAnswers) (target : Target) (catalogName : String)
    (script : Script) : Except String IndexedTable := do
  if !host.handleKnown then .error "ngram: maintenance handle is unknown"
  else
    let barrier ← runCheck t host target catalogName script.prepared
    let last ← script.statements.foldlM (runStatement host target) ⟨t, script.fenceToken, barrier, false⟩
    .ok last.table

end NgramGuardScripts
