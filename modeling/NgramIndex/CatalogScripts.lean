import NgramIndex.CatalogStatus
import NgramIndex.GuardScripts
import NgramIndex.Run

/- Creates and drops over a whole catalog: the registry's rows, and the storage that
   belongs to each. A script is generated from one state and executed in another, whole
   or not at all; the rest of the host works between them. -/
namespace NgramCatalogScripts
open LabelledRun Fallible NgramGram NgramMaintenance NgramOwnerKeys NgramCatalogListing Utf8
open NgramIndexRegistry (RegistryShape hex guardReferences siblingCheck sharedGuardCheck)
open NgramGuardScripts (guardPrefix)
open NgramRowIdGuard (IndexEntry CatalogIndex guardDropReason)
open NgramPragmaParameters (CreateParameter parseCreateOptions registryInsert)

/-- A catalog with the format-3 indexes whose storage has a schema of its own, and the
    number that the host gives the next table. -/
structure IndexedCatalog where
  catalog : Catalog
  legacy : List String
  nextOid : Nat

inductive Statement where
  | freshGuard
  | dropGuard (guardName : String)
  | dropRegistry
  | createRegistry
  | insertRow (indexId : BitVec 128) (options : GramOptions) (guardName : String)
  | createSegments (indexRef : String)
  | deleteRow (indexRef : String)
  | dropTableIfExists (name : String)
  | dropLegacy (indexRef : String)
  | dropSchema
  deriving DecidableEq

inductive Prepared where
  | create (location : IndexLocation) (bootstrap : Bool)
  | drop (location : IndexLocation) (dropGuard : Bool)
  deriving DecidableEq

structure Script where
  target : ResolvedTarget
  prepared : Prepared
  statements : List Statement

/-- What a script meets in the host: what refuses a guard's bind or the transaction, the
    base table as a fresh guard leaves it with the guard's token, and the highest committed
    rowid. -/
structure HostAnswers where
  refusal : Option Message
  bindRefusal : Option String
  guarded : BaseTable
  freshToken : String
  committedHwm : Option (Fin maxRowId)

section Create

def predatesCreate (catalogName : String) : Message :=
  bytes (s!"create_ngram_index: the ngram registry in {catalogName} predates format {ngramFormatVersion}; drop each " ++
    "listed index with drop_ngram_index(index_ref, catalog = ...) and rebuild it")

def registryMoved : Message := bytes "create_ngram_index: registry changed after the operation was prepared"

def readRegistryForCreate (host : Host) (catalog : Catalog) : Except Message RegistrySnapshot := do
  let registry ← readRegistry host catalog.registry {}
  if registry.shape ≠ .current ∧ registry.rows ≠ [] then .error (predatesCreate catalog.name) else .ok registry

/-- An empty registry of an older layout counts as none. -/
def currentOid (registry : RegistrySnapshot) : Nat := if registry.shape = .current then registry.oid else 0

def validateRegistryForCreate (host : Host) (catalog : Catalog) (expectedOid : Nat) (expectedBootstrap : Bool) :
    Except Message Unit := do
  let registry ← readRegistryForCreate host catalog
  if (currentOid registry == 0) ≠ expectedBootstrap ∨ currentOid registry ≠ expectedOid then .error registryMoved
  else .ok ()

def tableTarget (target : ResolvedTarget) : ResolvedTarget := { target with columnName := emptyName }

def alreadyExists (target : ResolvedTarget) (indexRef : String) : Message :=
  bytes "An ngram index already exists on " ++ target.tableName.bytes ++ bytes "." ++ target.columnName.bytes ++
    bytes s!" ({indexRef}); use drop_ngram_index first"

def changedWhilePrepared (target : ResolvedTarget) : Message :=
  bytes "create_ngram_index: the ngram indexes on " ++ target.tableName.bytes ++
    bytes " changed while the statement was being prepared; run it again"

def cannotCover (target : ResolvedTarget) (reason : Message) : Message :=
  bytes "create_ngram_index: the rowid guard shared by the ngram indexes on " ++ target.tableName.bytes ++
    bytes " cannot cover " ++ target.columnName.bytes ++ bytes " (" ++ reason ++
    bytes "); drop the table's ngram indexes and rebuild them"

def missingColumn (target : ResolvedTarget) : Message :=
  bytes "Table " ++ target.tableName.bytes ++ bytes " does not have a column named " ++ target.columnName.bytes

def requireColumn (host : Host) (catalog : Catalog) (target : ResolvedTarget) : Except Message BaseTable :=
  match catalog.base target.schemaName target.tableName with
  | none => .error (bytes "Table does not exist")
  | some table => if table.columnExists host target.columnName then .ok table else .error (missingColumn target)

def sharedInfo (target : ResolvedTarget) (guardName guardToken : String) : MetaInfo :=
  ⟨⟨.ngram, 3, 3, true⟩, -1, target.columnName, guardName, guardToken⟩

/-- The name and token a new index records: a fresh guard's, whose token the script will
    fill in, or those of the indexes that the table has. -/
def resolveCreateGuard (host : Runtime) (table : BaseTable) (target : ResolvedTarget) (siblings : List OwnedIndex)
    (indexRef : String) : Except Message (String × String) :=
  match siblings with
  | [] => .ok (guardPrefix ++ hex indexRef, "")
  | first :: _ =>
    let guardName := first.location.guardName
    let guardToken := first.location.guardToken
    if siblings.any fun sibling => sibling.location.guardName != guardName ||
        sibling.location.guardToken != guardToken then
      .error (bytes "create_ngram_index: the ngram indexes on " ++ target.tableName.bytes ++
        bytes " record different rowid guards; drop them by id and rebuild them")
    else
      let reason := rowIdGuardReason host table (sharedInfo target guardName guardToken)
      if reason ≠ [] then .error (cannotCover target reason) else .ok (guardName, guardToken)

def createScript (registry : RegistrySnapshot) (target : ResolvedTarget) (options : GramOptions)
    (indexId : BitVec 128) (location : IndexLocation) (first : Bool) : Script where
  target := target
  prepared := .create location (location.registryOid == 0)
  statements := (if first then [.freshGuard] else []) ++
    (if registry.shape ≠ .current then [.dropRegistry] else []) ++
    (if location.registryOid = 0 then [.createRegistry] else []) ++
    [.insertRow indexId options location.guardName, .createSegments location.indexRef]

def createIndexScript (host : Runtime) (catalog : Catalog) (target : ResolvedTarget)
    (parameters : List CreateParameter) (indexId : BitVec 128) : Except Message Script := do
  let options ← (parseCreateOptions parameters).mapError bytes
  let table ← requireColumn host.toHost catalog target
  let registry ← readRegistryForCreate host.toHost catalog
  let siblings ← owned host.toHost registry (tableTarget target) false
  match siblings.find? fun sibling => host.ciEquals sibling.location.columnName target.columnName with
  | some sibling => .error (alreadyExists target sibling.location.indexRef)
  | none =>
    let indexRef := host.uuidText indexId
    let (guardName, guardToken) ← resolveCreateGuard host table target siblings indexRef
    .ok (createScript registry target options indexId
      ⟨indexRef, target.columnName, currentOid registry, guardName, guardToken⟩ siblings.isEmpty)

def checkSibling (host : Host) (target : ResolvedTarget) (location : IndexLocation) (sibling : OwnedIndex) :
    Except Message Unit :=
  siblingCheck (host.ciEquals sibling.location.columnName location.columnName)
    (alreadyExists target sibling.location.indexRef) (changedWhilePrepared target) location.guardName
    location.guardToken sibling.location.guardName sibling.location.guardToken

def checkPreparedCreate (host : Runtime) (catalog : Catalog) (target : ResolvedTarget) (location : IndexLocation)
    (bootstrap : Bool) : Except Message Unit := do
  let table ← requireColumn host.toHost catalog target
  validateRegistryForCreate host.toHost catalog location.registryOid bootstrap
  let siblings ← ownedIndexes host.toHost catalog.registry (tableTarget target) false
  siblings.forM (checkSibling host.toHost target location)
  let reason := rowIdGuardReason host table (sharedInfo target location.guardName location.guardToken)
  sharedGuardCheck location.guardToken siblings.isEmpty (changedWhilePrepared target)
    (if reason ≠ [] then some (cannotCover target reason) else none)

end Create

section Drop

def otherGuardReferences (host : Host) (rows : List RegistryRow) (target : ResolvedTarget) (guardName exceptRef : String) :
    Nat :=
  guardReferences RegistryRow.indexRef (fun row => row.metaInfo.guardName)
    (fun row => host.ciEquals row.schemaName target.schemaName && host.ciEquals row.tableName target.tableName)
    rows guardName exceptRef

def legacyGuardName (indexRef : String) : String :=
  "__ngram_rowid_guard_" ++ String.ofList (indexRef.toList.map fun c => if c = '-' then '_' else c)

/-- What drops the storage of an index, by the layout that its row was read from. The
    last row of an older layout takes the registry with it. -/
def storageStatements (index : ObservedIndex) (rows : Nat) : List Statement :=
  match index.registryShape with
  | .identityOnly => .dropLegacy index.location.indexRef ::
      if rows = 1 then [.dropRegistry, .dropSchema] else []
  | shape => .dropTableIfExists (segmentsTable index.location.indexRef) ::
      (if index.formatVersion = 4 then [.dropTableIfExists (format4StatsTable index.location.indexRef)] else []) ++
      (if shape ≠ .current ∧ rows = 1 then [.dropRegistry] else [])

def dropScript (index : ObservedIndex) (rows : Nat) (guardName guardToken : String) (dropGuard : Bool) : Script where
  target := ⟨index.schemaName, index.tableName, index.location.columnName⟩
  prepared := .drop { index.location with guardName, guardToken } dropGuard
  statements := (if dropGuard then [.dropGuard guardName] else []) ++ .deleteRow index.location.indexRef ::
    storageStatements index rows

/-- The legacy token is what a format-3 index recorded in a table of its own. -/
def dropIndexScript (host : Host) (catalog : Catalog) (index : ObservedIndex) (legacyToken : String) :
    Except Message Script := do
  let registry ← readRegistry host catalog.registry {}
  let legacy := index.registryShape == .identityOnly
  let owner : ResolvedTarget := ⟨index.schemaName, index.tableName, index.location.columnName⟩
  let guardName := if legacy then legacyGuardName index.location.indexRef else index.location.guardName
  let guardToken := if legacy then legacyToken else index.location.guardToken
  let dropGuard := (catalog.base index.schemaName index.tableName).isSome && guardName != "" &&
    (legacy || otherGuardReferences host registry.rows owner guardName index.location.indexRef == 0)
  .ok (dropScript index registry.rows.length guardName guardToken dropGuard)

/-- The index is found as it is listed; a stray entry is not dropped by reference. -/
def dropByReference (host : Runtime) (catalog : Catalog) (indexRef legacyToken : String) : Except Message Script := do
  let index ← findObserved host catalog indexRef
  if index.location.registryOid = 0 then
    .error (bytes s!"drop_ngram_index: {indexRef}: " ++ index.reason ++
      bytes "; drop the storage tables of that id in the __ngram schema manually")
  else dropIndexScript host.toHost catalog index legacyToken

def catalogedIndex (host : Host) (catalog : Catalog) (schemaName tableName : Name) (name : String) :
    Option CatalogIndex :=
  (catalog.index schemaName name).map fun index => ⟨index.indexType, host.ciEquals index.tableName tableName⟩

def rowIdGuardDropReason (host : Runtime) (catalog : Catalog) (schemaName tableName : Name) (table : BaseTable)
    (bindRefusal : Option String) (guardName guardToken : String) : Option String :=
  guardDropReason host.compatible (catalogedIndex host.toHost catalog schemaName tableName guardName) table.indexes
    bindRefusal guardName guardToken

def baseGone (target : ResolvedTarget) : Message :=
  bytes "ngram: ngram index base table " ++ target.schemaName.bytes ++ bytes "." ++ target.tableName.bytes ++
    bytes " no longer exists; was the table or index dropped after binding?"

/-- The guard that a drop takes along is proven to be the recorded one. -/
def checkGuardDrop (host : Runtime) (catalog : Catalog) (target : ResolvedTarget) (bindRefusal : Option String)
    (guardName guardToken : String) : Except Message Unit :=
  match catalog.base target.schemaName target.tableName with
  | none => .error (baseGone target)
  | some table =>
    match rowIdGuardDropReason host catalog target.schemaName target.tableName table bindRefusal guardName
        guardToken with
    | some reason => .error (bytes s!"ngram rowid guard validation failed: {reason}")
    | none => .ok ()

def checkPreparedDrop (host : Runtime) (catalog : Catalog) (target : ResolvedTarget) (location : IndexLocation)
    (dropGuard : Bool) (bindRefusal : Option String) : Except Message Unit := do
  let located ← locateIndex host catalog target location
  match located.availability with
  | .changed => .error located.reason
  | .absent => .error (bytes "drop_ngram_index: index storage was removed after preparation")
  | .available =>
    if ¬ dropGuard then .ok ()
    else
      let registry ← readRegistry host.toHost catalog.registry {}
      if otherGuardReferences host.toHost registry.rows target location.guardName location.indexRef ≠ 0 then
        .error (bytes "drop_ngram_index: another ngram index now shares the rowid guard; run it again")
      else checkGuardDrop host catalog target bindRefusal location.guardName location.guardToken

end Drop

section Execute

def isRegistry (entry : SchemaEntry) : Bool := lowered entry.name = registryTable.toList

def alreadyNamed (name : String) : Message := bytes s!"Table with name {name} already exists!"

def duplicateKey : Message := bytes "Constraint Error: Duplicate key in the registry"

/-- The indexes of the target's table, in its schema's index catalog. -/
def setIndexes (host : Host) (catalog : Catalog) (target : ResolvedTarget) (indexes : List IndexEntry) :
    Name → String → Option SchemaIndex := fun schema name =>
  if host.ciEquals schema target.schemaName then
    match indexes.find? fun entry => entry.name == name with
    | some entry => some ⟨entry.indexType, target.tableName⟩
    | none => (catalog.index schema name).filter fun index => !host.ciEquals index.tableName target.tableName
  else catalog.index schema name

def dropIndex (host : Host) (catalog : Catalog) (target : ResolvedTarget) (dropped : String) :
    Name → String → Option SchemaIndex := fun schema name =>
  if host.ciEquals schema target.schemaName && name == dropped then none else catalog.index schema name

/-- The base table of the target, replaced; its names are compared in any case. -/
def setBase (host : Host) (catalog : Catalog) (target : ResolvedTarget) (change : BaseTable → BaseTable) : Catalog :=
  { catalog with base := fun schema table =>
      if host.ciEquals schema target.schemaName && host.ciEquals table target.tableName then
        (catalog.base schema table).map change
      else catalog.base schema table }

def recordedHwm (answers : HostAnswers) : Int :=
  match answers.committedHwm with
  | none => -1
  | some rowid => rowid

/-- The registry's row ids and its owner keys are unique, as its table declares. -/
def runStatement (host : Runtime) (answers : HostAnswers) (target : ResolvedTarget) (token : String)
    (s : IndexedCatalog) : Statement → Except Message IndexedCatalog
  | .freshGuard => .ok { s with catalog := { setBase host.toHost s.catalog target fun _ => answers.guarded with
      index := setIndexes host.toHost s.catalog target answers.guarded.indexes } }
  | .dropGuard guardName => .ok { s with catalog := { setBase host.toHost s.catalog target fun table =>
        { table with indexes := table.indexes.filter fun entry => entry.name != guardName } with
      index := dropIndex host.toHost s.catalog target guardName } }
  | .dropRegistry =>
      match s.catalog.registry with
      | .table _ _ _ => .ok { s with catalog := { s.catalog with
          registry := .absent
          entries := s.catalog.entries.filter (!isRegistry ·) } }
      | _ => .error (bytes "Table with name registry does not exist!")
  | .createRegistry =>
      if s.catalog.entries.any isRegistry then .error (alreadyNamed registryTable)
      else .ok { s with
        catalog := { s.catalog with
          registry := .table s.nextOid .current []
          entries := s.catalog.entries ++ [⟨registryTable, true⟩] }
        nextOid := s.nextOid + 1 }
  | .insertRow indexId options guardName =>
      match s.catalog.registry with
      | .table oid .current rows =>
        let row := registryInsert host.toHost target indexId options (recordedHwm answers) guardName token
        if rows.any fun other => other.indexId = row.indexId || other.ownerKey = row.ownerKey then .error duplicateKey
        else .ok { s with catalog := { s.catalog with registry := .table oid .current (rows ++ [row]) } }
      | _ => .error (bytes "the registry does not have the columns of the row")
  | .createSegments indexRef =>
      if s.catalog.entries.any fun entry => lowered entry.name = lowered (segmentsTable indexRef) then
        .error (alreadyNamed (segmentsTable indexRef))
      else .ok { s with catalog := { s.catalog with
        entries := s.catalog.entries ++ [⟨segmentsTable indexRef, true⟩] } }
  | .deleteRow indexRef => do
      let id ← host.uuidOf indexRef
      match s.catalog.registry with
      | .table oid shape rows => .ok { s with catalog := { s.catalog with
          registry := .table oid shape (rows.filter fun row => row.indexId ≠ some id) } }
      | _ => .error (bytes "Table with name registry does not exist!")
  | .dropTableIfExists name =>
      if s.catalog.entries.any fun entry => !entry.duckTable && lowered entry.name = lowered name then
        .error (bytes s!"Existing object {name} is not a table")
      else .ok { s with catalog := { s.catalog with
        entries := s.catalog.entries.filter fun entry => lowered entry.name ≠ lowered name } }
  | .dropLegacy indexRef =>
      if indexRef ∈ s.legacy then .ok { s with legacy := s.legacy.erase indexRef }
      else .error (bytes "Table with name meta does not exist!")
  | .dropSchema =>
      if s.catalog.entries ≠ [] then .error (bytes "Cannot drop the schema because there are entries that depend on it")
      else .ok s

/-- The token that the fence table of a script holds when the row is inserted. -/
def fenceToken (answers : HostAnswers) : Prepared → String
  | .create location _ => if location.guardToken = "" then answers.freshToken else location.guardToken
  | .drop _ _ => ""

def checkPrepared (host : Runtime) (answers : HostAnswers) (catalog : Catalog) (target : ResolvedTarget) :
    Prepared → Except Message Unit
  | .create location bootstrap => checkPreparedCreate host catalog target location bootstrap
  | .drop location dropGuard => checkPreparedDrop host catalog target location dropGuard answers.bindRefusal

def runScript (host : Runtime) (answers : HostAnswers) (s : IndexedCatalog) (script : Script) :
    Except Message IndexedCatalog := do
  checkPrepared host answers s.catalog script.target script.prepared
  match answers.refusal with
  | some reason => .error reason
  | none =>
    script.statements.foldlM (runStatement host answers script.target (fenceToken answers script.prepared)) s

structure ScriptState where
  store : IndexedCatalog
  pending : List Script

/-- What maintenance and the rest of the host leave of a registry row. -/
structure RowIdentity where
  indexRef : String
  formatVersion : Int
  schemaName : Name
  tableName : Name
  columnName : Name
  deriving DecidableEq

structure RegistryIdentity where
  absent : Bool
  oid : Nat
  shape : RegistryShape
  rows : List RowIdentity
  deriving DecidableEq

def rowIdentity (row : RegistryRow) : RowIdentity :=
  ⟨row.indexRef, row.formatVersion, row.schemaName, row.tableName, row.columnName⟩

def isAbsent : RegistryEntry → Bool
  | .absent => true
  | _ => false

def registryIdentity (host : Host) (catalog : Catalog) : Option RegistryIdentity :=
  (readRegistry host catalog.registry {}).toOption.map fun registry =>
    ⟨isAbsent catalog.registry, registry.oid, registry.shape, registry.rows.map rowIdentity⟩

def ownEntries (host : Host) (catalog : Catalog) : List SchemaEntry :=
  catalog.entries.filter (!isForeign host ·)

/-- Refresh and compaction rewrite marks and segments, and the host changes base tables,
    guards and other entries of the schema; none of them adds or removes an index. -/
def HostWork (host : Host) (before after : Catalog) : Prop :=
  after.name = before.name ∧ registryIdentity host after = registryIdentity host before ∧
    ownEntries host after = ownEntries host before ∧ (after.entries.map fun entry => lowered entry.name).Nodup

instance hostWorkDecidable (host : Host) (before after : Catalog) : Decidable (HostWork host before after) :=
  inferInstanceAs (Decidable (_ = _ ∧ _ = _ ∧ _ = _ ∧ List.Nodup _))

inductive ScriptEvent where
  | create (target : ResolvedTarget) (parameters : List CreateParameter) (indexId : BitVec 128)
  | drop (indexRef legacyToken : String)
  | execute (position : Nat) (answers : HostAnswers)
  | hostWork (catalog : Catalog)

def afterScript (host : Runtime) (answers : HostAnswers) (s : IndexedCatalog) (script : Script) : IndexedCatalog :=
  match runScript host answers s script with
  | .ok committed => committed
  | .error _ => s

/-- A generated id is a canonical one. A create or drop is generated now and executed,
    once, at any later time. -/
def scriptStep (host : Runtime) (s : ScriptState) : ScriptEvent → Option ScriptState
  | .create target parameters indexId =>
      if isCanonicalUUID host.toHost (host.uuidText indexId) then
        match createIndexScript host s.store.catalog target parameters indexId with
        | .ok script => some { s with pending := s.pending ++ [script] }
        | .error _ => none
      else none
  | .drop indexRef legacyToken =>
      match dropByReference host s.store.catalog indexRef legacyToken with
      | .ok script => some { s with pending := s.pending ++ [script] }
      | .error _ => none
  | .execute position answers =>
      s.pending[position]?.map fun script =>
        { store := afterScript host answers s.store script, pending := s.pending.eraseIdx position }
  | .hostWork catalog =>
      if HostWork host.toHost s.store.catalog catalog then
        some { s with store := { s.store with catalog := catalog } }
      else none

end Execute

end NgramCatalogScripts
