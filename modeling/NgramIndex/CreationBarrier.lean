import Mathlib.Data.Fintype.Basic
import Mathlib.Logic.Function.Basic
import NgramIndex.Gram
import NgramIndex.Run
import NgramIndex.StorageLock

/- The fences that maintenance scripts hold, and the barrier behind which the first index
   of a table gets its guard. Connections run transactions over several databases; the
   host's part (its two locks, its snapshots, the replaced storage of an altered table) is
   as docs/stale-updates.md has it. -/
namespace NgramCreationBarrier
open LabelledRun StorageLock NgramGram
variable {Conn Manager : Type} [DecidableEq Conn] [DecidableEq Manager]

/-- The names of a table as the host looks it up, which is in any case. -/
structure TableName where
  schema : List Char
  table : List Char
  deriving DecidableEq, Repr

def tableName (schema table : String) : TableName :=
  ⟨schema.toList.map Char.toLower, table.toList.map Char.toLower⟩

/-- The storage of a table. An ALTER replaces it by a new generation. -/
structure DataTable where
  name : TableName
  generation : Nat
  deriving DecidableEq, Repr

structure HeldCreation where
  table : DataTable
  schemaName : String
  tableName : String
  columnName : String
  guardName : String
  transactionId : Nat
  deriving DecidableEq, Repr

/-- A fence has a shared vacuum key; one with a creation has the exclusive checkpoint key too. -/
structure HeldFence (Manager : Type) where
  manager : Manager
  creation : Option HeldCreation
  deriving DecidableEq, Repr

section MaintenanceState

/-- The second fence of one database takes no further key. -/
def acquire (manager : Manager) (fences : List (HeldFence Manager)) : List (HeldFence Manager) :=
  if fences.any fun held => held.manager = manager then fences else fences ++ [⟨manager, none⟩]

def holdCreationBarrier (manager : Manager) (creation : HeldCreation) :
    List (HeldFence Manager) → Except String (List (HeldFence Manager))
  | [] => .error "ngram creation barrier has no maintenance fence"
  | held :: rest =>
      if held.manager ≠ manager then (holdCreationBarrier manager creation rest).map (held :: ·)
      else if held.creation.isSome then .error "ngram creation barrier is already held for this catalog"
      else .ok ({ held with creation := some creation } :: rest)

/-- The creation that the finish call names; the names are the call's arguments. -/
structure CreationNames where
  schemaName : String
  tableName : String
  columnName : String
  guardName : String
  deriving DecidableEq, Repr

def HeldCreation.names (held : HeldCreation) (call : CreationNames) : Bool :=
  ciEquals held.schemaName call.schemaName && ciEquals held.tableName call.tableName &&
    ciEquals held.columnName call.columnName && held.guardName = call.guardName

def finishCreation (isMainTable : DataTable → Bool) (manager : Manager) (transactionId : Nat)
    (currentTable : DataTable) (call : CreationNames) :
    List (HeldFence Manager) → Except String (List (HeldFence Manager))
  | [] => .error "ngram creation barrier is not held for this catalog"
  | held :: rest =>
    match held.creation with
    | none => (finishCreation isMainTable manager transactionId currentTable call rest).map (held :: ·)
    | some creation =>
      if held.manager ≠ manager then
        (finishCreation isMainTable manager transactionId currentTable call rest).map (held :: ·)
      else if creation.transactionId ≠ transactionId then
        .error "ngram creation barrier belongs to a different transaction"
      else if !creation.names call then
        .error "ngram creation barrier does not match the fresh rowid guard"
      else if isMainTable creation.table || !isMainTable currentTable || creation.table == currentTable then
        .error "ngram creation cannot finish because the base table was not replaced"
      else .ok ({ held with creation := none } :: rest)

def ownsCreationBarrier (manager : Manager) (fences : List (HeldFence Manager)) : Bool :=
  fences.any fun held => held.manager = manager && held.creation.isSome

end MaintenanceState

/-- The storage of a table and its rowid guards, as a plan finds them. -/
structure TableView where
  generation : Nat
  guards : List String
  deriving DecidableEq, Repr

/-- A planned write goes to the storage of its plan and reports to the guards of its plan. -/
structure StagedWrite where
  table : DataTable
  guards : List String
  deriving DecidableEq, Repr

structure CommittedWrite where
  table : DataTable
  guards : List String
  transactionId : Nat
  commitId : Nat
  deriving DecidableEq, Repr

structure Creation where
  table : TableName
  guardName : String
  transactionId : Nat
  startTime : Nat
  deriving DecidableEq, Repr

structure UndoProperties where
  hasUpdates : Bool
  hasDeletes : Bool
  hasCatalogChanges : Bool
  deriving DecidableEq, Repr

/-- What a transaction sees and has changed in one database. The finished creation is the
    one whose token its registry row has. -/
structure Changes where
  transactionId : Nat
  startTime : Nat
  undo : UndoProperties
  views : TableName → TableView
  altered : List TableName
  addedGuards : List (TableName × String)
  droppedGuards : List (TableName × String)
  staged : List StagedWrite
  finished : Option (TableName × String)

/-- The part of a transaction in one database, with its shared keys. -/
structure DuckTransaction extends Changes where
  writeLock : Bool
  vacuumLock : Bool

/-- The main storage of a table is the last one that any transaction made; new transactions
    see the committed one. -/
structure Store where
  timestamp : Nat
  transactions : Nat
  lastCommit : Nat
  generations : Nat
  main : TableName → Nat
  views : TableName → TableView
  issued : List String
  log : List CommittedWrite
  creations : List Creation
  vacuums : Nat

/-- A transaction's own key of the vacuum lock, the further one of its fence, and a vacuum's. -/
inductive VacuumKey (Conn : Type) where
  | transaction (c : Conn)
  | fence (c : Conn)
  | vacuum
  deriving DecidableEq

structure Database (Conn : Type) extends Store where
  checkpointLock : Lock Conn
  vacuumLock : Lock (VacuumKey Conn)

section Host

def Store.isMainTable (store : Store) (table : DataTable) : Bool :=
  store.main table.name = table.generation

def Changes.storage (b : Changes) (table : TableName) : DataTable := ⟨table, (b.views table).generation⟩

def Store.startTransaction (store : Store) : Changes where
  transactionId := store.transactions
  startTime := store.timestamp
  undo := ⟨false, false, false⟩
  views := store.views
  altered := []
  addedGuards := []
  droppedGuards := []
  staged := []
  finished := none

def Store.started (store : Store) : Store :=
  { store with timestamp := store.timestamp + 1, transactions := store.transactions + 1 }

/-- Every modification but an insert holds the checkpoint lock, an insert the vacuum lock. -/
def setModifications (db : Database Conn) (c : Conn) (b : DuckTransaction) (insertData : Bool) :
    Option (Database Conn × DuckTransaction) :=
  if insertData then
    if b.vacuumLock then some (db, b)
    else (db.vacuumLock.getShared (.transaction c)).map fun lock =>
      ({ db with vacuumLock := lock }, { b with vacuumLock := true })
  else if b.writeLock then some (db, b)
  else (db.checkpointLock.getShared c).map fun lock =>
    ({ db with checkpointLock := lock }, { b with writeLock := true })

inductive WriteKind where
  | insert
  | update
  | delete
  deriving DecidableEq, Repr

def UndoProperties.wrote (undo : UndoProperties) : WriteKind → UndoProperties
  | .insert => undo
  | .update => { undo with hasUpdates := true }
  | .delete => { undo with hasDeletes := true }

def UndoProperties.catalog (undo : UndoProperties) : UndoProperties := { undo with hasCatalogChanges := true }

/-- What a statement of a transaction does in one database. A statement that fails may
    have taken its key. -/
inductive Work where
  | attempt (insertData : Bool)
  | write (kind : WriteKind) (table : TableName)
  | replaceStorage (table : TableName)
  | createGuard (table : TableName) (guardName : String)
  | dropGuard (table : TableName) (guardName : String)
  deriving DecidableEq, Repr

/-- An ALTER moves the rows that its own transaction has staged to the new storage. -/
def StagedWrite.moved (table : DataTable) (w : StagedWrite) : StagedWrite :=
  if w.table.name = table.name then { w with table := table } else w

def Changes.wrote (b : Changes) (kind : WriteKind) (table : TableName) : Changes :=
  { b with
    staged := b.staged ++ [⟨b.storage table, (b.views table).guards⟩]
    undo := b.undo.wrote kind }

def Changes.replaced (b : Changes) (table : DataTable) : Changes :=
  { b with
    views := Function.update b.views table.name { b.views table.name with generation := table.generation }
    altered := table.name :: b.altered
    staged := b.staged.map (StagedWrite.moved table)
    undo := b.undo.catalog }

def Changes.guarded (b : Changes) (table : TableName) (guardName : String) : Changes :=
  { b with
    views := Function.update b.views table { b.views table with guards := guardName :: (b.views table).guards }
    addedGuards := (table, guardName) :: b.addedGuards
    undo := b.undo.catalog }

def Changes.unguarded (b : Changes) (table : TableName) (guardName : String) : Changes :=
  { b with
    views := Function.update b.views table
      { b.views table with guards := (b.views table).guards.filter (· ≠ guardName) }
    droppedGuards := (table, guardName) :: b.droppedGuards
    undo := b.undo.catalog }

def Changes.finish (b : Changes) (table : TableName) (guardName : String) : Changes :=
  { b with finished := some (table, guardName) }

def Store.replaced (store : Store) (table : TableName) : Store :=
  { store with
    generations := store.generations + 1
    main := Function.update store.main table store.generations }

def Store.issue (store : Store) (guardName : String) : Store :=
  { store with issued := guardName :: store.issued }

/-- A plan on a storage that was replaced since ends in a conflict. The names of guards
    are random identifiers, so none is given twice. -/
def Work.run (db : Database Conn) (c : Conn) (b : DuckTransaction) :
    Work → Option (Database Conn × DuckTransaction)
  | .attempt insertData => setModifications db c b insertData
  | .write kind table =>
      (setModifications db c b (kind = .insert)).bind fun (db, b) =>
        if db.isMainTable (b.storage table) then some (db, { b with toChanges := b.wrote kind table }) else none
  | .replaceStorage table =>
      (setModifications db c b false).bind fun (db, b) =>
        if db.isMainTable (b.storage table) then
          some ({ db with toStore := db.replaced table }, { b with toChanges := b.replaced ⟨table, db.generations⟩ })
        else none
  | .createGuard table guardName =>
      (setModifications db c b false).bind fun (db, b) =>
        if db.isMainTable (b.storage table) ∧ guardName ∉ db.issued then
          some ({ db with toStore := db.issue guardName }, { b with toChanges := b.guarded table guardName })
        else none
  | .dropGuard table guardName =>
      (setModifications db c b false).bind fun (db, b) =>
        if guardName ∈ (b.views table).guards then
          some (db, { b with toChanges := b.unguarded table guardName })
        else none

def Database.dropKeys (db : Database Conn) (c : Conn) : Database Conn :=
  { db with
    checkpointLock := db.checkpointLock.releaseShared c
    vacuumLock := db.vacuumLock.releaseShared (.transaction c) }

def Changes.made (b : Changes) : Bool :=
  b.staged ≠ [] || b.altered ≠ [] || b.addedGuards ≠ [] || b.droppedGuards ≠ []

def Store.published (store : Store) (b : Changes) (table : TableName) : TableView where
  generation := if table ∈ b.altered then (b.views table).generation else (store.views table).generation
  guards := ((store.views table).guards ++ (b.addedGuards.filter (·.1 = table)).map Prod.snd).filter
    fun guardName => (table, guardName) ∉ b.droppedGuards

def Changes.write (b : Changes) (commitId : Nat) (w : StagedWrite) : CommittedWrite :=
  ⟨w.table, w.guards, b.transactionId, commitId⟩

def Changes.creation (b : Changes) : Option Creation :=
  b.finished.map fun (table, guardName) => ⟨table, guardName, b.transactionId, b.startTime⟩

def Store.committed (store : Store) (b : Changes) : Store :=
  { store with
    timestamp := store.timestamp + 1
    lastCommit := store.timestamp
    views := store.published b
    log := store.log ++ b.staged.map (b.write store.timestamp)
    creations := store.creations ++ b.creation.toList }

/-- The storage that an ALTER replaced is the main one again. -/
def Store.rolledBack (store : Store) (b : Changes) : Store :=
  { store with
    main := fun table => if table ∈ b.altered then (store.views table).generation else store.main table }

/-- Changes reach the storage under the checkpoint lock, and only a main one. -/
def commit (db : Database Conn) (c : Conn) (b : DuckTransaction) : Option (Database Conn) :=
  if b.made then
    if (b.writeLock ∨ db.checkpointLock.exclusive = none) ∧ ∀ w ∈ b.staged, db.isMainTable w.table then
      some { db.dropKeys c with toStore := db.committed b.toChanges }
    else none
  else some (db.dropKeys c)

def rollback (db : Database Conn) (c : Conn) (b : DuckTransaction) : Database Conn :=
  { db.dropKeys c with toStore := db.rolledBack b.toChanges }

end Host

/-- A connection, with its running transaction's part in each database. -/
structure Session (Manager : Type) where
  active : Bool
  ending : Bool
  branches : Manager → Option DuckTransaction
  fences : List (HeldFence Manager)

structure System (Conn Manager : Type) where
  databases : Manager → Database Conn
  sessions : Conn → Session Manager

namespace System

def setDatabase (s : System Conn Manager) (m : Manager) (db : Database Conn) : System Conn Manager :=
  { s with databases := Function.update s.databases m db }

def setSession (s : System Conn Manager) (c : Conn) (session : Session Manager) : System Conn Manager :=
  { s with sessions := Function.update s.sessions c session }

def put (s : System Conn Manager) (c : Conn) (m : Manager) (db : Database Conn) (b : DuckTransaction) :
    System Conn Manager :=
  (s.setDatabase m db).setSession c
    { s.sessions c with branches := Function.update (s.sessions c).branches m (some b) }

def setFences (s : System Conn Manager) (c : Conn) (fences : List (HeldFence Manager)) : System Conn Manager :=
  s.setSession c { s.sessions c with fences := fences }

/-- The transaction is over in one database, and takes no further statement in any. -/
def leave (s : System Conn Manager) (c : Conn) (m : Manager) : System Conn Manager :=
  s.setSession c
    { s.sessions c with ending := true, branches := Function.update (s.sessions c).branches m none }

/-- The part of a transaction that still takes statements. -/
def openBranch (s : System Conn Manager) (c : Conn) (m : Manager) : Option DuckTransaction :=
  if (s.sessions c).ending then none else (s.sessions c).branches m

end System

/-- The check of a create takes the barrier; the other checks only the fence. Whether the
    checks behind the barrier refuse depends on the registry. -/
inductive GuardCall where
  | check
  | create (names : CreationNames) (refusal : Option String)
  deriving DecidableEq, Repr

section Guard

def acquireMaintenanceFence (s : System Conn Manager) (c : Conn) (m : Manager) (b : DuckTransaction) :
    Option (System Conn Manager × DuckTransaction) :=
  (setModifications (s.databases m) c b true).bind fun (db, b) =>
    let fences := (s.sessions c).fences
    if fences.any fun held => held.manager = m then some (s.put c m db b, b)
    else (db.vacuumLock.getShared (.fence c)).map fun lock =>
      ((s.put c m { db with vacuumLock := lock } b).setFences c (acquire m fences), b)

/-- The timestamps are compared once the upgrade has succeeded: a writer that was active
    may have committed after this snapshot. A refusal drops the key. -/
def acquireCreationBarrier (db : Database Conn) (c : Conn) (b : DuckTransaction) :
    Option (Except String (Lock Conn) × Database Conn × DuckTransaction) :=
  if b.undo.hasUpdates || b.undo.hasDeletes || b.undo.hasCatalogChanges then
    some (.error ("create_ngram_index cannot follow updates, deletes, or catalog changes in the same transaction; " ++
      "commit or roll back those changes and retry"), db, b)
  else
    (setModifications db c b false).map fun (db, b) =>
      match db.checkpointLock.tryUpgrade c with
      | none => (.error ("create_ngram_index could not exclude an active writer; " ++
          "roll back this transaction and retry"), db, b)
      | some lock =>
          if db.lastCommit > b.startTime then
            (.error ("create_ngram_index started before a recently committed writer; " ++
              "roll back this transaction and retry"), db, b)
          else (.ok lock, db, b)

def heldCreation (b : Changes) (names : CreationNames) : HeldCreation where
  table := b.storage (tableName names.schemaName names.tableName)
  schemaName := names.schemaName
  tableName := names.tableName
  columnName := names.columnName
  guardName := names.guardName
  transactionId := b.transactionId

/-- What the registry, the siblings or the guard object to is the refusal. The barrier's key
    is dropped again where there is one, or where the fence refuses. -/
def checkPreparedCreate (s : System Conn Manager) (c : Conn) (m : Manager) (b : DuckTransaction)
    (names : CreationNames) (refusal : Option String) : Option (Except String Unit × System Conn Manager) :=
  (acquireCreationBarrier (s.databases m) c b).map fun (answer, db, b) =>
    let s := s.put c m db b
    match answer, refusal with
    | .error reason, _ | .ok _, some reason => (.error reason, s)
    | .ok lock, none =>
        match holdCreationBarrier m (heldCreation b.toChanges names) (s.sessions c).fences with
        | .error reason => (.error reason, s)
        | .ok fences => (.ok (), (s.setDatabase m { db with checkpointLock := lock }).setFences c fences)

def maintenanceGuard (s : System Conn Manager) (c : Conn) (m : Manager) (b : DuckTransaction) :
    GuardCall → Option (Except String Unit × System Conn Manager)
  | .check => (acquireMaintenanceFence s c m b).map fun (s, _) => (.ok (), s)
  | .create names refusal =>
      (acquireMaintenanceFence s c m b).bind fun (s, b) => checkPreparedCreate s c m b names refusal

/-- The guard is looked for in the transaction's own view of the table. -/
def creationFinish (s : System Conn Manager) (c : Conn) (m : Manager) (b : DuckTransaction)
    (call : CreationNames) : Except String Unit × System Conn Manager :=
  let db := s.databases m
  let table := tableName call.schemaName call.tableName
  if call.guardName ∉ (b.views table).guards then
    (.error "ngram creation cannot finish because the fresh rowid guard is unavailable", s)
  else
    match finishCreation db.isMainTable m b.transactionId (b.storage table) call (s.sessions c).fences with
    | .error reason => (.error reason, s)
    | .ok fences =>
        (.ok (), (s.put c m { db with checkpointLock := db.checkpointLock.releaseExclusive }
          { b with toChanges := b.finish table call.guardName }).setFences c fences)

/-- The fences of a connection go when the host reports the end of its transaction. -/
def releaseFence (db : Database Conn) (c : Conn) (fence : Option (Option HeldCreation)) : Database Conn :=
  { db with
    checkpointLock :=
      if (fence.getD none).isSome then db.checkpointLock.releaseExclusive else db.checkpointLock
    vacuumLock := if fence.isSome then db.vacuumLock.releaseShared (.fence c) else db.vacuumLock }

def fenceOf (fences : List (HeldFence Manager)) (m : Manager) : Option (Option HeldCreation) :=
  (fences.find? fun held => held.manager = m).map HeldFence.creation

def transactionEnd (s : System Conn Manager) (c : Conn) : System Conn Manager :=
  { databases := fun m => releaseFence (s.databases m) c (fenceOf (s.sessions c).fences m)
    sessions := Function.update s.sessions c ⟨false, false, fun _ => none, []⟩ }

end Guard

/-- The end of a transaction commits or rolls back its part in one database after another;
    the host's callback comes last. -/
inductive Event (Conn Manager : Type) where
  | began (c : Conn)
  | attached (c : Conn) (m : Manager)
  | worked (c : Conn) (m : Manager) (work : Work)
  | guarded (c : Conn) (m : Manager) (call : GuardCall)
  | finished (c : Conn) (m : Manager) (call : CreationNames)
  | committed (c : Conn) (m : Manager)
  | rolledBack (c : Conn) (m : Manager)
  | ended (c : Conn)
  | vacuumed (m : Manager)
  deriving DecidableEq

section Step
variable [Fintype Manager]

def step (s : System Conn Manager) : Event Conn Manager → Option (System Conn Manager)
  | .began c =>
      if (s.sessions c).active then none else some (s.setSession c { s.sessions c with active := true })
  | .attached c m =>
      if (s.sessions c).active ∧ ¬ (s.sessions c).ending ∧ (s.sessions c).branches m = none then
        let db := s.databases m
        some (s.put c m { db with toStore := db.started } ⟨db.startTransaction, false, false⟩)
      else none
  | .worked c m work =>
      (s.openBranch c m).bind fun b => (work.run (s.databases m) c b).map fun (db, b) => s.put c m db b
  | .guarded c m call => (s.openBranch c m).bind fun b => (maintenanceGuard s c m b call).map Prod.snd
  | .finished c m call => (s.openBranch c m).map fun b => (creationFinish s c m b call).2
  | .committed c m =>
      ((s.sessions c).branches m).bind fun b => (commit (s.databases m) c b).map fun db =>
        (s.setDatabase m db).leave c m
  | .rolledBack c m =>
      ((s.sessions c).branches m).map fun b =>
        (s.setDatabase m (rollback (s.databases m) c b)).leave c m
  | .ended c =>
      if (s.sessions c).active ∧ ∀ m, (s.sessions c).branches m = none then some (transactionEnd s c) else none
  | .vacuumed m =>
      ((s.databases m).vacuumLock.tryExclusive .vacuum).map fun _ =>
        s.setDatabase m { s.databases m with vacuums := (s.databases m).vacuums + 1 }

end Step

/-- Databases whose tables may have guards already, before any connection works on them. -/
def System.opened (guards : Manager → TableName → List String) (issued : Manager → List String) :
    System Conn Manager where
  databases m :=
    { timestamp := 0
      transactions := 0
      lastCommit := 0
      generations := 1
      main := fun _ => 0
      views := fun table => ⟨0, guards m table⟩
      issued := issued m
      log := []
      creations := []
      vacuums := 0
      checkpointLock := .free
      vacuumLock := .free }
  sessions _ := ⟨false, false, fun _ => none, []⟩

end NgramCreationBarrier
