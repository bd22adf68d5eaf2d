import NgramIndex.LakeScripts
import NgramIndex.Run

/- Runs of a lake: commits of other clients, snapshot expiry, and maintenance
   calls that are expanded in one transaction and executed in another. A
   transaction reads one snapshot and commits on top of any number of later ones. -/
namespace NgramLake
open LabelledRun Fallible NgramGram NgramProbe NgramIndexRegistry

/-- Deletes, updates and inserts of one commit. An update keeps the row's id. -/
structure RowChanges where
  deletes : List Nat
  updates : List (Nat × List (String × String))
  inserts : List (List (String × String))
  deriving DecidableEq, Repr

inductive TableChange where
  | create (columns : List String) (inserts : List (List (String × String)))
  | alter (columns : List String) (texts : RowVersion → List (String × String))
  | remove
  | write (changes : RowChanges)

def TableChange.ofSchema : TableChange → Bool
  | .write _ => false
  | _ => true

/-- Whether a change alters or drops a table that is there. -/
def TableChange.touches : TableChange → Bool
  | .alter .. => true
  | .remove => true
  | _ => false

def numberRows (number first : Nat) (inserts : List (List (String × String))) : List RowVersion :=
  inserts.mapIdx fun i texts => ⟨first + i, number, texts⟩

def updateRow (number : Nat) (changes : RowChanges) (v : RowVersion) : RowVersion :=
  match changes.updates.lookup v.rowid with
  | some texts => ⟨v.rowid, number, texts⟩
  | none => v

def LakeTable.write (table : LakeTable) (number : Nat) (changes : RowChanges) : LakeTable :=
  { table with
    rows := ((table.rows.filter fun v => decide (v.rowid ∉ changes.deletes)).map (updateRow number changes)) ++
      numberRows number table.nextRowId changes.inserts
    nextRowId := table.nextRowId + changes.inserts.length }

/-- The table within a commit, and the tables that the commit altered or dropped. -/
structure TableState where
  table : Option LakeTable
  nextTableId : Nat
  touched : List Nat
  deriving DecidableEq

def changeTable (number : Nat) (s : TableState) : TableChange → Option TableState
  | .create columns inserts =>
      match s.table with
      | some _ => none
      | none => some { s with
          table := some ⟨s.nextTableId, columns, numberRows number 0 inserts, inserts.length⟩
          nextTableId := s.nextTableId + 1 }
  | .alter columns texts => s.table.map fun table => { s with
      table := some { table with
        columns := columns
        rows := table.rows.map fun v => { v with texts := texts v } }
      touched := s.touched ++ [table.tableId] }
  | .remove => s.table.map fun table => { s with
      table := none
      touched := s.touched ++ [table.tableId] }
  | .write changes => s.table.map fun table => { s with table := some (table.write number changes) }

def changeTables (number : Nat) (s : TableState) (changes : List TableChange) : Option TableState :=
  changes.foldlM (changeTable number) s

/-- What DuckLake records of a commit beside the change itself. -/
structure CommitRecord where
  raised : Nat
  tablesAltered : List String
  tablesDropped : List String
  deriving DecidableEq, Repr

inductive Call where
  | create (columnName indexRef : String) (options : GramOptions) (partitions : Nat)
  | refresh (onlyColumn : String) (partitions : String → Nat)
  | compact (onlyColumn : String) (purge : Bool) (partitions : String → Nat)
  | drop (columnName : String)
  | dropByReference (indexRef : String)
  /-- A call on another table of the lake, as far as it is seen here. -/
  | elsewhere

def Call.fn : Call → String
  | .create .. => "create_ngram_index"
  | .refresh .. => "ngram_refresh"
  | .compact .. => "ngram_compact"
  | .drop _ => "drop_ngram_index"
  | .dropByReference _ => "drop_ngram_index"
  | .elsewhere => "ngram_refresh"

/-- A script that waits for its execution, with the snapshot it was expanded at. -/
structure Plan where
  expandedAt : Nat
  statements : List LakeStatement

structure LakeRun where
  lake : Lake
  pending : List Plan

inductive LakeEvent where
  /-- A commit of any client that leaves the __ngram tables alone. -/
  | commit (changes : List TableChange) (nameShared : Bool) (record : CommitRecord)
  | expire (snapshots : List Nat)
  | expand (snapshot : Nat) (written : Bool) (call : Call)
  | execute (position snapshot : Nat) (record : CommitRecord)

def LakeEvent.changes : LakeEvent → List TableChange
  | .commit changes _ _ => changes
  | _ => []

def emptySnapshot : Snapshot where
  schemaVersion := 0
  tablesAltered := []
  tablesDropped := []
  touched := []
  deletedLocks := []
  createsSchema := false
  table := none
  nextTableId := 1
  nameShared := false
  index := ⟨none, []⟩

/-- A new lake holds its first snapshot, number 0. -/
def emptyLake : LakeRun := ⟨⟨[emptySnapshot], []⟩, []⟩

theorem emptyLake_only {k : Nat} {s : Snapshot} (here : emptyLake.lake.snapshots[k]? = some s) :
    k = 0 ∧ s = emptySnapshot := by
  cases k with
  | zero => exact ⟨rfl, (Option.some.inj here).symm⟩
  | succ k => cases here

def CommitRecord.namesAll (record : CommitRecord) (touched : List Nat) : Prop :=
  ∀ tableId ∈ touched, toString (tableId : Int) ∈ record.tablesAltered ∨
    toString (tableId : Int) ∈ record.tablesDropped

instance (record : CommitRecord) (touched : List Nat) : Decidable (record.namesAll touched) :=
  inferInstanceAs (Decidable (∀ _ ∈ _, _))

def Lake.append (lake : Lake) (s : Snapshot) : Lake := { lake with snapshots := lake.snapshots ++ [s] }

def commitChanges (lake : Lake) (changes : List TableChange) (nameShared : Bool)
    (record : CommitRecord) : Option Lake := do
  let latest ← lake.snapshots.getLast?
  let after ← changeTables lake.snapshots.length ⟨latest.table, latest.nextTableId, []⟩ changes
  if (changes.any TableChange.ofSchema = true → 0 < record.raised) ∧ record.namesAll after.touched ∧
      (∀ table ∈ after.table, table.nextRowId ≤ lakeProvisionalRowid) then
    some (lake.append { latest with
      schemaVersion := latest.schemaVersion + record.raised
      tablesAltered := record.tablesAltered
      tablesDropped := record.tablesDropped
      touched := after.touched
      deletedLocks := []
      createsSchema := false
      table := after.table
      nextTableId := after.nextTableId
      nameShared := nameShared })
  else none

def deletedLocksOf (writes : List LakeWrite) : List Nat :=
  writes.flatMap fun
    | .deleteLocks rowids => rowids
    | _ => []

/-- Whether a script creates or drops tables of the __ngram schema. -/
def LakeWrite.ofSchema : LakeWrite → Bool
  | .createRegistry => true
  | .createSegments _ => true
  | .dropSegments _ => true
  | _ => false

/-- DuckLake refuses the later of two transactions that delete the same lock row
    or that both create the __ngram schema. -/
def conflicts (lake : Lake) (snapshot : Nat) (writes : List LakeWrite) : Bool :=
  (lake.snapshots.drop (snapshot + 1)).any fun s =>
    s.deletedLocks.any (fun lock => decide (lock ∈ deletedLocksOf writes)) ||
      s.createsSchema && decide (LakeWrite.createRegistry ∈ writes)

def commitWrites (lake : Lake) (snapshot : Nat) (writes : List LakeWrite) (record : CommitRecord) :
    Lake :=
  match lake.snapshots.getLast? with
  | none => lake
  | some latest =>
      if writes = [] ∨ conflicts lake snapshot writes = true then lake
      else lake.append { latest with
        schemaVersion := latest.schemaVersion + record.raised
        tablesAltered := record.tablesAltered
        tablesDropped := record.tablesDropped
        touched := []
        deletedLocks := deletedLocksOf writes
        createsSchema := decide (LakeWrite.createRegistry ∈ writes)
        index := applyWrites writes latest.index }

section Runs
variable (host : LakeHost)

def unwrittenLake (fn : String) : String :=
  s!"{fn}: this transaction has already written DuckLake catalog {host.catalogName}; run {fn} in a " ++
    "transaction of its own"

/-- A call on a table must name one that is there. -/
def resolveTarget (lake : Lake) (snapshot : Nat) : Except String Unit :=
  match lake.snapshots[snapshot]?.bind Snapshot.table with
  | none => .error tableMissing
  | some _ => .ok ()

def elsewhereScript (lake : Lake) (snapshot : Nat) : List LakeStatement :=
  (if (lake.snapshots[snapshot]?.bind fun s => s.index.registry) = none then [.bootstrap] else []) ++
    [.check .lockOnly (changedMessage host "ngram_refresh"), .lock]

def expandCall (lake : Lake) (snapshot : Nat) (written : Bool) (call : Call) :
    Except String (List LakeStatement) := do
  if written then .error (unwrittenLake host call.fn)
  match call with
  | .create columnName indexRef options partitions => do
      resolveTarget lake snapshot
      validateGramOptions options "create_ngram_index"
      lakeCreateIndexScript host lake snapshot columnName indexRef
        options partitions
  | .refresh onlyColumn partitions => do
      resolveTarget lake snapshot
      lakeRefreshScript host lake snapshot onlyColumn partitions
  | .compact onlyColumn purge partitions => do
      resolveTarget lake snapshot
      lakeCompactScript host lake snapshot onlyColumn purge partitions
  | .drop columnName => do
      resolveTarget lake snapshot
      lakeDropIndexScript host lake snapshot columnName
  | .dropByReference indexRef => lakeDropIndexByReference host lake snapshot indexRef
  | .elsewhere => .ok (elsewhereScript host lake snapshot)

/-- A script is executed at one snapshot; unless a statement fails or DuckLake
    refuses it, its writes are committed on top of all later ones. -/
def executePlan (lake : Lake) (plan : Plan) (snapshot : Nat) (record : CommitRecord) : Lake :=
  match runScript host lake snapshot lake.snapshots.length
      plan.statements with
  | .error _ => lake
  | .ok t => commitWrites lake snapshot t.writes record

/-- Whether the version that a maintenance commit leaves is one DuckLake may give it. -/
def raises (lake : Lake) (plan : Plan) (snapshot : Nat) (record : CommitRecord) : Prop :=
  match runScript host lake snapshot lake.snapshots.length
      plan.statements with
  | .error _ => True
  | .ok t => t.writes.any LakeWrite.ofSchema = true → 0 < record.raised

instance (lake : Lake) (plan : Plan) (snapshot : Nat) (record : CommitRecord) :
    Decidable (raises host lake plan snapshot record) := by
  unfold raises
  split <;> infer_instance

def lakeStep (run : LakeRun) : LakeEvent → Option LakeRun
  | .commit changes nameShared record =>
      (commitChanges run.lake changes nameShared record).map fun lake => { run with lake }
  | .expire snapshots =>
      if run.lake.snapshots.length - 1 ∈ snapshots then none
      else some { run with lake := { run.lake with expired := run.lake.expired ++ snapshots } }
  | .expand snapshot written call =>
      if snapshot < run.lake.snapshots.length then
        match expandCall host run.lake snapshot written call with
        | .ok statements => some { run with pending := run.pending ++ [⟨snapshot, statements⟩] }
        | .error _ => none
      else none
  | .execute position snapshot record =>
      match run.pending[position]? with
      | none => none
      | some plan =>
          if plan.expandedAt ≤ snapshot ∧ snapshot < run.lake.snapshots.length ∧
              raises host run.lake plan snapshot record then
            some {
              lake := executePlan host run.lake plan snapshot record
              pending := run.pending.eraseIdx position }
          else none

end Runs
end NgramLake
