import NgramIndex.Gram

/- The registry of a catalog: one row for each index, of any of its tables. The
   metadata columns of a row appear only through the reason it is unusable. -/
namespace NgramIndexRegistry
open NgramGram

structure Target where
  schemaName : String
  tableName : String
  deriving DecidableEq, Repr

structure IndexLocation where
  indexRef : String
  columnName : String
  registryOid : Nat
  guardName : String
  guardToken : String
  deriving DecidableEq, Repr

structure RegistryRow where
  indexRef : String
  schemaName : String
  tableName : String
  columnName : String
  guardName : String
  guardToken : String
  error : String
  deriving DecidableEq, Repr

/-- The registry layouts: the current one, the one with a gram size, and the one
    that kept only identities. -/
inductive RegistryShape where
  | current
  | gramSize
  | identityOnly
  deriving DecidableEq, Repr

/-- A registry that does not exist has oid 0. -/
structure Registry where
  oid : Nat
  shape : RegistryShape
  rows : List RegistryRow
  deriving DecidableEq, Repr

def hex (indexRef : String) : String := String.ofList (indexRef.toList.filter (· != '-'))

/-- The length-framed, case-folded key of an owner. -/
def ownerKey (schema table column : String) : List (Nat × List Char) :=
  [schema, table, column].map fun part => (part.utf8ByteSize, part.toList.map Char.toLower)

def RegistryRow.ownerKey (row : RegistryRow) : List (Nat × List Char) :=
  NgramIndexRegistry.ownerKey row.schemaName row.tableName row.columnName

def RegistryRow.belongsTo (row : RegistryRow) (target : Target) : Bool :=
  ciEquals row.schemaName target.schemaName && ciEquals row.tableName target.tableName

def Registry.owned (registry : Registry) (target : Target) : List RegistryRow :=
  registry.rows.filter (·.belongsTo target)

def locationOf (row : RegistryRow) (registryOid : Nat) : IndexLocation where
  indexRef := row.indexRef
  columnName := row.columnName
  registryOid := registryOid
  guardName := row.guardName
  guardToken := row.guardToken

def existingIndexes (registry : Registry) (target : Target) : Except String (List IndexLocation) :=
  (registry.owned target).mapM fun row =>
    if row.error ≠ "" then
      .error s!"ngram: the index on {target.tableName}.{row.columnName} ({row.indexRef}) is unusable: {row.error}"
    else .ok (locationOf row registry.oid)

def guardReferences {Row : Type} (indexRef recorded : Row → String) (owned : Row → Bool) (rows : List Row)
    (guardName exceptRef : String) : Nat :=
  rows.countP fun row => indexRef row != exceptRef && owned row && recorded row == guardName

/-- A sibling on the same column refuses a create, and one under another guard. -/
def siblingCheck {Text : Type} (sameColumn : Bool) (alreadyExists changed : Text)
    (guardName guardToken siblingName siblingToken : String) : Except Text Unit :=
  if sameColumn then .error alreadyExists
  else if guardToken = "" ∨ siblingName ≠ guardName ∨ siblingToken ≠ guardToken then .error changed
  else .ok ()

/-- A create that shares a guard needs a sibling to share it with and a guard that covers the column. -/
def sharedGuardCheck {Text : Type} (guardToken : String) (unshared : Bool) (changed : Text)
    (objection : Option Text) : Except Text Unit :=
  if guardToken = "" then .ok ()
  else if unshared then .error changed
  else match objection with
    | some reason => .error reason
    | none => .ok ()

def otherGuardReferences (registry : Registry) (target : Target) (guardName exceptRef : String) : Nat :=
  guardReferences RegistryRow.indexRef RegistryRow.guardName (RegistryRow.belongsTo · target) registry.rows
    guardName exceptRef

def readRegistryForCreate (registry : Registry) (catalogName : String) : Except String Registry :=
  if registry.shape ≠ .current ∧ registry.rows ≠ [] then
    .error s!"create_ngram_index: the ngram registry in {catalogName} predates format 6; drop each listed index with drop_ngram_index(index_ref, catalog = ...) and rebuild it"
  else .ok registry

/-- The oid of a registry that a create can use; another one counts as none. -/
def Registry.currentOid (registry : Registry) : Nat :=
  if registry.shape = .current then registry.oid else 0

def validateRegistryForCreate (registry : Registry) (catalogName : String) (expectedOid : Nat)
    (expectedBootstrap : Bool) : Except String Unit := do
  let registry ← readRegistryForCreate registry catalogName
  if (registry.currentOid == 0) != expectedBootstrap || registry.currentOid != expectedOid then
    .error "create_ngram_index: registry changed after the operation was prepared"
  else .ok ()

/-- The row a script was prepared against is still in the registry it was read from. -/
def locateIndex (registry : Registry) (target : Target) (location : IndexLocation) (fn : String) :
    Except String Unit :=
  if registry.oid = 0 then .error s!"{fn}: index storage was removed after preparation"
  else if registry.oid ≠ location.registryOid then
    .error "ngram: registry changed after the index operation was prepared"
  else
    match registry.rows.find? fun row => row.indexRef == location.indexRef with
    | none => .error s!"{fn}: index storage was removed after preparation"
    | some row =>
      if row.belongsTo target && ciEquals row.columnName location.columnName then .ok ()
      else .error s!"ngram: registry row {location.indexRef} changed after the index operation was prepared"

theorem ciEquals_refl (a : String) : ciEquals a a = true := by simp [ciEquals]

theorem mem_owned {registry : Registry} {target : Target} {row : RegistryRow} :
    row ∈ registry.owned target ↔ row ∈ registry.rows ∧ row.belongsTo target = true := by
  simp [Registry.owned]

theorem existingIndexes_ok {registry : Registry} {target : Target} {siblings : List IndexLocation}
    (listed : existingIndexes registry target = .ok siblings) :
    siblings = (registry.owned target).map fun row => locationOf row registry.oid := by
  have pairs := Fallible.mapM_ok listed
  have each : ∀ row location, (if row.error ≠ "" then
      .error s!"ngram: the index on {target.tableName}.{row.columnName} ({row.indexRef}) is unusable: {row.error}"
      else .ok (locationOf row registry.oid)) = (Except.ok location : Except String IndexLocation) →
      locationOf row registry.oid = location := by
    intro row location usable
    exact Fallible.ok_inj (Fallible.check_ok usable).2
  clear listed
  generalize registry.owned target = rows at pairs ⊢
  induction pairs with
  | nil => rfl
  | cons first _ ih => rw [List.map_cons, ih, each _ _ first]

theorem otherGuardReferences_zero {registry : Registry} {target : Target} {guardName exceptRef : String}
    (alone : otherGuardReferences registry target guardName exceptRef = 0) {row : RegistryRow}
    (owned : row ∈ registry.owned target) (other : row.indexRef ≠ exceptRef) :
    row.guardName ≠ guardName := by
  obtain ⟨listed, belongs⟩ := mem_owned.mp owned
  have refused := List.countP_eq_zero.mp alone row listed
  simpa [other, belongs] using refused

end NgramIndexRegistry
