import Mathlib.Data.List.Perm.Basic
import Mathlib.Data.String.Basic
import NgramIndex.GuardState
import NgramIndex.LakeQuery
import NgramIndex.PragmaParameters

/- The listing of a catalog: every registry row with its status, and every entry of the
   extension's schema that no row accounts for. The sets that collect the schema's
   entries have no order of their own. -/
namespace NgramCatalogListing
open NgramGram NgramOwnerKeys NgramRowIdGuard Utf8 Fallible
open NgramIndexRegistry (RegistryShape hex)
open NgramLake (tokenizerSpec)
open scoped List

def registryTable : String := "registry"
def segmentsPrefix : String := "segments_"
def statsPrefix : String := "stats_"

def segmentsTable (indexRef : String) : String := segmentsPrefix ++ hex indexRef
def format4StatsTable (indexRef : String) : String := statsPrefix ++ hex indexRef

/-- An entry of the extension's schema, and whether it is an ordinary DuckDB table. -/
structure SchemaEntry where
  name : String
  duckTable : Bool
  deriving DecidableEq, Repr

structure BaseColumn where
  name : Name
  generated : Bool
  deriving DecidableEq

structure BaseTable where
  columns : List BaseColumn
  indexes : List IndexEntry
  db : AttachedDatabase

structure SchemaIndex where
  indexType : String
  tableName : Name
  deriving DecidableEq

/-- A catalog as one transaction sees it. A base table is looked up by its names, and is
    none when it is missing or no ordinary DuckDB table; an index by its schema and name. -/
structure Catalog where
  name : String
  registry : RegistryEntry
  entries : List SchemaEntry
  base : Name → Name → Option BaseTable
  index : Name → String → Option SchemaIndex

/-- The host, with whether it is the build that the rowid guard is pinned to. -/
structure Runtime extends Host where
  compatible : Bool

inductive Status where
  | ready
  | scanOnly
  | orphan
  | malformed
  deriving DecidableEq, Repr

structure ObservedIndex where
  catalogName : String
  schemaName : Name
  tableName : Name
  status : Status
  reason : Message
  location : IndexLocation
  formatVersion : Int
  tokenizer : String
  registryShape : RegistryShape
  deriving DecidableEq

/-- The text of an id, whose 32 digits are given. -/
def dashed (hex : List Char) : List Char :=
  hex.take 8 ++ '-' :: (hex.drop 8).take 4 ++ '-' :: (hex.drop 12).take 4 ++ '-' :: (hex.drop 16).take 4 ++
    '-' :: hex.drop 20

def lowered (name : String) : List Char := name.toList.map Char.toLower

def parsePrefixedId (host : Host) (name start : String) : Option String :=
  match List.isPrefixOf? start.toList (lowered name) with
  | none => none
  | some hex =>
    if (String.ofList hex).utf8ByteSize ≠ 32 then none
    else
      let indexRef := String.ofList (dashed hex)
      if isCanonicalUUID host indexRef then some indexRef else none

def parseStorageName (host : Host) (name : String) : Option String := parsePrefixedId host name segmentsPrefix

def parseFormat4StatsName (host : Host) (name : String) : Option String := parsePrefixedId host name statsPrefix

def BaseTable.columnExists (host : Host) (table : BaseTable) (column : Name) : Bool :=
  table.columns.any fun other => host.ciEquals other.name column

def BaseTable.storageIndex (host : Host) (table : BaseTable) (column : Name) : Option Nat :=
  (table.columns.filter fun other => !other.generated).findIdx? fun other => host.ciEquals other.name column

/-- Why the recorded guard does not prove the indexed rows safe; empty when it does. -/
def rowIdGuardReason (host : Runtime) (table : BaseTable) (info : MetaInfo) : Message :=
  match exactGuardReason host.compatible table.indexes (table.storageIndex host.toHost info.columnName)
      info.guardName info.guardToken info.hwmRowid table.db.checkpointIteration with
  | some reason => bytes reason
  | none => []

section Observe

/-- What an entry without a registry row is listed as. -/
def malformed (catalogName indexRef : String) (reason : Message) : ObservedIndex where
  catalogName := catalogName
  schemaName := emptyName
  tableName := emptyName
  status := .malformed
  reason := reason
  location := ⟨indexRef, emptyName, 0, "", ""⟩
  formatVersion := -1
  tokenizer := ""
  registryShape := .current

def classifyBase (host : Runtime) (catalog : Catalog) (row : RegistryRow) : Status × Message :=
  match catalog.base row.schemaName row.tableName with
  | none => (.orphan, bytes "base table is missing or no longer an ordinary DuckDB table")
  | some table =>
    if ¬ table.columnExists host.toHost row.columnName then (.orphan, bytes "indexed column is missing")
    else
      let reason := rowIdGuardReason host table row.metaInfo
      if reason ≠ [] then (.scanOnly, bytes "exact rowid guard is unavailable: " ++ reason) else (.ready, [])

/-- The ids of the segments tables in the schema, those of the statistics tables that
    format 4 kept beside them, and the entries that are neither. -/
structure SchemaScan where
  storage : List String
  format4Stats : List String
  foreign : List ObservedIndex

def notStorage (name : String) : Message :=
  bytes s!"__ngram.{name} is not a storage table of this extension"

def scanEntry (host : Host) (catalogName : String) (scan : SchemaScan) (entry : SchemaEntry) : SchemaScan :=
  let foreign := { scan with
    foreign := scan.foreign ++ [malformed catalogName entry.name (notStorage entry.name)] }
  if entry.duckTable then
    if lowered entry.name = registryTable.toList then scan
    else
      match parseFormat4StatsName host entry.name with
      | some indexRef => { scan with format4Stats := scan.format4Stats.insert indexRef }
      | none =>
        match parseStorageName host entry.name with
        | some indexRef => { scan with storage := scan.storage.insert indexRef }
        | none => foreign
  else foreign

def observedRow (host : Runtime) (catalog : Catalog) (oid : Nat) (shape : RegistryShape) (row : RegistryRow)
    (storagePresent : Bool) : ObservedIndex :=
  let (status, reason) :=
    if row.error ≠ [] then (.malformed, row.error)
    else if ¬ storagePresent then (.malformed, bytes "the segments table is missing")
    else classifyBase host catalog row
  { catalogName := catalog.name
    schemaName := row.schemaName
    tableName := row.tableName
    status := status
    reason := reason
    location := locationOf row oid
    formatVersion := row.formatVersion
    tokenizer := if row.error = [] then tokenizerSpec row.metaInfo.options else ""
    registryShape := shape }

/-- A row takes its storage out of the scan; a format-4 row takes its statistics too. -/
def observeRows (host : Runtime) (catalog : Catalog) (oid : Nat) (shape : RegistryShape) :
    List RegistryRow → SchemaScan → List ObservedIndex × SchemaScan
  | [], scan => ([], scan)
  | row :: rest, scan =>
    let (listed, left) := observeRows host catalog oid shape rest { scan with
      storage := scan.storage.erase row.indexRef
      format4Stats := if row.formatVersion = 4 then scan.format4Stats.erase row.indexRef else scan.format4Stats }
    (observedRow host catalog oid shape row (scan.storage.contains row.indexRef) :: listed, left)

def storageUnclaimed : Message := bytes "storage has no registry row"
def statsUnclaimed : Message := bytes "format-4 statistics table has no format-4 registry row"

/-- Storage that no row claims is malformed for that, or for what kept the registry from
    being read. -/
def unclaimed (catalogName : String) (registryError reason : Message) (indexRef : String) : ObservedIndex :=
  malformed catalogName indexRef (if registryError = [] then reason else registryError)

/-- Reading a registry raises invalid input alone. -/
def errorMessage (reason : Message) : Message := bytes "Invalid Input Error: " ++ reason

def observeCatalog (host : Runtime) (catalog : Catalog) : List ObservedIndex :=
  let (registry, registryError) := match readRegistry host.toHost catalog.registry {} with
    | .ok registry => (registry, [])
    | .error reason => (⟨0, .current, []⟩, errorMessage reason)
  let scan := catalog.entries.foldl (scanEntry host.toHost catalog.name) ⟨[], [], []⟩
  let (listed, left) := observeRows host catalog registry.oid registry.shape registry.rows scan
  listed ++ left.storage.map (unclaimed catalog.name registryError storageUnclaimed) ++
    left.format4Stats.map (unclaimed catalog.name registryError statsUnclaimed) ++ left.foreign

def findObserved (host : Runtime) (catalog : Catalog) (indexRef : String) : Except Message ObservedIndex :=
  if ¬ isCanonicalUUID host.toHost indexRef then
    .error (bytes (s!"ngram: index reference {indexRef} must be a canonical lowercase UUID as listed by " ++
      "ngram_indexes(); to drop by table, name the column: drop_ngram_index(table, column)"))
  else
    match (observeCatalog host catalog).find? fun observed => observed.location.indexRef == indexRef with
    | some observed => .ok observed
    | none => .error (bytes s!"ngram: index {indexRef} does not exist in catalog {catalog.name}")

end Observe

section Names

/-- The host writes an id as 32 lower-case digits with dashes, and reads it back. -/
structure WritesUuids (host : Host) : Prop where
  text : ∀ id, ∃ digits : List Char, digits.length = 32 ∧ (∀ c ∈ digits, c ∈ hexDigits) ∧
    host.uuidText id = String.ofList (dashed digits)
  read : ∀ id, host.uuidOf (host.uuidText id) = .ok id

theorem dashed_length (hex : List Char) : (dashed hex).length = hex.length + 4 := by
  simp only [dashed, List.length_append, List.length_cons, List.length_take, List.length_drop]
  omega

theorem hexDigit_plain {c : Char} (digit : c ∈ hexDigits) : c ≠ '-' ∧ c.utf8Size = 1 ∧ c.toLower = c := by
  have every : (hexDigits.all fun c => c ≠ '-' ∧ c.utf8Size = 1 ∧ c.toLower = c) = true := by decide +kernel
  exact of_decide_eq_true (List.all_eq_true.mp every c digit)

theorem pieces_join (hex : List Char) : hex.take 8 ++ ((hex.drop 8).take 4 ++ ((hex.drop 12).take 4 ++
    ((hex.drop 16).take 4 ++ hex.drop 20))) = hex := by
  have rejoin (k : Nat) : (hex.drop k).take 4 ++ hex.drop (k + 4) = hex.drop k := by
    rw [← List.drop_drop, List.take_append_drop]
  rw [rejoin 16, rejoin 12, rejoin 8, List.take_append_drop]

theorem filter_dashed {digits : List Char} (plain : ∀ c ∈ digits, c ≠ '-') :
    (dashed digits).filter (· != '-') = digits := by
  have keep : ∀ part : List Char, part ⊆ digits → part.filter (· != '-') = part := fun part inside =>
    List.filter_eq_self.mpr fun c listed => bne_iff_ne.mpr (plain c (inside listed))
  have cut (i k : Nat) : ((digits.drop i).take k).filter (· != '-') = (digits.drop i).take k :=
    keep _ fun _ listed => List.mem_of_mem_drop (List.mem_of_mem_take listed)
  have start : (digits.take 8).filter (· != '-') = digits.take 8 := keep _ fun _ => List.mem_of_mem_take
  have last : (digits.drop 20).filter (· != '-') = digits.drop 20 := keep _ fun _ => List.mem_of_mem_drop
  simp only [dashed, List.append_assoc, List.cons_append, List.filter_append, List.filter_cons, bne_self_eq_false,
    Bool.false_eq_true, if_false, cut, start, last]
  exact pieces_join digits

theorem dashed_injective {a b : List Char} (size : a.length = 32) (same : dashed a = dashed b) : a = b := by
  have sizes := congrArg List.length same
  rw [dashed_length, dashed_length] at sizes
  simp only [dashed, List.append_assoc, List.cons_append] at same
  obtain ⟨first, same⟩ := List.append_inj same (by simp; omega)
  obtain ⟨second, same⟩ := List.append_inj (List.cons.inj same).2 (by simp; omega)
  obtain ⟨third, same⟩ := List.append_inj (List.cons.inj same).2 (by simp; omega)
  obtain ⟨fourth, same⟩ := List.append_inj (List.cons.inj same).2 (by simp; omega)
  rw [← pieces_join a, ← pieces_join b, first, second, third, fourth, (List.cons.inj same).2]

variable {host : Host}

theorem uuidText_injective (writes : WritesUuids host) {a b : BitVec 128} (same : host.uuidText a = host.uuidText b) :
    a = b := by
  have read := writes.read a
  rw [same, writes.read b] at read
  exact (Except.ok.inj read).symm

theorem canonical_text {value : String} (canonical : isCanonicalUUID host value = true) :
    ∃ id, host.uuidText id = value := by
  unfold isCanonicalUUID at canonical
  dsimp only at canonical
  split at canonical
  · cases canonical
  · split at canonical
    · cases canonical
    next id _ =>
      rw [Bool.and_eq_true, beq_iff_eq] at canonical
      exact ⟨id, canonical.2⟩

theorem text_digits (writes : WritesUuids host) (id : BitVec 128) : ∃ digits : List Char, digits.length = 32 ∧
    (∀ c ∈ digits, c ∈ hexDigits) ∧ host.uuidText id = String.ofList (dashed digits) ∧
      (hex (host.uuidText id)).toList = digits := by
  obtain ⟨digits, size, plain, text⟩ := writes.text id
  refine ⟨digits, size, plain, text, ?_⟩
  rw [text, hex, String.toList_ofList, String.toList_ofList, filter_dashed fun c listed => (hexDigit_plain (plain c listed)).1]

theorem digits_size {digits : List Char} (plain : ∀ c ∈ digits, c ∈ hexDigits) :
    (String.ofList digits).utf8ByteSize = digits.length := by
  rw [String.utf8ByteSize_ofList]
  induction digits with
  | nil => rfl
  | cons c rest ih =>
    obtain ⟨here, later⟩ := List.forall_mem_cons.mp plain
    rw [String.utf8Len_cons, ih later, (hexDigit_plain here).2.1, List.length_cons]

/-- A storage name is read exactly as the id it was formed from, in any case. -/
theorem parse_iff (writes : WritesUuids host) {name start indexRef : String} :
    parsePrefixedId host name start = some indexRef ↔
      isCanonicalUUID host indexRef = true ∧ lowered name = start.toList ++ (hex indexRef).toList := by
  constructor
  · intro parsed
    unfold parsePrefixedId at parsed
    split at parsed
    · cases parsed
    next rest found =>
      split at parsed
      · cases parsed
      · dsimp only at parsed
        split at parsed
        next canonical =>
          obtain rfl := Option.some.inj parsed
          obtain ⟨id, text⟩ := canonical_text canonical
          obtain ⟨digits, size, _, written, stripped⟩ := text_digits writes id
          have same : digits = rest := dashed_injective size (String.ofList_injective (written.symm.trans text))
          refine ⟨canonical, ?_⟩
          rw [← text, stripped, same]
          exact (List.isPrefixOf?_eq_some_iff_append_eq.mp found).symm
        · cases parsed
  · rintro ⟨canonical, same⟩
    obtain ⟨id, rfl⟩ := canonical_text canonical
    obtain ⟨digits, size, plain, written, stripped⟩ := text_digits writes id
    rw [stripped] at same
    have found : List.isPrefixOf? start.toList (lowered name) = some digits :=
      List.isPrefixOf?_eq_some_iff_append_eq.mpr same.symm
    have sized : ¬ (String.ofList digits).utf8ByteSize ≠ 32 := by rw [digits_size plain, size]; exact not_not.mpr rfl
    rw [written] at canonical ⊢
    simp only [parsePrefixedId, found, if_neg sized, if_pos canonical]

end Names

section Scan

inductive EntryKind where
  | registry
  | format4Stats (indexRef : String)
  | segments (indexRef : String)
  | foreign
  deriving DecidableEq

def entryKind (host : Host) (entry : SchemaEntry) : EntryKind :=
  if ¬ entry.duckTable then .foreign
  else if lowered entry.name = registryTable.toList then .registry
  else
    match parseFormat4StatsName host entry.name with
    | some indexRef => .format4Stats indexRef
    | none =>
      match parseStorageName host entry.name with
      | some indexRef => .segments indexRef
      | none => .foreign

def segmentsRef (host : Host) (entry : SchemaEntry) : Option String :=
  match entryKind host entry with
  | .segments indexRef => some indexRef
  | _ => none

def statsRef (host : Host) (entry : SchemaEntry) : Option String :=
  match entryKind host entry with
  | .format4Stats indexRef => some indexRef
  | _ => none

def isForeign (host : Host) (entry : SchemaEntry) : Bool :=
  match entryKind host entry with
  | .foreign => true
  | _ => false

/-- Whether the rows of these ids, and the format-4 rows of those, account for an entry. -/
def claimedBy (host : Host) (ids format4Ids : List String) (entry : SchemaEntry) : Bool :=
  match entryKind host entry with
  | .registry => true
  | .format4Stats indexRef => format4Ids.contains indexRef
  | .segments indexRef => ids.contains indexRef
  | .foreign => false

/-- The listing of an entry that no row accounts for. -/
def stray (host : Host) (catalogName : String) (registryError : Message) (entry : SchemaEntry) : ObservedIndex :=
  match entryKind host entry with
  | .format4Stats indexRef => unclaimed catalogName registryError statsUnclaimed indexRef
  | .segments indexRef => unclaimed catalogName registryError storageUnclaimed indexRef
  | _ => malformed catalogName entry.name (notStorage entry.name)

variable {host : Host}

theorem scanEntry_kind (catalogName : String) (scan : SchemaScan) (entry : SchemaEntry) :
    scanEntry host catalogName scan entry =
      match entryKind host entry with
      | .registry => scan
      | .format4Stats indexRef => { scan with format4Stats := scan.format4Stats.insert indexRef }
      | .segments indexRef => { scan with storage := scan.storage.insert indexRef }
      | .foreign => { scan with
          foreign := scan.foreign ++ [malformed catalogName entry.name (notStorage entry.name)] } := by
  unfold scanEntry entryKind
  cases entry.duckTable with
  | false => rfl
  | true =>
    by_cases registry : lowered entry.name = registryTable.toList
    · simp [registry]
    · cases parseFormat4StatsName host entry.name with
      | some indexRef => simp [registry]
      | none => cases parseStorageName host entry.name <;> simp [registry]

theorem scan_entries (catalogName : String) (entries : List SchemaEntry) (scan : SchemaScan)
    (storage : (scan.storage ++ entries.filterMap (segmentsRef host)).Nodup)
    (stats : (scan.format4Stats ++ entries.filterMap (statsRef host)).Nodup) :
    (entries.foldl (scanEntry host catalogName) scan).storage ~ scan.storage ++ entries.filterMap (segmentsRef host) ∧
      (entries.foldl (scanEntry host catalogName) scan).format4Stats ~
        scan.format4Stats ++ entries.filterMap (statsRef host) ∧
      (entries.foldl (scanEntry host catalogName) scan).foreign = scan.foreign ++
        (entries.filter (isForeign host)).map fun entry => malformed catalogName entry.name (notStorage entry.name) := by
  induction entries generalizing scan with
  | nil => simp
  | cons entry rest ih =>
    rw [List.foldl_cons, scanEntry_kind]
    cases kind : entryKind host entry with
    | registry =>
      simp only [List.filterMap_cons, List.filter_cons, segmentsRef, statsRef, isForeign, kind] at storage stats ⊢
      exact ih scan storage stats
    | format4Stats indexRef =>
      simp only [List.filterMap_cons, List.filter_cons, segmentsRef, statsRef, isForeign, kind] at storage stats ⊢
      have fresh : indexRef ∉ scan.format4Stats := fun present =>
        (List.nodup_append.mp stats).2.2 _ present _ List.mem_cons_self rfl
      have moved := @List.perm_middle _ indexRef scan.format4Stats (rest.filterMap (statsRef host))
      obtain ⟨first, second, third⟩ := ih { scan with format4Stats := scan.format4Stats.insert indexRef } storage
        (by rw [List.insert_of_not_mem fresh]; exact moved.nodup stats)
      refine ⟨first, second.trans ?_, third⟩
      rw [List.insert_of_not_mem fresh]
      exact moved.symm
    | segments indexRef =>
      simp only [List.filterMap_cons, List.filter_cons, segmentsRef, statsRef, isForeign, kind] at storage stats ⊢
      have fresh : indexRef ∉ scan.storage := fun present =>
        (List.nodup_append.mp storage).2.2 _ present _ List.mem_cons_self rfl
      have moved := @List.perm_middle _ indexRef scan.storage (rest.filterMap (segmentsRef host))
      obtain ⟨first, second, third⟩ := ih { scan with storage := scan.storage.insert indexRef }
        (by rw [List.insert_of_not_mem fresh]; exact moved.nodup storage) stats
      refine ⟨first.trans ?_, second, third⟩
      rw [List.insert_of_not_mem fresh]
      exact moved.symm
    | foreign =>
      simp only [List.filterMap_cons, List.filter_cons, segmentsRef, statsRef, isForeign, kind] at storage stats ⊢
      obtain ⟨first, second, third⟩ := ih { scan with
        foreign := scan.foreign ++ [malformed catalogName entry.name (notStorage entry.name)] } storage stats
      refine ⟨first, second, third.trans ?_⟩
      simp

/-- Taking the claimed ids out leaves the listing of every other entry, once. -/
theorem strays_listed (catalogName : String) (registryError : Message) (ids format4Ids : List String)
    (entries : List SchemaEntry) :
    ((entries.filterMap (segmentsRef host)).filter (!ids.contains ·)).map
        (unclaimed catalogName registryError storageUnclaimed) ++
      ((entries.filterMap (statsRef host)).filter (!format4Ids.contains ·)).map
        (unclaimed catalogName registryError statsUnclaimed) ++
      (entries.filter (isForeign host)).map (fun entry => malformed catalogName entry.name (notStorage entry.name)) ~
    (entries.filter (!claimedBy host ids format4Ids ·)).map (stray host catalogName registryError) := by
  induction entries with
  | nil => exact .refl _
  | cons entry rest ih =>
    have segments : segmentsRef host entry = match entryKind host entry with
      | .segments indexRef => some indexRef
      | _ => none := rfl
    have stats : statsRef host entry = match entryKind host entry with
      | .format4Stats indexRef => some indexRef
      | _ => none := rfl
    have foreign : isForeign host entry = match entryKind host entry with
      | .foreign => true
      | _ => false := rfl
    have claimed : claimedBy host ids format4Ids entry = match entryKind host entry with
      | .registry => true
      | .format4Stats indexRef => format4Ids.contains indexRef
      | .segments indexRef => ids.contains indexRef
      | .foreign => false := rfl
    have shown : stray host catalogName registryError entry = match entryKind host entry with
      | .format4Stats indexRef => unclaimed catalogName registryError statsUnclaimed indexRef
      | .segments indexRef => unclaimed catalogName registryError storageUnclaimed indexRef
      | _ => malformed catalogName entry.name (notStorage entry.name) := rfl
    cases kind : entryKind host entry with
    | registry =>
      rw [kind] at segments stats foreign claimed
      simp only [List.filterMap_cons, List.filter_cons, segments, stats, foreign, claimed, Bool.not_true,
        Bool.false_eq_true, if_false]
      exact ih
    | format4Stats indexRef =>
      rw [kind] at segments stats foreign claimed shown
      cases mine : format4Ids.contains indexRef with
      | true =>
        simp only [List.filterMap_cons, List.filter_cons, segments, stats, foreign, claimed, mine, Bool.not_true,
          Bool.false_eq_true, if_false]
        exact ih
      | false =>
        simp only [List.filterMap_cons, List.filter_cons, segments, stats, foreign, claimed, mine, Bool.not_false,
          if_true, Bool.false_eq_true, if_false, List.map_cons, shown]
        refine .trans ?_ (ih.cons _)
        rw [List.append_assoc, List.append_assoc]
        exact List.perm_middle
    | segments indexRef =>
      rw [kind] at segments stats foreign claimed shown
      cases mine : ids.contains indexRef with
      | true =>
        simp only [List.filterMap_cons, List.filter_cons, segments, stats, foreign, claimed, mine, Bool.not_true,
          Bool.false_eq_true, if_false]
        exact ih
      | false =>
        simp only [List.filterMap_cons, List.filter_cons, segments, stats, foreign, claimed, mine, Bool.not_false,
          if_true, Bool.false_eq_true, if_false, List.map_cons, shown]
        exact ih.cons _
    | foreign =>
      rw [kind] at segments stats foreign claimed shown
      simp only [List.filterMap_cons, List.filter_cons, segments, stats, foreign, claimed, Bool.not_false, if_true,
        List.map_cons, shown]
      exact List.perm_middle.trans (ih.cons _)

end Scan

section Kinds
variable {host : Host} {entry : SchemaEntry}

theorem starts_apart (rest other : List Char) : segmentsPrefix.toList ++ rest ≠ registryTable.toList ∧
    statsPrefix.toList ++ rest ≠ registryTable.toList ∧ segmentsPrefix.toList ++ rest ≠ statsPrefix.toList ++ other :=
  ⟨fun same => absurd (congrArg (List.take 2) same) (by simp [segmentsPrefix, registryTable]),
    fun same => absurd (congrArg (List.take 2) same) (by simp [statsPrefix, registryTable]),
    fun same => absurd (congrArg (List.take 2) same) (by simp [segmentsPrefix, statsPrefix])⟩

theorem kind_registry :
    entryKind host entry = .registry ↔ entry.duckTable = true ∧ lowered entry.name = registryTable.toList := by
  unfold entryKind
  cases entry.duckTable with
  | false => simp
  | true =>
    by_cases registry : lowered entry.name = registryTable.toList
    · simp [registry]
    · cases parseFormat4StatsName host entry.name with
      | some indexRef => simp [registry]
      | none => cases parseStorageName host entry.name <;> simp [registry]

theorem kind_stats (writes : WritesUuids host) {indexRef : String} : entryKind host entry = .format4Stats indexRef ↔
    entry.duckTable = true ∧ isCanonicalUUID host indexRef = true ∧
      lowered entry.name = (format4StatsTable indexRef).toList := by
  rw [format4StatsTable, String.toList_append, ← parse_iff writes]
  unfold entryKind
  cases entry.duckTable with
  | false => simp
  | true =>
    by_cases registry : lowered entry.name = registryTable.toList
    · simp only [registry, not_true_eq_false, if_false, if_true, reduceCtorEq, true_and, false_iff]
      exact fun parsed => (starts_apart _ []).2.1 (((parse_iff writes).mp parsed).2.symm.trans registry)
    · cases parsed : parsePrefixedId host entry.name statsPrefix with
      | some other => simp [registry, parseFormat4StatsName, parsed]
      | none => cases parseStorageName host entry.name <;> simp [registry, parseFormat4StatsName, parsed]

theorem kind_segments (writes : WritesUuids host) {indexRef : String} : entryKind host entry = .segments indexRef ↔
    entry.duckTable = true ∧ isCanonicalUUID host indexRef = true ∧
      lowered entry.name = (segmentsTable indexRef).toList := by
  rw [segmentsTable, String.toList_append, ← parse_iff writes]
  unfold entryKind
  cases entry.duckTable with
  | false => simp
  | true =>
    by_cases registry : lowered entry.name = registryTable.toList
    · simp only [registry, not_true_eq_false, if_false, if_true, reduceCtorEq, true_and, false_iff]
      exact fun parsed => (starts_apart _ []).1 (((parse_iff writes).mp parsed).2.symm.trans registry)
    · cases stats : parsePrefixedId host entry.name statsPrefix with
      | some other =>
        simp only [registry, parseFormat4StatsName, stats, not_true_eq_false, if_false, reduceCtorEq, true_and,
          false_iff]
        intro parsed
        have same := ((parse_iff writes).mp parsed).2.symm.trans ((parse_iff writes).mp stats).2
        exact (starts_apart _ _).2.2 same
      | none =>
        cases parsed : parsePrefixedId host entry.name segmentsPrefix <;>
          simp [registry, parseFormat4StatsName, parseStorageName, stats, parsed]

/-- The schema holds an ordinary table of this lower-case name. -/
def holdsTable (catalog : Catalog) (name : String) : Bool :=
  catalog.entries.any fun entry => entry.duckTable && lowered entry.name = name.toList

def claimed (rows : List RegistryRow) (entry : SchemaEntry) : Bool :=
  entry.duckTable && (lowered entry.name = registryTable.toList || rows.any fun row =>
    lowered entry.name = (segmentsTable row.indexRef).toList ||
      row.formatVersion = 4 && lowered entry.name = (format4StatsTable row.indexRef).toList)

def format4Refs (rows : List RegistryRow) : List String :=
  (rows.filter fun row => row.formatVersion = 4).map RegistryRow.indexRef

/-- Names claim an entry just when the id read from its own name does. -/
theorem claimed_by_id (writes : WritesUuids host) {rows : List RegistryRow}
    (canonical : ∀ row ∈ rows, isCanonicalUUID host row.indexRef = true) (entry : SchemaEntry) :
    claimed rows entry = claimedBy host (rows.map RegistryRow.indexRef) (format4Refs rows) entry := by
  rw [Bool.eq_iff_iff, claimed, Bool.and_eq_true, Bool.or_eq_true, List.any_eq_true, decide_eq_true_eq, claimedBy]
  constructor
  · rintro ⟨table, registry | ⟨row, listed, owned⟩⟩
    · rw [kind_registry.mpr ⟨table, registry⟩]
    · rw [Bool.or_eq_true, Bool.and_eq_true, decide_eq_true_eq, decide_eq_true_eq, decide_eq_true_eq] at owned
      rcases owned with segments | ⟨old, stats⟩
      · rw [(kind_segments writes).mpr ⟨table, canonical row listed, segments⟩]
        exact List.contains_iff_mem.mpr (List.mem_map_of_mem listed)
      · rw [(kind_stats writes).mpr ⟨table, canonical row listed, stats⟩]
        exact List.contains_iff_mem.mpr (List.mem_map_of_mem (List.mem_filter.mpr ⟨listed, decide_eq_true old⟩))
  · intro mine
    cases kind : entryKind host entry with
    | registry =>
      obtain ⟨table, registry⟩ := kind_registry.mp kind
      exact ⟨table, .inl registry⟩
    | format4Stats indexRef =>
      rw [kind] at mine
      obtain ⟨table, _, stats⟩ := (kind_stats writes).mp kind
      obtain ⟨row, found, rfl⟩ := List.mem_map.mp (List.contains_iff_mem.mp mine)
      obtain ⟨listed, old⟩ := List.mem_filter.mp found
      exact ⟨table, .inr ⟨row, listed, by simp [stats, of_decide_eq_true old]⟩⟩
    | segments indexRef =>
      rw [kind] at mine
      obtain ⟨table, _, segments⟩ := (kind_segments writes).mp kind
      obtain ⟨row, listed, rfl⟩ := List.mem_map.mp (List.contains_iff_mem.mp mine)
      exact ⟨table, .inr ⟨row, listed, by simp [segments]⟩⟩
    | foreign =>
      rw [kind] at mine
      cases mine

theorem segmentsRef_some {indexRef : String} :
    segmentsRef host entry = some indexRef ↔ entryKind host entry = .segments indexRef := by
  unfold segmentsRef
  cases entryKind host entry <;> simp

theorem statsRef_some {indexRef : String} :
    statsRef host entry = some indexRef ↔ entryKind host entry = .format4Stats indexRef := by
  unfold statsRef
  cases entryKind host entry <;> simp

/-- One schema has no two entries of one name, so each id is read from one entry. -/
theorem refs_nodup (writes : WritesUuids host) {entries : List SchemaEntry}
    (names : (entries.map fun entry => lowered entry.name).Nodup) :
    (entries.filterMap (segmentsRef host)).Nodup ∧ (entries.filterMap (statsRef host)).Nodup := by
  have apart := List.pairwise_map.mp names
  constructor
  · refine List.Pairwise.filterMap _ (fun a b differ => ?_) apart
    rintro indexRef first _ second rfl
    exact differ ((((kind_segments writes).mp (segmentsRef_some.mp first)).2.2).trans
      ((kind_segments writes).mp (segmentsRef_some.mp second)).2.2.symm)
  · refine List.Pairwise.filterMap _ (fun a b differ => ?_) apart
    rintro indexRef first _ second rfl
    exact differ ((((kind_stats writes).mp (statsRef_some.mp first)).2.2).trans
      ((kind_stats writes).mp (statsRef_some.mp second)).2.2.symm)

theorem mem_segmentsRefs (writes : WritesUuids host) {catalog : Catalog} {indexRef : String}
    (canonical : isCanonicalUUID host indexRef = true) :
    indexRef ∈ catalog.entries.filterMap (segmentsRef host) ↔ holdsTable catalog (segmentsTable indexRef) = true := by
  rw [List.mem_filterMap, holdsTable, List.any_eq_true]
  constructor
  · rintro ⟨entry, listed, found⟩
    obtain ⟨table, _, named⟩ := (kind_segments writes).mp (segmentsRef_some.mp found)
    exact ⟨entry, listed, by rw [table, named, decide_eq_true rfl]; rfl⟩
  · rintro ⟨entry, listed, found⟩
    rw [Bool.and_eq_true, decide_eq_true_eq] at found
    exact ⟨entry, listed, segmentsRef_some.mpr ((kind_segments writes).mpr ⟨found.1, canonical, found.2⟩)⟩

end Kinds

section Rows
variable {host : Runtime} {catalog : Catalog} {oid : Nat} {shape : RegistryShape}

/-- Rows of different ids take their own storage out and see all of it. -/
theorem observeRows_each (rows : List RegistryRow) (distinct : (rows.map RegistryRow.indexRef).Nodup)
    (scan : SchemaScan) :
    observeRows host catalog oid shape rows scan =
      (rows.map fun row => observedRow host catalog oid shape row (scan.storage.contains row.indexRef),
        ⟨scan.storage.diff (rows.map RegistryRow.indexRef), scan.format4Stats.diff (format4Refs rows),
          scan.foreign⟩) := by
  induction rows generalizing scan with
  | nil => rfl
  | cons row rest ih =>
    obtain ⟨fresh, others⟩ := List.nodup_cons.mp distinct
    have seen : ∀ later ∈ rest,
        (scan.storage.erase row.indexRef).contains later.indexRef = scan.storage.contains later.indexRef := by
      intro later listed
      have differ : later.indexRef ≠ row.indexRef := fun same => fresh (same ▸ List.mem_map_of_mem listed)
      rw [Bool.eq_iff_iff, List.contains_iff_mem, List.contains_iff_mem, List.mem_erase_of_ne differ]
    have alike : (rest.map fun later => observedRow host catalog oid shape later
          ((scan.storage.erase row.indexRef).contains later.indexRef)) =
        rest.map fun later => observedRow host catalog oid shape later (scan.storage.contains later.indexRef) :=
      List.map_congr_left fun later listed => by rw [seen later listed]
    rw [observeRows, ih others, List.map_cons, List.map_cons, List.diff_cons]
    dsimp only
    rw [alike]
    by_cases old : row.formatVersion = 4
    · simp [format4Refs, old, List.diff_cons]
    · simp [format4Refs, old]

theorem unclaimed_left {left ids : List String} (once : left.Nodup) :
    left.diff ids = left.filter (!ids.contains ·) := by
  rw [once.sdiff_eq_filter]
  exact List.filter_congr fun indexRef _ => by simp

def listedRow (host : Runtime) (catalog : Catalog) (registry : RegistrySnapshot) (row : RegistryRow) : ObservedIndex :=
  observedRow host catalog registry.oid registry.shape row (holdsTable catalog (segmentsTable row.indexRef))

theorem observe_entries (writes : WritesUuids host.toHost)
    (names : (catalog.entries.map fun entry => lowered entry.name).Nodup) {rows : List RegistryRow}
    (distinct : (rows.map RegistryRow.indexRef).Nodup)
    (canonical : ∀ row ∈ rows, isCanonicalUUID host.toHost row.indexRef = true) (registryError : Message) :
    ∃ left, observeRows host catalog oid shape rows
        (catalog.entries.foldl (scanEntry host.toHost catalog.name) ⟨[], [], []⟩) =
          (rows.map fun row => observedRow host catalog oid shape row
            (holdsTable catalog (segmentsTable row.indexRef)), left) ∧
      left.storage.map (unclaimed catalog.name registryError storageUnclaimed) ++
        left.format4Stats.map (unclaimed catalog.name registryError statsUnclaimed) ++ left.foreign ~
        (catalog.entries.filter (!claimed rows ·)).map (stray host.toHost catalog.name registryError) := by
  obtain ⟨refs, stats⟩ := refs_nodup writes names
  obtain ⟨storage, statistics, foreign⟩ := scan_entries catalog.name catalog.entries ⟨[], [], []⟩ refs stats
  rw [List.nil_append] at storage statistics foreign
  refine ⟨_, (observeRows_each rows distinct _).trans (Prod.ext (List.map_congr_left fun row listed => ?_) rfl), ?_⟩
  · have present : List.contains _ row.indexRef = holdsTable catalog (segmentsTable row.indexRef) :=
      Bool.eq_iff_iff.mpr ((List.contains_iff_mem.trans storage.mem_iff).trans
        (mem_segmentsRefs writes (canonical row listed)))
    rw [present]
  · have unlisted := @strays_listed host.toHost catalog.name registryError (rows.map RegistryRow.indexRef)
      (format4Refs rows) catalog.entries
    have by_name : catalog.entries.filter (!claimed rows ·) = catalog.entries.filter
        (!claimedBy host.toHost (rows.map RegistryRow.indexRef) (format4Refs rows) ·) :=
      List.filter_congr fun entry _ => by rw [claimed_by_id writes canonical]
    rw [by_name]
    refine .trans ?_ unlisted
    rw [unclaimed_left (storage.nodup_iff.mpr refs), unclaimed_left (statistics.nodup_iff.mpr stats), foreign]
    refine .append_right _ (.append ?_ ?_)
    · exact (storage.filter _).map _
    · exact (statistics.filter _).map _

end Rows

end NgramCatalogListing
