import NgramIndex.Fallible
import NgramIndex.Maintenance
import NgramIndex.OwnerKeys

/- Lookups in the registry. A column's rows are scanned for by owner key, and a table's
   by name; the stored key of every row is read against the row's own names. -/
namespace NgramOwnerKeys
open NgramGram Utf8 Fallible NgramMaintenance
open NgramIndexRegistry (RegistryShape)

abbrev Message := List UInt8

/-- The catalog and the table entry of a target choose the registry that is read. -/
structure ResolvedTarget where
  schemaName : Name
  tableName : Name
  columnName : Name

structure MetaInfo where
  options : GramOptions
  hwmRowid : Int
  columnName : Name
  guardName : String
  guardToken : String
  deriving DecidableEq

structure RegistryRow where
  indexRef : String
  ownerKey : List UInt8
  schemaName : Name
  tableName : Name
  columnName : Name
  formatVersion : Int
  metaInfo : MetaInfo
  error : Message
  deriving DecidableEq

structure IndexLocation where
  indexRef : String
  columnName : Name
  registryOid : Nat
  guardName : String
  guardToken : String
  deriving DecidableEq

structure OwnedIndex where
  location : IndexLocation
  metaInfo : MetaInfo
  deriving DecidableEq

/-- The columns past the names, as each layout has them. -/
inductive StoredMetadata : RegistryShape → Type where
  | identityOnly : StoredMetadata .identityOnly
  | gramSize (formatVersion gramSize : Option Int) (caseInsensitive : Option Bool) (hwmRowid : Option Int)
      (guardName guardToken : Option String) : StoredMetadata .gramSize
  | current (formatVersion : Option Int) (tokenizer : Option String) (minGram maxGram : Option Int)
      (caseInsensitive : Option Bool) (hwmRowid : Option Int) (guardName guardToken : Option String) :
      StoredMetadata .current

structure StoredRow (shape : RegistryShape) where
  registryVersion : Option Int
  indexId : Option (BitVec 128)
  ownerKey : Option (List UInt8)
  schemaName : Option Name
  tableName : Option Name
  columnName : Option Name
  metadata : StoredMetadata shape

/-- What a catalog has under the registry's name: nothing, something this extension
    did not write, or a table in one of its layouts. -/
inductive RegistryEntry where
  | absent
  | foreign (reason : Message)
  | table (oid : Nat) (shape : RegistryShape) (rows : List (StoredRow shape))

structure RegistrySnapshot where
  oid : Nat
  shape : RegistryShape
  rows : List RegistryRow
  deriving DecidableEq

def emptyName : Name := ⟨[], by decide⟩

structure RegistrySelector where
  ownerKey : List UInt8 := []
  indexRef : String := ""
  schemaName : Name := emptyName
  tableName : Name := emptyName

def registryVersion : Int := 3

def ngramFormatVersion : Int := 6

def containsNulls : Message := bytes "ngram: registry contains NULLs"

def noncanonicalId : Message := bytes "ngram: registry row has a noncanonical ID"

def keyMismatch : Message := bytes "registry row owner key does not match its owner"

def predates (formatVersion version : Int) : Message :=
  bytes (s!"index format {formatVersion} (registry version {version}) predates format {ngramFormatVersion}; drop " ++
    "it with drop_ngram_index(index_ref, catalog = ...) and rebuild it")

def unreadable (formatVersion : Int) : Message :=
  bytes (s!"index format {formatVersion} is not readable by this extension, which uses format " ++
    s!"{ngramFormatVersion}; drop it with drop_ngram_index(index_ref, catalog = ...) and rebuild it")

def isCanonicalUUID (host : Host) (value : String) : Bool :=
  let char i := (bytes value).getD i 0
  let dash := '-'.toUInt8
  if value.utf8ByteSize ≠ 36 ∨ char 8 ≠ dash ∨ char 13 ≠ dash ∨ char 18 ≠ dash ∨ char 23 ≠ dash then false
  else
    match host.uuidOf value with
    | .error _ => false
    | .ok id =>
        char 14 == '4'.toUInt8 && ['8', '9', 'a', 'b'].any (fun variant => char 19 == variant.toUInt8) &&
          host.uuidText id == value

/-- The options, set as far as they are read, and the reason the row is unusable. -/
def readRegistryOptions (tokenizer : String) (minGram maxGram : Int) (options : GramOptions) :
    GramOptions × Message :=
  let reason := bytes s!"registry row records tokenizer {tokenizer} with gram lengths {minGram} to {maxGram}"
  match parseTokenizer tokenizer "ngram" with
  | .error _ => (options, reason)
  | .ok tokenizer =>
      let options := { options with tokenizer := tokenizer }
      if minGram < 1 ∨ maxGram < 1 then (options, reason)
      else
        let options := { options with minGram := minGram.toNat, maxGram := maxGram.toNat }
        match validateGramOptions options "ngram" with
        | .error _ => (options, reason)
        | .ok _ => (options, [])

def identityRow (indexRef : String) (ownerKey : List UInt8) (schema table column : Name) : RegistryRow where
  indexRef := indexRef
  ownerKey := ownerKey
  schemaName := schema
  tableName := table
  columnName := column
  formatVersion := -1
  metaInfo := ⟨⟨.ngram, 3, 3, true⟩, -1, column, "", ""⟩
  error := []

/-- Why a row of the current layout is unusable before its options are read, if it is. -/
def currentReason (host : Host) (version : Int) (row : RegistryRow) (formatVersion hwmRowid : Int) : Message :=
  if version ≠ registryVersion then bytes s!"unsupported registry row version {version}"
  else if row.ownerKey ≠ ownerKey host row.schemaName row.tableName row.columnName then keyMismatch
  else if formatVersion ≠ ngramFormatVersion then unreadable formatVersion
  else if hwmRowid < -1 ∨ hwmRowid ≥ maxRowId then bytes s!"registry row records hwm_rowid {hwmRowid}"
  else []

def materialize (host : Host) (version : Int) (row : RegistryRow) {shape : RegistryShape} :
    StoredMetadata shape → Except Message RegistryRow
  | .identityOnly =>
      if ¬ isCanonicalUUID host row.indexRef then .error noncanonicalId
      else .ok { row with formatVersion := 3, error := predates 3 version }
  | .gramSize (some formatVersion) (some _) (some _) (some _) (some guardName) (some guardToken) =>
      if ¬ isCanonicalUUID host row.indexRef then .error noncanonicalId
      else .ok { row with
        formatVersion := formatVersion
        metaInfo := { row.metaInfo with guardName := guardName, guardToken := guardToken }
        error := predates formatVersion version }
  | .current (some formatVersion) (some tokenizer) (some minGram) (some maxGram) (some caseInsensitive)
      (some hwmRowid) (some guardName) (some guardToken) =>
      if ¬ isCanonicalUUID host row.indexRef then .error noncanonicalId
      else
        let options := { row.metaInfo.options with caseInsensitive := caseInsensitive }
        let reason := currentReason host version row formatVersion hwmRowid
        let read := if reason ≠ [] then (options, reason) else readRegistryOptions tokenizer minGram maxGram options
        .ok { row with
          formatVersion := formatVersion
          metaInfo := ⟨read.1, hwmRowid, row.metaInfo.columnName, guardName, guardToken⟩
          error := read.2 }
  | _ => .error containsNulls

def RegistrySelector.names (host : Host) (selector : RegistrySelector) (schema table : Name) : Bool :=
  selector.tableName.bytes = [] ||
    host.ciEquals schema selector.schemaName && host.ciEquals table selector.tableName

/-- None for a row that the selector's names do not choose. -/
def readRow (host : Host) (selector : RegistrySelector) {shape : RegistryShape} (row : StoredRow shape) :
    Except Message (Option RegistryRow) :=
  match row.registryVersion, row.indexId, row.ownerKey, row.schemaName, row.tableName, row.columnName with
  | some version, some id, some key, some schema, some table, some column =>
      if selector.names host schema table then
        (materialize host version (identityRow (host.uuidText id) key schema table column) row.metadata).map some
      else .ok none
  | _, _, _, _, _, _ => .error containsNulls

/-- The rows that the native filters let through. -/
def scanRows (host : Host) (selector : RegistrySelector) {shape : RegistryShape} (rows : List (StoredRow shape)) :
    Except Message (List (StoredRow shape)) := do
  let wanted ← if selector.indexRef = "" then .ok none else (host.uuidOf selector.indexRef).map some
  .ok (rows.filter fun row => (wanted = none || row.indexId = wanted) &&
    (selector.ownerKey = [] || row.ownerKey = some selector.ownerKey))

def readRegistry (host : Host) (entry : RegistryEntry) (selector : RegistrySelector) :
    Except Message RegistrySnapshot :=
  match entry with
  | .absent => .ok ⟨0, .current, []⟩
  | .foreign reason => .error reason
  | .table oid shape rows => do
      let scanned ← scanRows host selector rows
      let read ← scanned.mapM (readRow host selector)
      .ok ⟨oid, shape, read.reduceOption⟩

def rowBelongsTo (host : Host) (row : RegistryRow) (target : ResolvedTarget) : Bool :=
  if target.columnName.bytes ≠ [] then
    row.ownerKey = ownerKey host target.schemaName target.tableName target.columnName
  else host.ciEquals row.schemaName target.schemaName && host.ciEquals row.tableName target.tableName

def locationOf (row : RegistryRow) (registryOid : Nat) : IndexLocation where
  indexRef := row.indexRef
  columnName := row.columnName
  registryOid := registryOid
  guardName := row.metaInfo.guardName
  guardToken := row.metaInfo.guardToken

def unusable (row : RegistryRow) (target : ResolvedTarget) : Message :=
  bytes "ngram: the index on " ++ target.tableName.bytes ++ bytes "." ++ row.columnName.bytes ++
    bytes " (" ++ bytes row.indexRef ++ bytes ") is unusable: " ++ row.error

def ownedBy (belongs : RegistryRow → Bool) (target : ResolvedTarget) (lenient : Bool) (oid : Nat) :
    List RegistryRow → Except Message (List OwnedIndex)
  | [] => .ok []
  | row :: rest =>
      if ¬ belongs row then ownedBy belongs target lenient oid rest
      else if row.error ≠ [] then
        if lenient then ownedBy belongs target lenient oid rest else .error (unusable row target)
      else do
        let others ← ownedBy belongs target lenient oid rest
        .ok (⟨locationOf row oid, row.metaInfo⟩ :: others)

def owned (host : Host) (registry : RegistrySnapshot) (target : ResolvedTarget) (lenient : Bool) :
    Except Message (List OwnedIndex) :=
  ownedBy (rowBelongsTo host · target) target lenient registry.oid registry.rows

def keySelector (host : Host) (target : ResolvedTarget) : RegistrySelector where
  ownerKey := ownerKey host target.schemaName target.tableName target.columnName

def nameSelector (target : ResolvedTarget) : RegistrySelector where
  schemaName := target.schemaName
  tableName := target.tableName

def ownedIndexes (host : Host) (entry : RegistryEntry) (target : ResolvedTarget) (lenient : Bool) :
    Except Message (List OwnedIndex) :=
  let selector := if target.columnName.bytes ≠ [] then keySelector host target else nameSelector target
  match readRegistry host entry selector with
  | .error e => if lenient then .ok [] else .error e
  | .ok registry => owned host registry target lenient

/-- A row's three names against a target's, as the comparison of Verdict makes it. -/
def namesMatch (host : Host) (row : RegistryRow) (target : ResolvedTarget) : Bool :=
  host.ciEquals row.schemaName target.schemaName && host.ciEquals row.tableName target.tableName &&
    host.ciEquals row.columnName target.columnName

/-- The lookup of a column that compares names only: the table's rows are read by name,
    as for a target without a column, and the column's are chosen by name. -/
def nameLookup (host : Host) (entry : RegistryEntry) (target : ResolvedTarget) (lenient : Bool) :
    Except Message (List OwnedIndex) :=
  match readRegistry host entry (nameSelector target) with
  | .error e => if lenient then .ok [] else .error e
  | .ok registry => ownedBy (namesMatch host · target) target lenient registry.oid registry.rows

section Rows
variable {host : Host} {shape : RegistryShape}

theorem message_ne_nil {text rest : String} (starts : bytes text ≠ []) : bytes (text ++ rest) ≠ [] := by
  rw [bytes_eq_encode] at starts ⊢
  rw [String.toList_append, encode_append]
  exact fun empty => starts (List.append_eq_nil_iff.mp empty).1

/-- What reading a row past its identity leaves, and what its usability says. -/
structure Keeps (host : Host) (row out : RegistryRow) : Prop where
  ownerKey : out.ownerKey = row.ownerKey
  schemaName : out.schemaName = row.schemaName
  tableName : out.tableName = row.tableName
  columnName : out.columnName = row.columnName
  keyed : out.error = [] → out.ownerKey = NgramOwnerKeys.ownerKey host out.schemaName out.tableName out.columnName

theorem currentReason_nil {version formatVersion hwmRowid : Int} {row : RegistryRow}
    (none : currentReason host version row formatVersion hwmRowid = []) :
    row.ownerKey = NgramOwnerKeys.ownerKey host row.schemaName row.tableName row.columnName := by
  have unsupported : bytes s!"unsupported registry row version {version}" ≠ [] := by
    repeat apply message_ne_nil
    decide
  unfold currentReason at none
  split at none
  · exact absurd none unsupported
  · by_contra other
    rw [if_pos other] at none
    exact absurd none (by decide)

theorem materialize_keeps {version : Int} {row out : RegistryRow} {metadata : StoredMetadata shape}
    (run : materialize host version row metadata = .ok out) : Keeps host row out := by
  have old : ∀ formatVersion, predates formatVersion version ≠ [] := by
    intro formatVersion
    unfold predates
    repeat apply message_ne_nil
    decide
  unfold materialize at run
  split at run
  · obtain rfl := ok_inj (check_ok run).2
    exact ⟨rfl, rfl, rfl, rfl, fun usable => absurd usable (old 3)⟩
  · obtain rfl := ok_inj (check_ok run).2
    exact ⟨rfl, rfl, rfl, rfl, fun usable => absurd usable (old _)⟩
  · obtain rfl := ok_inj (check_ok run).2
    refine ⟨rfl, rfl, rfl, rfl, fun usable => ?_⟩
    split at usable
    · rename_i reason
      exact absurd usable reason
    · rename_i none
      exact currentReason_nil (not_not.mp none)
  · cases run

theorem every_name (schema table : Name) : ({} : RegistrySelector).names host schema table = true := rfl

theorem readRow_cases (host : Host) (row : StoredRow shape) :
    (∀ selector, readRow host selector row = .error containsNulls) ∨
      ∃ version identity, row.ownerKey = some identity.ownerKey ∧ ∀ selector, readRow host selector row =
        if selector.names host identity.schemaName identity.tableName then
          (materialize host version identity row.metadata).map some
        else .ok none := by
  match row with
  | ⟨some version, some id, some key, some schema, some table, some column, metadata⟩ =>
    exact .inr ⟨version, identityRow (host.uuidText id) key schema table column, rfl, fun _ => rfl⟩
  | ⟨none, _, _, _, _, _, _⟩ => exact .inl fun _ => rfl
  | ⟨some _, none, _, _, _, _, _⟩ => exact .inl fun _ => rfl
  | ⟨some _, some _, none, _, _, _, _⟩ => exact .inl fun _ => rfl
  | ⟨some _, some _, some _, none, _, _, _⟩ => exact .inl fun _ => rfl
  | ⟨some _, some _, some _, some _, none, _, _⟩ => exact .inl fun _ => rfl
  | ⟨some _, some _, some _, some _, some _, none, _⟩ => exact .inl fun _ => rfl

theorem readRow_iff {selector : RegistrySelector} {row : StoredRow shape} {out : RegistryRow} :
    readRow host selector row = .ok (some out) ↔
      readRow host {} row = .ok (some out) ∧ selector.names host out.schemaName out.tableName = true := by
  rcases readRow_cases host row with nulls | ⟨version, identity, _, reads⟩
  · rw [nulls, nulls]
    exact ⟨nofun, fun both => nomatch both.1⟩
  · rw [reads, reads, if_pos (every_name _ _)]
    cases run : materialize host version identity row.metadata with
    | error e =>
      refine ⟨fun some => ?_, fun both => nomatch both.1⟩
      split at some
      · cases some
      · cases some
    | ok read =>
      have kept := materialize_keeps run
      rw [← kept.schemaName, ← kept.tableName]
      by_cases chosen : selector.names host read.schemaName read.tableName = true
      · rw [if_pos chosen]
        refine ⟨fun same => ⟨same, ?_⟩, And.left⟩
        obtain rfl := Option.some.inj (ok_inj same)
        exact chosen
      · rw [if_neg chosen]
        constructor
        · intro same
          cases ok_inj same
        · rintro ⟨same, other⟩
          obtain rfl := Option.some.inj (ok_inj same)
          exact absurd other chosen

theorem readRow_keeps {selector : RegistrySelector} {row : StoredRow shape} {out : RegistryRow}
    (run : readRow host selector row = .ok (some out)) : row.ownerKey = some out.ownerKey ∧
      (out.error = [] → out.ownerKey = ownerKey host out.schemaName out.tableName out.columnName) := by
  have alone := (readRow_iff.mp run).1
  rcases readRow_cases host row with nulls | ⟨version, identity, stored, reads⟩
  · cases (nulls {}).symm.trans alone
  · rw [reads, if_pos (every_name _ _)] at alone
    cases read : materialize host version identity row.metadata with
    | error e =>
      rw [read] at alone
      cases alone
    | ok other =>
      rw [read] at alone
      obtain rfl := Option.some.inj (ok_inj alone)
      have kept := materialize_keeps read
      exact ⟨stored.trans (congrArg some kept.ownerKey.symm), kept.keyed⟩

theorem readRow_total {selector : RegistrySelector} {row : StoredRow shape} {out : Option RegistryRow}
    (alone : readRow host {} row = .ok out) : ∃ read, readRow host selector row = .ok read := by
  rcases readRow_cases host row with nulls | ⟨version, identity, _, reads⟩
  · cases (nulls {}).symm.trans alone
  · rw [reads, if_pos (every_name _ _)] at alone
    rw [reads]
    split
    · exact ⟨out, alone⟩
    · exact ⟨none, rfl⟩

end Rows

section Reads
variable {host : Host} {shape : RegistryShape} {selector : RegistrySelector}

/-- A read without an index ID keeps a row by its stored key and its names. -/
def chooses (host : Host) (selector : RegistrySelector) (row : RegistryRow) : Bool :=
  (selector.ownerKey = [] || row.ownerKey = selector.ownerKey) &&
    selector.names host row.schemaName row.tableName

def readAlone (host : Host) (row : StoredRow shape) : Option RegistryRow := (readRow host {} row).toOption.join

def RegistryEntry.readable (host : Host) : RegistryEntry → List RegistryRow
  | .table _ _ rows => rows.filterMap (readAlone host)
  | _ => []

def RegistryEntry.oid : RegistryEntry → Nat
  | .table oid _ _ => oid
  | _ => 0

theorem readAlone_some {row : StoredRow shape} {out : RegistryRow} :
    readAlone host row = some out ↔ readRow host {} row = .ok (some out) := toOption_join

theorem read_chosen (row : StoredRow shape) :
    (if selector.ownerKey = [] || row.ownerKey = some selector.ownerKey then
      (readRow host selector row).toOption.bind id else none) = (readAlone host row).filter (chooses host selector) := by
  ext out
  rw [Option.filter_eq_some_iff, readAlone_some]
  constructor
  · intro found
    split at found
    · rename_i keyed
      obtain ⟨alone, named⟩ := readRow_iff.mp (toOption_join.mp found)
      refine ⟨alone, ?_⟩
      rw [(readRow_keeps alone).1] at keyed
      simpa [chooses, named] using keyed
    · cases found
  · rintro ⟨alone, chosen⟩
    obtain ⟨keyed, named⟩ := Bool.and_eq_true_iff.mp chosen
    rw [if_pos]
    · exact toOption_join.mpr (readRow_iff.mpr ⟨alone, named⟩)
    · rw [(readRow_keeps alone).1]
      simpa using keyed

theorem readRegistry_table (anyId : selector.indexRef = "") (oid : Nat) (rows : List (StoredRow shape)) :
    readRegistry host (.table oid shape rows) selector = (do
      let read ← (rows.filter fun row => selector.ownerKey = [] || row.ownerKey = some selector.ownerKey).mapM
        (readRow host selector)
      .ok ⟨oid, shape, read.reduceOption⟩) := by
  rw [readRegistry, scanRows, if_pos anyId]
  rfl

theorem readRegistry_rows (anyId : selector.indexRef = "") {entry : RegistryEntry} {registry : RegistrySnapshot}
    (run : readRegistry host entry selector = .ok registry) :
    registry.oid = entry.oid ∧ registry.rows = (entry.readable host).filter (chooses host selector) := by
  cases entry with
  | absent =>
    obtain rfl := ok_inj run
    exact ⟨rfl, rfl⟩
  | foreign reason => cases run
  | table oid shape rows =>
    rw [readRegistry_table anyId] at run
    obtain ⟨read, each, run⟩ := bind_ok run
    obtain rfl := ok_inj run
    refine ⟨rfl, ?_⟩
    have kept := mapM_filterMap id each
    rw [List.filterMap_filter] at kept
    refine kept.trans ?_
    rw [RegistryEntry.readable, List.filter_filterMap]
    exact List.filterMap_congr fun row _ => read_chosen row

theorem readRegistry_total (anyId : selector.indexRef = "") {entry : RegistryEntry} {whole : RegistrySnapshot}
    (run : readRegistry host entry {} = .ok whole) : ∃ registry, readRegistry host entry selector = .ok registry := by
  cases entry with
  | absent => exact ⟨_, rfl⟩
  | foreign reason => cases run
  | table oid shape rows =>
    rw [readRegistry_table rfl] at run
    obtain ⟨read, each, _⟩ := bind_ok run
    have total : ∀ row ∈ rows, ∃ out, readRow host selector row = .ok out := by
      intro row listed
      obtain ⟨out, _, found⟩ := mapM_ok_left each row (List.mem_filter.mpr ⟨listed, rfl⟩)
      exact readRow_total found
    obtain ⟨found, all⟩ := mapM_total (rows.filter fun row => selector.ownerKey = [] ||
      row.ownerKey = some selector.ownerKey) fun row listed => total row (List.mem_filter.mp listed).1
    refine ⟨⟨oid, shape, found.reduceOption⟩, ?_⟩
    rw [readRegistry_table anyId]
    exact bind_of_ok all

end Reads

section Lookup
variable {host : Host} {target : ResolvedTarget}

theorem readable_keyed {entry : RegistryEntry} {row : RegistryRow} (listed : row ∈ entry.readable host)
    (usable : row.error = []) : row.ownerKey = ownerKey host row.schemaName row.tableName row.columnName := by
  cases entry with
  | table oid shape rows =>
    obtain ⟨stored, _, read⟩ := List.mem_filterMap.mp listed
    exact (readRow_keeps (readAlone_some.mp read)).2 usable
  | _ => cases listed

theorem belongs_names (folds : host.FoldsBytes) {row : RegistryRow}
    (keyed : row.ownerKey = ownerKey host row.schemaName row.tableName row.columnName) :
    row.ownerKey = ownerKey host target.schemaName target.tableName target.columnName ↔
      namesMatch host row target = true := by
  rw [keyed, ownerKey_eq_iff folds, namesMatch, Bool.and_eq_true, Bool.and_eq_true, and_assoc]

theorem keySelector_chooses (row : RegistryRow) : chooses host (keySelector host target) row =
    decide (row.ownerKey = ownerKey host target.schemaName target.tableName target.columnName) := by
  have names : (keySelector host target).names host row.schemaName row.tableName = true := rfl
  rw [chooses, names, Bool.and_true, keySelector, decide_eq_false (ownerKey_ne_nil _ _ _), Bool.false_or]

theorem rowBelongsTo_column (column : target.columnName.bytes ≠ []) (row : RegistryRow) :
    rowBelongsTo host row target =
      decide (row.ownerKey = ownerKey host target.schemaName target.tableName target.columnName) := by
  rw [rowBelongsTo, if_pos column]

theorem names_chosen {row : RegistryRow} (same : namesMatch host row target = true) :
    chooses host (nameSelector target) row = true := by
  rw [namesMatch, Bool.and_eq_true] at same
  rw [chooses, RegistrySelector.names, nameSelector, same.1, Bool.or_true, Bool.and_true]
  rfl

theorem chosen_alike (folds : host.FoldsBytes) (column : target.columnName.bytes ≠ []) {row : RegistryRow}
    (keyed : row.ownerKey = ownerKey host row.schemaName row.tableName row.columnName) :
    (chooses host (keySelector host target) row && rowBelongsTo host row target) =
      (chooses host (nameSelector target) row && namesMatch host row target) := by
  have same := @belongs_names host target folds row keyed
  rw [rowBelongsTo_column column, keySelector_chooses, Bool.and_self]
  by_cases mine : namesMatch host row target = true
  · rw [decide_eq_true (same.mpr mine), names_chosen mine, mine]
    rfl
  · rw [decide_eq_false fun owned => mine (same.mp owned), Bool.eq_false_of_not_eq_true mine, Bool.and_false]

/-- Of rows with texts for names, a table owns the same as in the registry of texts. -/
theorem table_belongs (folds : host.FoldsBytes) (table : target.columnName.bytes = []) {row : RegistryRow}
    {stored : NgramIndexRegistry.RegistryRow} {resolved : NgramIndexRegistry.Target}
    {s : stored.schemaName.utf8ByteSize < 2 ^ 64} {t : stored.tableName.utf8ByteSize < 2 ^ 64}
    {s' : resolved.schemaName.utf8ByteSize < 2 ^ 64} {t' : resolved.tableName.utf8ByteSize < 2 ^ 64}
    (rowSchema : row.schemaName = nameOf _ s) (rowTable : row.tableName = nameOf _ t)
    (schema : target.schemaName = nameOf _ s') (name : target.tableName = nameOf _ t') :
    rowBelongsTo host row target = stored.belongsTo resolved := by
  rw [rowBelongsTo, if_neg (not_not.mpr table), rowSchema, rowTable, schema, name, text_ciEquals folds,
    text_ciEquals folds, NgramIndexRegistry.RegistryRow.belongsTo]

theorem ownedBy_filter (belongs chosen : RegistryRow → Bool) (lenient : Bool) (oid : Nat) (rows : List RegistryRow) :
    ownedBy belongs target lenient oid (rows.filter chosen) =
      ownedBy (fun row => chosen row && belongs row) target lenient oid rows := by
  induction rows with
  | nil => rfl
  | cons row rest ih =>
    cases mine : chosen row with
    | false =>
      rw [List.filter_cons_of_neg (by simp [mine]), ih, ownedBy]
      simp [mine]
    | true =>
      rw [List.filter_cons_of_pos mine, ownedBy, ownedBy, ih, mine, Bool.true_and]

theorem ownedBy_congr {belongs other : RegistryRow → Bool} {lenient : Bool} {oid : Nat} {rows : List RegistryRow}
    (same : ∀ row ∈ rows, belongs row = other row) :
    ownedBy belongs target lenient oid rows = ownedBy other target lenient oid rows := by
  induction rows with
  | nil => rfl
  | cons row rest ih =>
    rw [ownedBy, ownedBy, same row List.mem_cons_self, ih fun later listed => same later (List.mem_cons_of_mem _ listed)]

/-- Two keys are equal exactly when the names compare equal, one by one. So a lookup by
    owner key and one by the three names choose the same usable rows of any registry
    that both can read, and answer alike, unusable rows included, where every stored
    key is its row's own. -/
theorem owner_keys_agree (host : Host) (folds : host.FoldsBytes) :
    (∀ schema table column schema' table' column',
      ownerKey host schema table column = ownerKey host schema' table' column' ↔
        host.ciEquals schema schema' = true ∧ host.ciEquals table table' = true ∧
          host.ciEquals column column' = true) ∧
    (∀ entry target, target.columnName.bytes ≠ [] → ∀ keyed named,
      readRegistry host entry (keySelector host target) = .ok keyed →
      readRegistry host entry (nameSelector target) = .ok named →
      (keyed.rows.filter fun row => rowBelongsTo host row target && row.error = []) =
        named.rows.filter fun row => namesMatch host row target && row.error = []) ∧
    (∀ entry target, target.columnName.bytes ≠ [] → ∀ whole, readRegistry host entry {} = .ok whole →
      (∀ row ∈ whole.rows, row.ownerKey = ownerKey host row.schemaName row.tableName row.columnName) →
      ∀ lenient, ownedIndexes host entry target lenient = nameLookup host entry target lenient) := by
  refine ⟨fun _ _ _ _ _ _ => ownerKey_eq_iff folds, ?_, ?_⟩
  · intro entry target column keyed named byKey byName
    rw [(readRegistry_rows rfl byKey).2, (readRegistry_rows rfl byName).2, List.filter_filter, List.filter_filter]
    refine List.filter_congr fun row listed => ?_
    by_cases usable : row.error = []
    · have alike := chosen_alike folds column (readable_keyed listed usable)
      rw [decide_eq_true usable, Bool.and_true, Bool.and_true, Bool.and_comm, alike, Bool.and_comm]
    · rw [decide_eq_false usable, Bool.and_false, Bool.and_false, Bool.false_and, Bool.false_and]
  · intro entry target column whole run keyed lenient
    obtain ⟨byKey, key_run⟩ := @readRegistry_total host (keySelector host target) rfl entry whole run
    obtain ⟨byName, name_run⟩ := @readRegistry_total host (nameSelector target) rfl entry whole run
    obtain ⟨key_oid, key_rows⟩ := readRegistry_rows rfl key_run
    obtain ⟨name_oid, name_rows⟩ := readRegistry_rows rfl name_run
    have readable : whole.rows = entry.readable host := by
      rw [(readRegistry_rows rfl run).2]
      exact List.filter_eq_self.mpr fun _ _ => rfl
    simp only [ownedIndexes, nameLookup, if_pos column, key_run, name_run, owned]
    rw [key_oid, name_oid, key_rows, name_rows, ownedBy_filter, ownedBy_filter]
    refine ownedBy_congr fun row listed => ?_
    rw [← readable] at listed
    exact chosen_alike folds column (keyed row listed)

end Lookup

def hexDigits : List Char := "0123456789abcdef".toList

def plainUuidText (id : BitVec 128) : String :=
  let digits := (List.range 32).map fun i => hexDigits.getD (id.toNat / 16 ^ (31 - i) % 16) '0'
  String.ofList (digits.take 8 ++ '-' :: (digits.drop 8).take 4 ++ '-' :: (digits.drop 12).take 4 ++
    '-' :: (digits.drop 16).take 4 ++ '-' :: digits.drop 20)

def plainUuidOf (text : String) : Except Message (BitVec 128) :=
  let digits := text.toList.filter (· != '-')
  if digits.length ≠ 32 ∨ digits.any (· ∉ hexDigits) then .error (bytes "Could not convert string to INT128")
  else .ok (BitVec.ofNat 128 (digits.foldl (fun sum digit => sum * 16 + hexDigits.idxOf digit) 0))

def plainHost : Host where
  lower name := ⟨name.bytes.map asciiToLower, by rw [List.length_map]; exact name.sized⟩
  ciEquals a b := a.bytes.map asciiToLower = b.bytes.map asciiToLower
  uuidText := plainUuidText
  uuidOf := plainUuidOf

theorem plainHost_folds : plainHost.FoldsBytes where
  lower _ := rfl
  ciEquals a b := by
    rw [← List.forall₂_map_right_iff, ← List.forall₂_map_left_iff, List.forall₂_eq_eq_eq]
    exact decide_eq_true_iff

def mainName : Name := nameOf "Main" (by decide)
def logsName : Name := nameOf "Logs" (by decide)
def bodyName : Name := nameOf "body" (by decide)

def logsRow : StoredRow .current where
  registryVersion := some 3
  indexId := some 0x0123456789ab4cde8f0123456789abcd#128
  ownerKey := some (ownerKey plainHost mainName logsName bodyName)
  schemaName := some mainName
  tableName := some logsName
  columnName := some bodyName
  metadata := .current (some 6) (some "ngram") (some 3) (some 3) (some true) (some 41) (some "guard") (some "token")

def logsFound : RegistryRow where
  indexRef := "01234567-89ab-4cde-8f01-23456789abcd"
  ownerKey := ownerKey plainHost mainName logsName bodyName
  schemaName := mainName
  tableName := logsName
  columnName := bodyName
  formatVersion := 6
  metaInfo := ⟨⟨.ngram, 3, 3, true⟩, 41, bodyName, "guard", "token"⟩
  error := []

def loudTarget : ResolvedTarget := ⟨nameOf "MAIN" (by decide), nameOf "LOGS" (by decide), nameOf "Body" (by decide)⟩

/-- An index found under its names in other case, and names cut elsewhere told apart. -/
theorem other_case_found :
    ownedIndexes plainHost (.table 7 .current [logsRow]) loudTarget false =
      nameLookup plainHost (.table 7 .current [logsRow]) loudTarget false ∧
    nameLookup plainHost (.table 7 .current [logsRow]) loudTarget false =
      .ok [⟨locationOf logsFound 7, logsFound.metaInfo⟩] ∧
    ownerKey plainHost (nameOf "a" (by decide)) (nameOf "b_c" (by decide)) bodyName ≠
      ownerKey plainHost (nameOf "a_b" (by decide)) (nameOf "c" (by decide)) bodyName := by
  have agree := owner_keys_agree plainHost plainHost_folds
  have found : readRegistry plainHost (.table 7 .current [logsRow]) {} = .ok ⟨7, .current, [logsFound]⟩ := by
    decide +kernel
  refine ⟨agree.2.2 _ _ (by decide) _ found ?_ false, by decide +kernel, fun same => ?_⟩
  · rintro row listed
    obtain rfl := List.mem_singleton.mp listed
    rfl
  · exact absurd ((agree.1 _ _ _ _ _ _).mp same).1 (by decide)

end NgramOwnerKeys
