import NgramIndex.CatalogListing

/- What the listing of an index says, against what its readers decide for themselves: the
   verdict that a search takes and the columns that maintenance accepts. -/
namespace NgramCatalogListing
open NgramGram NgramOwnerKeys NgramRowIdGuard Utf8 Fallible
open NgramIndexRegistry (RegistryShape hex)
open NgramSearchInit (Verdict verdictOn)
open scoped List

section Verdict

abbrev IndexVerdict := Verdict Message (Option MetaInfo)

def registryChanged : Message := bytes "ngram: registry changed after the index operation was prepared"

def rowChanged (indexRef : String) : Message :=
  bytes s!"ngram: registry row {indexRef} changed after the index operation was prepared"

/-- The row of a location in the registry as it stands, or what has changed about it. -/
def locatedRow (host : Host) (catalog : Catalog) (target : ResolvedTarget) (location : IndexLocation) :
    Except Message (Option RegistryRow) :=
  match readRegistry host catalog.registry { indexRef := location.indexRef } with
  | .error reason => .error reason
  | .ok registry =>
    if registry.oid = 0 then .ok none
    else if registry.oid ≠ location.registryOid then .error registryChanged
    else
      match registry.rows.find? fun row => row.indexRef == location.indexRef with
      | none => .ok none
      | some row =>
        if ¬ namesMatch host row { target with columnName := location.columnName } then
          .error (rowChanged location.indexRef)
        else .ok (some row)

/-- With a base table the row must be readable, and the table's rowid guard is consulted. -/
def verdict (host : Runtime) (catalog : Catalog) (target : ResolvedTarget) (location : IndexLocation)
    (guard : Option BaseTable) : Except Message IndexVerdict :=
  match locatedRow host.toHost catalog target location, guard with
  | .ok (some row), some table =>
    if row.error ≠ [] then
      .error (bytes "ngram: the index on " ++ row.tableName.bytes ++ bytes "." ++ row.columnName.bytes ++
        bytes s!" ({row.indexRef}) is unusable: " ++ row.error)
    else .ok (verdictOn [] none (.ok (some (rowIdGuardReason host table row.metaInfo, some row.metaInfo))))
  | located, _ => .ok (verdictOn [] none (located.map (Option.map fun row => ([], some row.metaInfo))))

def locateIndex (host : Runtime) (catalog : Catalog) (target : ResolvedTarget) (location : IndexLocation) :
    Except Message IndexVerdict :=
  verdict host catalog target location none

def validateIndex (host : Runtime) (catalog : Catalog) (target : ResolvedTarget) (location : IndexLocation)
    (table : BaseTable) : Except Message IndexVerdict :=
  verdict host catalog target location (some table)

structure MaintenanceColumn where
  columnName : Name
  location : IndexLocation
  metaInfo : Option MetaInfo
  deriving DecidableEq

/-- An indexed column of a base table for ngram_refresh or ngram_compact. -/
def resolveMaintenanceColumn (host : Runtime) (catalog : Catalog) (fn : String) (target : ResolvedTarget)
    (table : BaseTable) (location : IndexLocation) : Except Message MaintenanceColumn := do
  if ¬ table.columnExists host.toHost location.columnName then
    .error (bytes s!"{fn}: the ngram index on " ++ target.tableName.bytes ++ bytes " references column " ++
      location.columnName.bytes ++ bytes ", which no longer exists; drop the index with PRAGMA drop_ngram_index")
  else
    let verdict ← validateIndex host catalog target location table
    match verdict.availability with
    | .changed => .error verdict.reason
    | .absent => .error (bytes s!"{fn}: index storage is unavailable")
    | .available =>
      if verdict.reason ≠ [] then
        .error (bytes s!"{fn}: the ngram index on " ++ target.tableName.bytes ++ bytes "." ++
          location.columnName.bytes ++ bytes " cannot be maintained incrementally because " ++ verdict.reason ++
          bytes ". Rebuild it: PRAGMA drop_ngram_index('" ++ target.tableName.bytes ++ bytes "', '" ++
          location.columnName.bytes ++ bytes "') then PRAGMA create_ngram_index('" ++ target.tableName.bytes ++
          bytes "', '" ++ location.columnName.bytes ++ bytes "')")
      else .ok ⟨location.columnName, location, verdict.metaInfo⟩

end Verdict

section Identity
variable {host : Host} {shape : RegistryShape}

theorem materialize_identity {version : Int} {row out : RegistryRow} {metadata : StoredMetadata shape}
    (run : materialize host version row metadata = .ok out) :
    out.indexRef = row.indexRef ∧ isCanonicalUUID host row.indexRef = true := by
  unfold materialize at run
  split at run
  · obtain ⟨canonical, same⟩ := check_ok run
    exact ⟨by rw [← ok_inj same], not_not.mp canonical⟩
  · obtain ⟨canonical, same⟩ := check_ok run
    exact ⟨by rw [← ok_inj same], not_not.mp canonical⟩
  · obtain ⟨canonical, same⟩ := check_ok run
    exact ⟨by rw [← ok_inj same], not_not.mp canonical⟩
  · cases run

theorem readRow_identity {row : StoredRow shape} {out : RegistryRow} (run : readRow host {} row = .ok (some out)) :
    ∃ id, row.indexId = some id ∧ out.indexRef = host.uuidText id ∧ isCanonicalUUID host out.indexRef = true := by
  unfold readRow at run
  split at run
  next version id key schema table column _ stored _ _ _ _ =>
    rw [if_pos (every_name _ _)] at run
    cases read : materialize host version (identityRow (host.uuidText id) key schema table column) row.metadata with
    | error e =>
      rw [read] at run
      cases run
    | ok other =>
      rw [read] at run
      obtain rfl := Option.some.inj (ok_inj run)
      obtain ⟨same, canonical⟩ := materialize_identity read
      exact ⟨id, stored, same, by rwa [same]⟩
  · cases run

theorem readRegistry_cases {entry : RegistryEntry} {registry : RegistrySnapshot}
    (run : readRegistry host entry {} = .ok registry) :
    entry = .absent ∧ registry = ⟨0, .current, []⟩ ∨
      ∃ oid shape, ∃ stored : List (StoredRow shape), entry = .table oid shape stored ∧
        registry = ⟨oid, shape, stored.filterMap (readAlone host)⟩ ∧
        ∀ row ∈ stored, ∃ out, readRow host {} row = .ok out := by
  cases entry with
  | absent =>
    obtain rfl := ok_inj run
    exact .inl ⟨rfl, rfl⟩
  | foreign reason => cases run
  | table oid shape stored =>
    rw [readRegistry_table rfl] at run
    obtain ⟨read, each, same⟩ := bind_ok run
    have every : (stored.filter fun row => ({} : RegistrySelector).ownerKey = [] ||
        row.ownerKey = some ({} : RegistrySelector).ownerKey) = stored := List.filter_eq_self.mpr fun _ _ => rfl
    rw [every] at each
    refine .inr ⟨oid, shape, stored, rfl, (ok_inj same).symm.trans ?_, fun row listed => ?_⟩
    · exact congrArg (RegistrySnapshot.mk oid shape) (mapM_filterMap id each)
    · obtain ⟨out, _, found⟩ := mapM_ok_left each row listed
      exact ⟨out, found⟩

theorem readRegistry_canonical {entry : RegistryEntry} {registry : RegistrySnapshot}
    (run : readRegistry host entry {} = .ok registry) {row : RegistryRow} (listed : row ∈ registry.rows) :
    isCanonicalUUID host row.indexRef = true := by
  rcases readRegistry_cases run with ⟨_, rfl⟩ | ⟨oid, shape, stored, _, rfl, _⟩
  · cases listed
  · obtain ⟨source, _, read⟩ := List.mem_filterMap.mp listed
    obtain ⟨_, _, _, canonical⟩ := readRow_identity (readAlone_some.mp read)
    exact canonical

theorem readRegistry_ref (writes : WritesUuids host) {entry : RegistryEntry} {registry : RegistrySnapshot}
    (run : readRegistry host entry {} = .ok registry) (distinct : (registry.rows.map RegistryRow.indexRef).Nodup)
    {row : RegistryRow} (listed : row ∈ registry.rows) :
    ∃ found, readRegistry host entry { indexRef := row.indexRef } = .ok found ∧ found.oid = registry.oid ∧
      (found.rows.find? fun other => other.indexRef == row.indexRef) = some row := by
  rcases readRegistry_cases run with ⟨_, rfl⟩ | ⟨oid, shape, stored, rfl, rfl, each⟩
  · cases listed
  obtain ⟨source, present, read⟩ := List.mem_filterMap.mp listed
  obtain ⟨key, kept, text, canonical⟩ := readRow_identity (readAlone_some.mp read)
  have named : row.indexRef ≠ "" := by
    intro empty
    rw [empty] at canonical
    simp [isCanonicalUUID] at canonical
  have scanned : scanRows host { indexRef := row.indexRef } stored =
      .ok (stored.filter fun other => other.indexId = some key) := by
    rw [scanRows, if_neg named, text, writes.read]
    exact congrArg Except.ok (List.filter_congr fun other _ => by simp)
  obtain ⟨outs, all⟩ := mapM_total (f := readRow host { indexRef := row.indexRef })
    (stored.filter fun other => other.indexId = some key) fun other chosen => each other (List.mem_filter.mp chosen).1
  have rows : outs.reduceOption = (stored.filter fun other => other.indexId = some key).filterMap (readAlone host) :=
    mapM_filterMap id all
  refine ⟨⟨oid, shape, outs.reduceOption⟩, ?_, rfl, ?_⟩
  · rw [readRegistry, scanned]
    exact bind_of_ok all
  · rw [rows]
    have inside : row ∈ (stored.filter fun other => other.indexId = some key).filterMap (readAlone host) :=
      List.mem_filterMap.mpr ⟨source, List.mem_filter.mpr ⟨present, decide_eq_true kept⟩, read⟩
    have fewer : (stored.filter fun other => other.indexId = some key).filterMap (readAlone host) <+
        stored.filterMap (readAlone host) := (List.filter_sublist).filterMap _
    obtain ⟨other, found⟩ := Option.isSome_iff_exists.mp (List.find?_isSome.mpr
      ⟨row, inside, beq_iff_eq.mpr rfl⟩ : (List.find? (fun other => other.indexRef == row.indexRef) _).isSome = true)
    have same : other.indexRef = row.indexRef := by simpa using List.find?_some found
    rw [found, List.inj_on_of_nodup_map distinct (fewer.subset (List.mem_of_find?_eq_some found)) listed same]

end Identity

section Listed
variable {host : Runtime} {catalog : Catalog} {registry : RegistrySnapshot} {row : RegistryRow}

def ownerOf (row : RegistryRow) : ResolvedTarget := ⟨row.schemaName, row.tableName, row.columnName⟩

/-- Where a listed row is looked for under its own names, nothing but its guard can object. -/
theorem verdict_listed (folds : host.FoldsBytes) (writes : WritesUuids host.toHost)
    (run : readRegistry host.toHost catalog.registry {} = .ok registry) (oid : registry.oid ≠ 0)
    (distinct : (registry.rows.map RegistryRow.indexRef).Nodup) (listed : row ∈ registry.rows)
    {location : IndexLocation} (ref : location.indexRef = row.indexRef) (column : location.columnName = row.columnName)
    (same : location.registryOid = registry.oid) (guard : Option BaseTable) :
    verdict host catalog (ownerOf row) location guard =
      match guard with
      | none => .ok ⟨.available, [], some row.metaInfo⟩
      | some table =>
        if row.error ≠ [] then
          .error (bytes "ngram: the index on " ++ row.tableName.bytes ++ bytes "." ++ row.columnName.bytes ++
            bytes s!" ({row.indexRef}) is unusable: " ++ row.error)
        else .ok ⟨.available, rowIdGuardReason host table row.metaInfo, some row.metaInfo⟩ := by
  obtain ⟨found, read, oids, here⟩ := readRegistry_ref writes run distinct listed
  have named : namesMatch host.toHost row { ownerOf row with columnName := row.columnName } = true := by
    have alike (name : Name) : host.ciEquals name name = true := (ciEquals_iff folds).mpr rfl
    rw [namesMatch, ownerOf, alike, alike, alike]
    rfl
  have located : locatedRow host.toHost catalog (ownerOf row) location = .ok (some row) := by
    simp only [locatedRow, ref, column, same, read, oids, if_neg oid, ne_eq, not_true_eq_false, if_false, here, named]
  cases guard with
  | none => simp only [verdict, located, Except.map, Option.map_some, verdictOn]
  | some table => simp only [verdict, located, verdictOn]

theorem validate_listed (folds : host.FoldsBytes) (writes : WritesUuids host.toHost)
    (run : readRegistry host.toHost catalog.registry {} = .ok registry) (oid : registry.oid ≠ 0)
    (distinct : (registry.rows.map RegistryRow.indexRef).Nodup) (listed : row ∈ registry.rows) (table : BaseTable) :
    (row.error = [] → validateIndex host catalog (ownerOf row) (locationOf row registry.oid) table =
      .ok ⟨.available, rowIdGuardReason host table row.metaInfo, some row.metaInfo⟩) ∧
    (row.error ≠ [] → ∃ reason, validateIndex host catalog (ownerOf row) (locationOf row registry.oid) table =
      .error reason) := by
  rw [validateIndex, verdict_listed folds writes run oid distinct listed rfl rfl rfl (some table)]
  exact ⟨fun usable => if_neg (not_not.mpr usable), fun unusable => ⟨_, if_pos unusable⟩⟩

theorem resolve_ok {fn : String} {target : ResolvedTarget} {table : BaseTable} {location : IndexLocation}
    {column : MaintenanceColumn} : resolveMaintenanceColumn host catalog fn target table location = .ok column ↔
      table.columnExists host.toHost location.columnName = true ∧
        ∃ metaInfo, validateIndex host catalog target location table = .ok ⟨.available, [], metaInfo⟩ ∧
          column = ⟨location.columnName, location, metaInfo⟩ := by
  unfold resolveMaintenanceColumn
  constructor
  · intro run
    obtain ⟨exists_column, run⟩ := check_ok run
    obtain ⟨⟨availability, reason, metaInfo⟩, found, run⟩ := bind_ok run
    cases availability with
    | changed => cases run
    | absent => cases run
    | available =>
      obtain ⟨silent, same⟩ := check_ok run
      refine ⟨not_not.mp exists_column, metaInfo, found.trans ?_, (ok_inj same).symm⟩
      rw [show reason = [] from not_not.mp silent]
  · rintro ⟨exists_column, metaInfo, found, rfl⟩
    rw [if_neg (not_not.mpr exists_column), bind_of_ok found]
    exact if_neg (not_not.mpr rfl)

theorem maintenance_listed (folds : host.FoldsBytes) (writes : WritesUuids host.toHost)
    (run : readRegistry host.toHost catalog.registry {} = .ok registry) (oid : registry.oid ≠ 0)
    (distinct : (registry.rows.map RegistryRow.indexRef).Nodup) (listed : row ∈ registry.rows) (table : BaseTable)
    (fn : String) :
    resolveMaintenanceColumn host catalog fn (ownerOf row) table (locationOf row registry.oid) =
        .ok ⟨row.columnName, locationOf row registry.oid, some row.metaInfo⟩ ↔
      table.columnExists host.toHost row.columnName = true ∧ row.error = [] ∧
        rowIdGuardReason host table row.metaInfo = [] := by
  obtain ⟨usable, unusable⟩ := validate_listed folds writes run oid distinct listed table
  rw [resolve_ok]
  constructor
  · rintro ⟨column, metaInfo, found, _⟩
    have readable : row.error = [] := by
      by_contra error
      obtain ⟨reason, failed⟩ := unusable error
      cases failed.symm.trans found
    have same := ok_inj ((usable readable).symm.trans found)
    exact ⟨column, readable, congrArg Verdict.reason same⟩
  · rintro ⟨column, readable, silent⟩
    exact ⟨column, some row.metaInfo, (usable readable).trans (by rw [silent]), rfl⟩

theorem observed_ready {shape : RegistryShape} {oid : Nat} {present : Bool} :
    (observedRow host catalog oid shape row present).status = .ready ↔
      present = true ∧ row.error = [] ∧ ∃ table, catalog.base row.schemaName row.tableName = some table ∧
        table.columnExists host.toHost row.columnName = true ∧ rowIdGuardReason host table row.metaInfo = [] := by
  unfold observedRow classifyBase
  by_cases error : row.error = []
  · cases present with
    | false => simp [error]
    | true =>
      cases catalog.base row.schemaName row.tableName with
      | none => simp [error]
      | some table =>
        by_cases column : table.columnExists host.toHost row.columnName = true
        · by_cases silent : rowIdGuardReason host table row.metaInfo = [] <;> simp [error, column, silent]
        · simp [error, column]
  · simp [error]

theorem observed_scanOnly {shape : RegistryShape} {oid : Nat} {present : Bool} :
    (observedRow host catalog oid shape row present).status = .scanOnly ↔
      present = true ∧ row.error = [] ∧ ∃ table, catalog.base row.schemaName row.tableName = some table ∧
        table.columnExists host.toHost row.columnName = true ∧ rowIdGuardReason host table row.metaInfo ≠ [] ∧
          (observedRow host catalog oid shape row present).reason =
            bytes "exact rowid guard is unavailable: " ++ rowIdGuardReason host table row.metaInfo := by
  unfold observedRow classifyBase
  by_cases error : row.error = []
  · cases present with
    | false => simp [error]
    | true =>
      cases catalog.base row.schemaName row.tableName with
      | none => simp [error]
      | some table =>
        by_cases column : table.columnExists host.toHost row.columnName = true
        · by_cases silent : rowIdGuardReason host table row.metaInfo = [] <;> simp [error, column, silent]
        · simp [error, column]
  · simp [error]

theorem find_listed (distinct : (registry.rows.map RegistryRow.indexRef).Nodup) (listed : row ∈ registry.rows) :
    (registry.rows.map (listedRow host catalog registry)).find? (fun other => other.location.indexRef == row.indexRef) =
      some (listedRow host catalog registry row) := by
  rw [List.find?_map]
  have here : registry.rows.find? ((fun other => other.location.indexRef == row.indexRef) ∘
      listedRow host catalog registry) = some row := by
    obtain ⟨other, found⟩ := Option.isSome_iff_exists.mp (List.find?_isSome.mpr ⟨row, listed, beq_iff_eq.mpr rfl⟩ :
      (registry.rows.find? ((fun other => other.location.indexRef == row.indexRef) ∘
        listedRow host catalog registry)).isSome = true)
    have same : other.indexRef = row.indexRef := by simpa [listedRow, observedRow, locationOf] using List.find?_some found
    rw [found, List.inj_on_of_nodup_map distinct (List.mem_of_find?_eq_some found) listed same]
  rw [here]
  rfl

end Listed

section Accounts

end Accounts

section Witness
variable {host : Host}

/-- A number is put together again from its first digits. -/
theorem digits_fold (n k : Nat) (room : k ≤ 32) : ((List.range k).map fun i => n / 16 ^ (31 - i) % 16).foldl
    (fun sum digit => sum * 16 + digit) 0 = n / 16 ^ (32 - k) % 16 ^ k := by
  induction k with
  | zero => simp [Nat.mod_one]
  | succ k ih =>
    have shift : 32 - k = 31 - k + 1 := by omega
    have later : 32 - (k + 1) = 31 - k := by omega
    rw [List.range_succ, List.map_append, List.foldl_append, ih (by omega), shift, later]
    simp only [List.map_cons, List.map_nil, List.foldl_cons, List.foldl_nil]
    rw [Nat.pow_succ 16 (31 - k), ← Nat.div_div_eq_div_mul, Nat.pow_succ 16 k, Nat.mul_comm (16 ^ k) 16,
      Nat.mod_mul, Nat.add_comm, Nat.mul_comm]

def plainDigits (id : BitVec 128) : List Char :=
  (List.range 32).map fun i => hexDigits.getD (id.toNat / 16 ^ (31 - i) % 16) '0'

theorem hexDigits_idxOf {d : Nat} (small : d < 16) :
    hexDigits.idxOf (hexDigits.getD d '0') = d ∧ hexDigits.getD d '0' ∈ hexDigits := by
  revert d
  decide

theorem plainDigits_plain (id : BitVec 128) : ∀ c ∈ plainDigits id, c ∈ hexDigits := by
  intro c listed
  obtain ⟨i, _, rfl⟩ := List.mem_map.mp listed
  exact (hexDigits_idxOf (Nat.mod_lt _ (by decide))).2

theorem plainDigits_value (id : BitVec 128) :
    (plainDigits id).foldl (fun sum digit => sum * 16 + hexDigits.idxOf digit) 0 = id.toNat := by
  have digit (i : Nat) : hexDigits.idxOf (hexDigits.getD (id.toNat / 16 ^ (31 - i) % 16) '0') =
      id.toNat / 16 ^ (31 - i) % 16 := (hexDigits_idxOf (Nat.mod_lt _ (by decide))).1
  have folded := digits_fold id.toNat 32 (Nat.le_refl _)
  rw [List.foldl_map] at folded
  simp only [plainDigits, List.foldl_map, digit]
  have bound := id.isLt
  have power : (16 : Nat) ^ 32 = 2 ^ 128 := by norm_num
  rw [folded, Nat.sub_self, Nat.pow_zero, Nat.div_one, power, Nat.mod_eq_of_lt bound]

theorem plainHost_writes : WritesUuids plainHost where
  text id := ⟨plainDigits id, by simp [plainDigits], plainDigits_plain id, rfl⟩
  read id := by
    have text : (plainUuidText id).toList = dashed (plainDigits id) := String.toList_ofList
    have stripped : (plainUuidText id).toList.filter (· != '-') = plainDigits id := by
      rw [text, filter_dashed fun c listed => (hexDigit_plain (plainDigits_plain id c listed)).1]
    have sized : (plainDigits id).length = 32 := by simp [plainDigits]
    have known : (plainDigits id).any (· ∉ hexDigits) = false := by simpa using plainDigits_plain id
    have written : plainHost.uuidText = plainUuidText := rfl
    have parsed : plainHost.uuidOf = plainUuidOf := rfl
    rw [written, parsed, plainUuidOf]
    simp only [stripped, sized, known, plainDigits_value]
    simp

def plainRuntime : Runtime := { plainHost with compatible := true }

def logsTable : BaseTable where
  columns := [⟨nameOf "id" (by decide), false⟩, ⟨nameOf "BODY" (by decide), false⟩]
  indexes := [⟨"guard", ngramRowidGuardType, [1], some (.bound ⟨"token", 41, false, true, none, none⟩)⟩]
  db := ⟨false, false, 7⟩

/-- One index, and beside its table a lost one, lost statistics and a user's view. -/
def logsCatalog : Catalog where
  name := "db"
  registry := .table 7 .current [logsRow]
  entries := [⟨"registry", true⟩, ⟨"notes", false⟩, ⟨"SEGMENTS_fedcba9876544cde8f0123456789abcd", true⟩,
    ⟨"segments_0123456789ab4cde8f0123456789abcd", true⟩, ⟨"stats_0123456789ab4cde8f0123456789abcd", true⟩]
  base schema table := if plainHost.ciEquals schema mainName && plainHost.ciEquals table logsName then some logsTable
    else none
  index schema name := if plainHost.ciEquals schema mainName && name = "guard" then
    some ⟨ngramRowidGuardType, logsName⟩ else none

end Witness

end NgramCatalogListing
