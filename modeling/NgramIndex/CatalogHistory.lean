import NgramIndex.CatalogRuns

/- The listing along runs of creates and drops: it always shows each index and nothing
   lost, and a script changes what it shows of its own index alone. -/
namespace NgramCatalogScripts
open LabelledRun Fallible NgramGram NgramMaintenance NgramOwnerKeys NgramCatalogListing Utf8
open NgramRowIdGuard (readGuardState exactGuardReason)
open NgramIndexRegistry (RegistryShape hex)
open NgramPragmaParameters (parseCreateOptions parsed_valid)
open scoped List

section Listing
variable {host : Runtime} {s t : IndexedCatalog} {registry after : RegistrySnapshot} {row : RegistryRow}

theorem identity_read (read : readRegistry host.toHost s.catalog.registry {} = .ok registry)
    (legacy : registry.shape = .identityOnly) (listed : row ∈ registry.rows) :
    ∃ version identity, ∃ metadata : StoredMetadata .identityOnly,
      identity.metaInfo.guardName = "" ∧ materialize host.toHost version identity metadata = .ok row := by
  rcases readRegistry_cases read with ⟨_, rfl⟩ | ⟨oid, shape, rows, _, rfl, _⟩
  · cases legacy
  obtain rfl : shape = .identityOnly := legacy
  obtain ⟨source, _, alone⟩ := List.mem_filterMap.mp listed
  have run := readAlone_some.mp alone
  unfold readRow at run
  split at run
  next version id key schema table column _ _ _ _ _ _ =>
    rw [if_pos (every_name _ _)] at run
    cases read : materialize host.toHost version (identityRow (host.uuidText id) key schema table column)
        source.metadata with
    | error reason =>
      rw [read] at run
      cases run
    | ok out =>
      rw [read] at run
      obtain rfl := Option.some.inj (ok_inj run)
      exact ⟨_, _, _, rfl, read⟩
  · cases run

theorem identityOnly_unusable (read : readRegistry host.toHost s.catalog.registry {} = .ok registry)
    (legacy : registry.shape = .identityOnly) (listed : row ∈ registry.rows) : row.error ≠ [] := by
  obtain ⟨_, _, metadata, _, run⟩ := identity_read read legacy listed
  cases metadata
  rw [← ok_inj (check_ok run).2]
  dsimp only [predates]
  repeat apply message_ne_nil
  decide

theorem kept_listing (writes : WritesUuids host.toHost) (kept : Kept host s registry) :
    ∃ strays, observeCatalog host s.catalog = registry.rows.map (listedRow host s.catalog registry) ++ strays ∧
      strays ~ (s.catalog.entries.filter (isForeign host.toHost)).map
        fun entry => malformed s.catalog.name entry.name (notStorage entry.name) := by
  have canonical : ∀ row ∈ registry.rows, isCanonicalUUID host.toHost row.indexRef = true := fun row listed =>
    readRegistry_canonical kept.read listed
  obtain ⟨left, rows, strays⟩ := @observe_entries host s.catalog registry.oid registry.shape writes kept.names
    registry.rows kept.distinct canonical []
  refine ⟨left.storage.map (unclaimed s.catalog.name [] storageUnclaimed) ++
    left.format4Stats.map (unclaimed s.catalog.name [] statsUnclaimed) ++ left.foreign, ?_, strays.trans (.of_eq ?_)⟩
  · simp only [observeCatalog, kept.read, rows, List.append_assoc]
    rfl
  · have unclaimed_foreign : ∀ entry ∈ s.catalog.entries, (!claimed registry.rows entry) = isForeign host.toHost entry := by
      intro entry listed
      rw [claimed_by_id writes canonical, claimedBy, isForeign]
      cases kind : entryKind host.toHost entry with
      | registry => rfl
      | foreign => rfl
      | segments ref =>
        have owned := ((kept.segments entry listed ref kind).resolve_left id).2
        dsimp only
        rw [List.contains_iff_mem.mpr owned]
        rfl
      | format4Stats ref =>
        have owned := ((kept.stats entry listed ref kind).resolve_left id).2
        dsimp only
        rw [List.contains_iff_mem.mpr owned]
        rfl
    rw [List.filter_congr unclaimed_foreign]
    refine List.map_congr_left fun entry found => ?_
    have foreign := (List.mem_filter.mp found).2
    rw [isForeign] at foreign
    rw [stray]
    cases kind : entryKind host.toHost entry with
    | foreign => rfl
    | registry => rfl
    | segments ref =>
      rw [kind] at foreign
      cases foreign
    | format4Stats ref =>
      rw [kind] at foreign
      cases foreign

theorem usable_stored (kept : Kept host s registry) (listed : row ∈ registry.rows) (usable : row.error = []) :
    holdsTable s.catalog (segmentsTable row.indexRef) = true :=
  kept.stored (fun legacy => identityOnly_unusable kept.read legacy listed usable) row listed

theorem malformed_unusable (kept : Kept host s registry) (listed : row ∈ registry.rows)
    (shown : (listedRow host s.catalog registry row).status = .malformed) : row.error ≠ [] := by
  intro usable
  rw [listedRow, observedRow, usable_stored kept listed usable, usable] at shown
  unfold classifyBase at shown
  simp only [ne_eq, not_true_eq_false, if_false] at shown
  split at shown
  · cases shown
  · split at shown
    · cases shown
    · split at shown <;> cases shown

/-- What is listed of a row depends on its registry, and on its base table while it is usable. -/
theorem listed_alike (before : Kept host s registry) (later : Kept host t after) (listed : row ∈ registry.rows)
    (remains : row ∈ after.rows) (oid : after.oid = registry.oid) (shape : after.shape = registry.shape)
    (name : t.catalog.name = s.catalog.name)
    (classified : row.error = [] → classifyBase host t.catalog row = classifyBase host s.catalog row) :
    listedRow host t.catalog after row = listedRow host s.catalog registry row := by
  rw [listedRow, listedRow, oid, shape]
  by_cases usable : row.error = []
  · rw [usable_stored before listed usable, usable_stored later remains usable]
    simp only [observedRow, name, usable, ne_eq, not_true_eq_false, if_false, classified usable]
  · simp only [observedRow, name, if_pos usable]

theorem classified_alike {before later : Catalog}
    (same : later.base row.schemaName row.tableName = before.base row.schemaName row.tableName) :
    classifyBase host later row = classifyBase host before row := by
  rw [classifyBase, classifyBase, same]

/-- Another index's guard does not matter to this one's verdict. -/
theorem guard_filtered {table : BaseTable} {info : MetaInfo} {dropped : String} (other : info.guardName ≠ dropped) :
    rowIdGuardReason host { table with indexes := table.indexes.filter fun entry => entry.name != dropped } info =
      rowIdGuardReason host table info := by
  have read : ∀ column iteration, readGuardState true
      (table.indexes.filter fun entry => entry.name != dropped) column info.guardName iteration =
        readGuardState true table.indexes column info.guardName iteration := by
    intro column iteration
    rw [readGuardState, readGuardState, NgramSharedGuard.find_filtered other]
  rw [rowIdGuardReason, rowIdGuardReason, exactGuardReason, exactGuardReason]
  dsimp only
  rw [read]
  rfl

theorem classified_dropped {target : ResolvedTarget} {guardName exceptRef : String} {dropGuard : Bool}
    {before later : Catalog} {rows : List RegistryRow}
    (base : later.base = droppedBase host before target guardName dropGuard)
    (references : dropGuard = true → otherGuardReferences host.toHost rows target guardName exceptRef = 0)
    (listed : row ∈ rows) (other : row.indexRef ≠ exceptRef) :
    classifyBase host later row = classifyBase host before row := by
  cases dropGuard with
  | false => exact classified_alike (by rw [base]; rfl)
  | true =>
    have there : later.base row.schemaName row.tableName =
        if host.ciEquals row.schemaName target.schemaName && host.ciEquals row.tableName target.tableName then
          (before.base row.schemaName row.tableName).map fun table =>
            { table with indexes := table.indexes.filter fun entry => entry.name != guardName }
        else before.base row.schemaName row.tableName := by rw [base]; rfl
    cases here : host.ciEquals row.schemaName target.schemaName && host.ciEquals row.tableName target.tableName with
    | false =>
      rw [here, if_neg Bool.false_ne_true] at there
      exact classified_alike there
    | true =>
      rw [here, if_pos rfl] at there
      have differs : row.metaInfo.guardName ≠ guardName := by
        intro same
        have counted := List.countP_eq_zero.mp (references rfl) row listed
        rw [Bool.and_assoc, Bool.and_assoc, ← Bool.and_assoc (host.ciEquals _ _), here] at counted
        simp [other, same] at counted
      rw [classifyBase, classifyBase, there]
      cases before.base row.schemaName row.tableName with
      | none => rfl
      | some table =>
        dsimp only [Option.map_some]
        rw [guard_filtered differs]
        rfl

theorem classified_created {answers : HostAnswers} {target : ResolvedTarget} {first : Bool} {before later : Catalog}
    (base : later.base = createdBase host answers before target first)
    (apart : first = true → ¬ onTable host.toHost target row) :
    classifyBase host later row = classifyBase host before row := by
  cases first with
  | false => exact classified_alike (by rw [base]; rfl)
  | true =>
    refine classified_alike ?_
    have off : (host.ciEquals row.schemaName target.schemaName && host.ciEquals row.tableName target.tableName) = false :=
      Bool.eq_false_iff.mpr fun both => apart rfl (Bool.and_eq_true_iff.mp both)
    rw [base]
    show (if _ then _ else _) = _
    rw [off]
    rfl

end Listing

section Steps
variable {host : Runtime} {s : ScriptState} {store t : IndexedCatalog} {registry after : RegistrySnapshot}

theorem own_listed {before later : Catalog} (own : ownEntries host.toHost later = ownEntries host.toHost before)
    {entry : SchemaEntry} (ours : isForeign host.toHost entry = false) :
    entry ∈ later.entries ↔ entry ∈ before.entries := by
  have both : entry ∈ ownEntries host.toHost later ↔ entry ∈ ownEntries host.toHost before := by rw [own]
  rw [ownEntries, ownEntries, List.mem_filter, List.mem_filter, ours] at both
  simpa using both

theorem identity_refs (same : after.rows.map rowIdentity = registry.rows.map rowIdentity) :
    after.rows.map RegistryRow.indexRef = registry.rows.map RegistryRow.indexRef ∧
      format4Refs after.rows = format4Refs registry.rows := by
  have refs : ∀ rows : List RegistryRow, rows.map RegistryRow.indexRef =
      (rows.map rowIdentity).map RowIdentity.indexRef := fun rows => by
    rw [List.map_map]
    rfl
  have old : ∀ rows : List RegistryRow, format4Refs rows =
      ((rows.map rowIdentity).filter fun row => row.formatVersion = 4).map RowIdentity.indexRef := fun rows => by
    rw [List.filter_map, List.map_map]
    rfl
  rw [refs, old, same, ← refs, ← old]
  exact ⟨rfl, rfl⟩

theorem hostWork_kept (writes : WritesUuids host.toHost) (kept : Kept host store registry) {catalog : Catalog}
    (work : HostWork host.toHost store.catalog catalog) :
    ∃ after, Kept host { store with catalog := catalog } after ∧ after.oid = registry.oid ∧
      after.shape = registry.shape ∧ after.rows.map rowIdentity = registry.rows.map rowIdentity := by
  obtain ⟨_, identity, own, names⟩ := work
  rw [registryIdentity, registryIdentity, kept.read] at identity
  cases read : readRegistry host.toHost catalog.registry {} with
  | error reason =>
    rw [read] at identity
    cases identity
  | ok after =>
    rw [read] at identity
    have alike := Option.some.inj identity
    have absent : isAbsent catalog.registry = isAbsent store.catalog.registry := congrArg RegistryIdentity.absent alike
    have oid : after.oid = registry.oid := congrArg RegistryIdentity.oid alike
    have shape : after.shape = registry.shape := congrArg RegistryIdentity.shape alike
    have rows : after.rows.map rowIdentity = registry.rows.map rowIdentity := congrArg RegistryIdentity.rows alike
    obtain ⟨refs, old⟩ := identity_refs rows
    have ours {entry : SchemaEntry} {kind : EntryKind} (other : kind ≠ .foreign)
        (found : entryKind host.toHost entry = kind) : isForeign host.toHost entry = false := by
      rw [isForeign, found]
      cases kind with
      | foreign => exact absurd rfl other
      | _ => rfl
    refine ⟨after, {
      read := read
      names := names
      distinct := by rw [refs]; exact kept.distinct
      numbered := by rw [oid]; exact kept.numbered
      present := fun there => by
        rw [oid]
        refine kept.present fun none => there ?_
        rw [none] at absent
        cases entry : catalog.registry with
        | absent => rfl
        | foreign reason => rw [entry] at absent; cases absent
        | table oid shape rows => rw [entry] at absent; cases absent
      stored := fun current row listed => ?_
      storedLegacy := fun legacy row listed => ?_
      once := kept.once
      segments := fun entry here ref kind => by
        rw [refs, shape]
        exact kept.segments entry ((own_listed own (ours (by simp) kind)).mp here) ref kind
      stats := fun entry here ref kind => by
        rw [old, shape]
        exact kept.stats entry ((own_listed own (ours (by simp) kind)).mp here) ref kind
      schemas := fun ref here => by
        rw [refs, shape]
        exact kept.schemas ref here }, oid, shape, rows⟩
    · have canonical := readRegistry_canonical read listed
      have earlier : row.indexRef ∈ registry.rows.map RegistryRow.indexRef := refs ▸ List.mem_map_of_mem listed
      obtain ⟨before, there, same⟩ := List.mem_map.mp earlier
      have held := kept.stored (shape ▸ current) before there
      rw [same, ← mem_segmentsRefs writes canonical] at held
      rw [← mem_segmentsRefs writes canonical]
      obtain ⟨entry, present, found⟩ := List.mem_filterMap.mp held
      have kind := segmentsRef_some.mp found
      exact List.mem_filterMap.mpr ⟨entry, (own_listed own (ours (by simp) kind)).mpr present, found⟩
    · have earlier : row.indexRef ∈ registry.rows.map RegistryRow.indexRef := refs ▸ List.mem_map_of_mem listed
      obtain ⟨before, there, same⟩ := List.mem_map.mp earlier
      exact same ▸ kept.storedLegacy (shape ▸ legacy) before there

def GeneratedCreate (host : Runtime) (script : Script) : Prop :=
  ∃ origin target options indexId location first,
    script = createScript origin target options indexId location first ∧
      isCanonicalUUID host.toHost (host.uuidText indexId) = true ∧ validateGramOptions options "ngram" = .ok () ∧
      location.indexRef = host.uuidText indexId ∧ location.registryOid = currentOid origin ∧
      (first = true → location.guardToken = "")

/-- A generated drop, which fits the registry as long as that is the one it was read from. -/
def GeneratedDrop (store : IndexedCatalog) (registry : RegistrySnapshot) (script : Script) : Prop :=
  ∃ index rows guardName guardToken dropGuard,
    script = dropScript index rows guardName guardToken dropGuard ∧ index.location.registryOid ≠ 0 ∧
      index.location.registryOid < store.nextOid ∧
      (registry.oid = index.location.registryOid → Fits registry index rows)

/-- Every index has its storage, and every pending script still fits. -/
structure Sound (host : Runtime) (s : ScriptState) (registry : RegistrySnapshot) : Prop where
  kept : Kept host s.store registry
  pending : ∀ script ∈ s.pending, GeneratedCreate host script ∨ GeneratedDrop s.store registry script

/-- The registry a drop was read from may change so, and the drop still fits. -/
structure Follows (store t : IndexedCatalog) (registry after : RegistrySnapshot) : Prop where
  next : store.nextOid ≤ t.nextOid
  same : after.oid ≠ 0 → after.oid < store.nextOid → after.oid = registry.oid ∧ after.shape = registry.shape ∧
    (∀ row ∈ after.rows, row.formatVersion = 4 → ∃ other ∈ registry.rows, other.indexRef = row.indexRef ∧
      other.formatVersion = 4) ∧
    (registry.shape ≠ .current → ∀ row ∈ after.rows, ∃ other ∈ registry.rows, other.indexRef = row.indexRef)

theorem drop_follows (follows : Follows store t registry after) {script : Script}
    (drop : GeneratedDrop store registry script) : GeneratedDrop t after script := by
  obtain ⟨index, rows, guardName, guardToken, dropGuard, rfl, set, below, fits⟩ := drop
  refine ⟨index, rows, guardName, guardToken, dropGuard, rfl, set, below.trans_le follows.next, fun here => ?_⟩
  obtain ⟨oid, shape, old, rest⟩ := follows.same (here ▸ set) (here ▸ below)
  have fit := fits (oid ▸ here)
  refine ⟨fit.shape.trans shape.symm, fun row listed mine four => ?_, fun older one row listed => ?_⟩
  · obtain ⟨other, there, same, four'⟩ := old row listed four
    exact fit.format other there (same.trans mine) four'
  · obtain ⟨other, there, same⟩ := rest (fit.shape ▸ older) row listed
    exact same.symm.trans (fit.last older one other there)

theorem statement_next {answers : HostAnswers} {target : ResolvedTarget} {token : String} {statement : Statement}
    (run : runStatement host answers target token store statement = .ok t) : store.nextOid ≤ t.nextOid := by
  cases statement with
  | freshGuard =>
    obtain rfl := ok_inj run
    exact Nat.le_refl _
  | dropGuard guardName =>
    obtain rfl := ok_inj run
    exact Nat.le_refl _
  | dropRegistry => exact (dropRegistry_next run).ge
  | createRegistry =>
    obtain rfl := ok_inj (check_ok run).2
    exact Nat.le_succ _
  | insertRow indexId options guardName =>
    unfold runStatement at run
    dsimp only at run
    split at run
    · obtain rfl := ok_inj (check_ok run).2
      exact Nat.le_refl _
    · cases run
  | createSegments indexRef =>
    obtain rfl := ok_inj (check_ok run).2
    exact Nat.le_refl _
  | deleteRow indexRef =>
    obtain ⟨id, _, run⟩ := bind_ok run
    split at run
    · obtain rfl := ok_inj run
      exact Nat.le_refl _
    · cases run
  | dropTableIfExists name =>
    obtain rfl := ok_inj (check_ok run).2
    exact Nat.le_refl _
  | dropLegacy indexRef =>
    obtain ⟨_, same⟩ | ⟨_, failed⟩ := branch_ok run
    · obtain rfl := ok_inj same
      exact Nat.le_refl _
    · cases failed
  | dropSchema =>
    obtain rfl := ok_inj (check_ok run).2
    exact Nat.le_refl _

theorem script_next {answers : HostAnswers} {script : Script} (run : runScript host answers store script = .ok t) :
    store.nextOid ≤ t.nextOid := by
  obtain ⟨_, _, run⟩ := bind_ok run
  cases refused : answers.refusal with
  | some reason =>
    rw [refused] at run
    cases run
  | none =>
    rw [refused] at run
    exact foldlM_prefix (fun _ u => store.nextOid ≤ u.nextOid) script.statements
      (fun _ _ _ _ before one => before.trans (statement_next one)) (Nat.le_refl _) run

theorem create_generated {catalog : Catalog} {target : ResolvedTarget}
    {parameters : List NgramPragmaParameters.CreateParameter} {indexId : BitVec 128} {script : Script}
    (canonical : isCanonicalUUID host.toHost (host.uuidText indexId) = true)
    (run : createIndexScript host catalog target parameters indexId = .ok script) : GeneratedCreate host script := by
  obtain ⟨options, parsed, run⟩ := bind_ok run
  obtain ⟨table, _, run⟩ := bind_ok run
  obtain ⟨registry, _, run⟩ := bind_ok run
  obtain ⟨siblings, _, run⟩ := bind_ok run
  have valid : validateGramOptions options "ngram" = .ok () := by
    cases read : parseCreateOptions parameters with
    | error reason =>
      rw [read] at parsed
      cases parsed
    | ok found =>
      rw [read] at parsed
      obtain rfl := ok_inj parsed
      exact parsed_valid read "ngram"
  split at run
  · cases run
  · obtain ⟨⟨guardName, guardToken⟩, resolved, run⟩ := bind_ok run
    refine ⟨_, _, _, _, _, _, (ok_inj run).symm, canonical, valid, rfl, rfl, fun first => ?_⟩
    rw [List.isEmpty_iff.mp first] at resolved
    exact (congrArg Prod.snd (ok_inj resolved)).symm

theorem drop_generated (writes : WritesUuids host.toHost) (kept : Kept host store registry) {indexRef legacyToken : String}
    {script : Script} (run : dropByReference host store.catalog indexRef legacyToken = .ok script) :
    GeneratedDrop store registry script := by
  obtain ⟨index, found, run⟩ := bind_ok run
  obtain ⟨set, run⟩ := check_ok run
  obtain ⟨reread, read, run⟩ := bind_ok run
  obtain rfl : registry = reread := ok_inj (kept.read.symm.trans read)
  obtain ⟨strays, observed, shown⟩ := kept_listing writes kept
  have listed : index ∈ observeCatalog host store.catalog := by
    obtain ⟨_, found⟩ := check_ok found
    split at found
    next other first =>
      obtain rfl := ok_inj found
      exact List.mem_of_find?_eq_some first
    · cases found
  rw [observed] at listed
  rcases List.mem_append.mp listed with row | lost
  · obtain ⟨row, there, rfl⟩ := List.mem_map.mp row
    refine ⟨_, _, _, _, _, (ok_inj run).symm, set, kept.numbered, fun _ => ⟨rfl, fun other here same four => ?_,
      fun _ one other here => ?_⟩⟩
    · rw [List.inj_on_of_nodup_map kept.distinct there here same.symm]
      exact four
    · obtain ⟨only, single⟩ := List.length_eq_one_iff.mp one
      rw [single] at here there
      rw [List.mem_singleton.mp here, List.mem_singleton.mp there]
      rfl
  · obtain ⟨entry, _, rfl⟩ := List.mem_map.mp (shown.subset lost)
    exact absurd rfl set

/-- What a script changes of the listing: its own index, and of every other nothing. It
    brings a guard only to a table without indexes, and takes one only that no other index
    of the table records. -/
def Changes (host : Runtime) (before later : Catalog) (registry after : RegistrySnapshot) (script : Script) : Prop :=
  match script.prepared with
  | .create location _ => (∃ row, row.indexRef = location.indexRef ∧ row.error = [] ∧
      after.rows = registry.rows ++ [row] ∧ ∀ other ∈ registry.rows,
        listedRow host later after other = listedRow host before registry other) ∧
      (.freshGuard ∈ script.statements → ∀ other ∈ registry.rows, ¬ onTable host.toHost script.target other)
  | .drop location _ => (location.indexRef ∈ registry.rows.map RegistryRow.indexRef ∧
      after.rows = registry.rows.filter (·.indexRef ≠ location.indexRef) ∧ ∀ other ∈ after.rows,
        listedRow host later after other = listedRow host before registry other) ∧
      ∀ guardName, .dropGuard guardName ∈ script.statements →
        otherGuardReferences host.toHost registry.rows script.target guardName location.indexRef = 0

theorem created_fresh {target : ResolvedTarget} {options : GramOptions} {indexId : BitVec 128}
    {location : IndexLocation} {first : Bool}
    (fresh : .freshGuard ∈ (createScript registry target options indexId location first).statements) :
    first = true := by
  cases first with
  | true => rfl
  | false =>
    simp only [createScript, Bool.false_eq_true, if_false, List.nil_append] at fresh
    split at fresh <;> split at fresh <;> simp at fresh

theorem storage_guardless {index : ObservedIndex} {rows : Nat} {guardName : String} :
    .dropGuard guardName ∉ storageStatements index rows := by
  intro listed
  unfold storageStatements at listed
  split at listed
  · split at listed <;> simp at listed
  · split at listed <;> split at listed <;> simp at listed

theorem dropped_guard {index : ObservedIndex} {rows : Nat} {guardName guardToken dropped : String} {dropGuard : Bool}
    (listed : .dropGuard dropped ∈ (dropScript index rows guardName guardToken dropGuard).statements) :
    dropGuard = true ∧ dropped = guardName := by
  rcases List.mem_append.mp listed with guard | others
  · cases dropGuard with
    | true => exact ⟨rfl, Statement.dropGuard.inj (List.mem_singleton.mp guard)⟩
    | false => cases guard
  · rcases List.mem_cons.mp others with row | storage
    · cases row
    · exact absurd storage storage_guardless

theorem script_effect (writes : WritesUuids host.toHost) (kept : Kept host store registry) {answers : HostAnswers}
    {script : Script} (fits : GeneratedCreate host script ∨ GeneratedDrop store registry script)
    (run : runScript host answers store script = .ok t) : ∃ after, Kept host t after ∧ Follows store t registry after ∧
      Changes host store.catalog t.catalog registry after script := by
  have next := script_next run
  rcases fits with ⟨origin, target, options, indexId, location, first, rfl, canonical, valid, ref, oid, unguarded⟩ |
    ⟨index, rows, guardName, guardToken, dropGuard, rfl, set, below, fits⟩
  · obtain ⟨after, row, kept', named, usable, format, rows, shape, moved, base, name, apart⟩ :=
      create_kept writes kept canonical valid ref oid unguarded run
    refine ⟨after, kept', ⟨next, fun _ low => ?_⟩, ⟨row, named, usable, rows, fun other listed => ?_⟩,
      fun fresh => apart (created_fresh fresh)⟩
    · obtain ⟨_, high⟩ | ⟨oid, shape'⟩ := moved
      · exact absurd low (Nat.not_lt_of_le high)
      · refine ⟨oid, shape', fun other listed four => ?_, fun older => absurd (shape'.symm.trans shape) older⟩
        rw [rows] at listed
        rcases List.mem_append.mp listed with earlier | last
        · exact ⟨other, earlier, rfl, four⟩
        · rw [List.mem_singleton.mp last, format] at four
          exact absurd four (by decide)
    · obtain ⟨empty, _⟩ | ⟨oid, shape'⟩ := moved
      · rw [empty] at listed
        cases listed
      · exact listed_alike kept kept' listed (by rw [rows]; exact List.mem_append_left _ listed) oid shape' name
          fun _ => classified_created base fun start => apart start other listed
  · obtain ⟨member, ⟨after, kept', remains⟩, base, name, references⟩ := drop_kept writes kept fits run
    refine ⟨after, kept', ⟨next, fun there _ => ?_⟩, ⟨member, ?_, fun other listed => ?_⟩, fun dropped listed => ?_⟩
    · obtain ⟨oid, shape, rows⟩ | ⟨_, rfl⟩ := remains
      · refine ⟨oid, shape, fun other listed four => ?_, fun _ other listed => ?_⟩
        · rw [rows] at listed
          exact ⟨other, (List.mem_filter.mp listed).1, rfl, four⟩
        · rw [rows] at listed
          exact ⟨other, (List.mem_filter.mp listed).1, rfl⟩
      · exact absurd rfl there
    · obtain ⟨_, _, rows⟩ | ⟨empty, rfl⟩ := remains
      · exact rows
      · exact empty.symm
    · obtain ⟨oid, shape, rows⟩ | ⟨_, rfl⟩ := remains
      · have here := listed
        rw [rows] at here
        obtain ⟨present, differs⟩ := List.mem_filter.mp here
        exact listed_alike kept kept' present listed oid shape name
          fun _ => classified_dropped base references present (of_decide_eq_true differs)
      · cases listed
    · obtain ⟨taken, rfl⟩ := dropped_guard listed
      exact references taken

theorem step_sound (writes : WritesUuids host.toHost) {u : ScriptState} {e : ScriptEvent} (sound : Sound host s registry)
    (step : scriptStep host s e = some u) : ∃ after, Sound host u after := by
  cases e with
  | create target parameters indexId =>
    obtain ⟨canonical, step⟩ := Option.ite_none_right_eq_some.mp step
    split at step
    next script generated =>
      obtain rfl := Option.some.inj step
      refine ⟨registry, sound.kept, fun other listed => ?_⟩
      rcases List.mem_append.mp listed with earlier | last
      · exact sound.pending other earlier
      · rw [List.mem_singleton.mp last]
        exact .inl (create_generated canonical generated)
    · cases step
  | drop indexRef legacyToken =>
    unfold scriptStep at step
    dsimp only at step
    split at step
    next script generated =>
      obtain rfl := Option.some.inj step
      refine ⟨registry, sound.kept, fun other listed => ?_⟩
      rcases List.mem_append.mp listed with earlier | last
      · exact sound.pending other earlier
      · rw [List.mem_singleton.mp last]
        exact .inr (drop_generated writes sound.kept generated)
    · cases step
  | execute position answers =>
    obtain ⟨script, there, rfl⟩ := Option.map_eq_some_iff.mp step
    have fits := sound.pending script (List.mem_of_getElem? there)
    have fewer : ∀ other ∈ s.pending.eraseIdx position, other ∈ s.pending := fun other listed =>
      (List.eraseIdx_sublist _ _).subset listed
    cases ran : runScript host answers s.store script with
    | error reason =>
      refine ⟨registry, ?_, fun other listed => ?_⟩
      · rw [afterScript, ran]
        exact sound.kept
      · dsimp only
        rw [afterScript, ran]
        exact sound.pending other (fewer other listed)
    | ok t =>
      obtain ⟨after, kept, follows, _⟩ := script_effect writes sound.kept fits ran
      refine ⟨after, ?_, fun other listed => ?_⟩
      · rw [afterScript, ran]
        exact kept
      · dsimp only
        rw [afterScript, ran]
        exact (sound.pending other (fewer other listed)).imp_right (drop_follows follows)
  | hostWork catalog =>
    obtain ⟨work, step⟩ := Option.ite_none_right_eq_some.mp step
    obtain rfl := Option.some.inj step
    obtain ⟨after, kept, oid, shape, rows⟩ := hostWork_kept writes sound.kept work
    have earlier : ∀ row ∈ after.rows, ∃ other ∈ registry.rows, rowIdentity other = rowIdentity row := by
      intro row listed
      have same : rowIdentity row ∈ registry.rows.map rowIdentity := rows ▸ List.mem_map_of_mem listed
      exact List.mem_map.mp same
    have follows : Follows s.store { s.store with catalog := catalog } registry after :=
      ⟨Nat.le_refl _, fun _ _ => ⟨oid, shape, fun row listed four => by
        obtain ⟨other, there, same⟩ := earlier row listed
        exact ⟨other, there, congrArg RowIdentity.indexRef same, (congrArg RowIdentity.formatVersion same).trans four⟩,
        fun _ row listed => by
          obtain ⟨other, there, same⟩ := earlier row listed
          exact ⟨other, there, congrArg RowIdentity.indexRef same⟩⟩⟩
    exact ⟨after, kept, fun other listed => (sound.pending other listed).imp_right (drop_follows follows)⟩

theorem run_sound (writes : WritesUuids host.toHost) {u : ScriptState} {events : List ScriptEvent}
    (sound : Sound host s registry) (run : exec (scriptStep host) s events = some u) : ∃ after, Sound host u after :=
  @exec_invariant _ _ (scriptStep host) (fun s => ∃ registry, Sound host s registry)
    (fun _ _ _ before step => by
      obtain ⟨_, before⟩ := before
      exact step_sound writes before step) _ _ _ run ⟨registry, sound⟩

end Steps

def oldRef : String := "01234567-89ab-4cde-8f01-23456789abcd"

def oldRow : StoredRow .gramSize where
  registryVersion := some 2
  indexId := some 0x0123456789ab4cde8f0123456789abcd#128
  ownerKey := some (ownerKey plainHost mainName logsName bodyName)
  schemaName := some mainName
  tableName := some logsName
  columnName := some bodyName
  metadata := .gramSize (some 4) (some 3) (some true) (some 41) (some "guard") (some "token")

def oldFound : RegistryRow where
  indexRef := oldRef
  ownerKey := ownerKey plainHost mainName logsName bodyName
  schemaName := mainName
  tableName := logsName
  columnName := bodyName
  formatVersion := 4
  metaInfo := ⟨⟨.ngram, 3, 3, true⟩, -1, bodyName, "guard", "token"⟩
  error := predates 4 2

/-- One index of format 4, with its statistics, beside a view of the user's. -/
def oldStart : ScriptState where
  store := {
    catalog := { logsCatalog with
      registry := .table 7 .gramSize [oldRow]
      entries := [⟨"registry", true⟩, ⟨"notes", false⟩, ⟨"segments_0123456789ab4cde8f0123456789abcd", true⟩,
        ⟨"stats_0123456789ab4cde8f0123456789abcd", true⟩] }
    legacy := []
    nextOid := 8 }
  pending := []

def newTable : BaseTable := { logsTable with
  indexes := [⟨"__ngram_guard_fedcba9876544cde8f0123456789abcd", NgramRowIdGuard.ngramRowidGuardType, [1],
    some (.bound ⟨"fresh", 41, false, true, none, none⟩)⟩] }

def newAnswers : HostAnswers := ⟨none, none, newTable, "fresh", some ⟨41, by decide⟩⟩

/-- The old index goes with its registry, and two creates of a new one are prepared. -/
def replacingRun : List ScriptEvent :=
  [.drop oldRef "", .execute 0 newAnswers,
    .create ⟨mainName, logsName, bodyName⟩ [] 0xfedcba9876544cde8f0123456789abcd#128,
    .create ⟨mainName, logsName, bodyName⟩ [.gram (some 2)] 0xaaaaaaaa76544cde8f0123456789abcd#128]

def replacedEnd : ScriptState := (exec (scriptStep plainRuntime) oldStart replacingRun).getD oldStart

def described (catalog : Catalog) : List (Status × String) :=
  (observeCatalog plainRuntime catalog).map fun observed => (observed.status, observed.location.indexRef)

theorem oldStart_kept : Kept plainRuntime oldStart.store ⟨7, .gramSize, [oldFound]⟩ := by
  have kinds : ∀ entry ∈ oldStart.store.catalog.entries, entryKind plainHost entry = .registry ∨
      entryKind plainHost entry = .foreign ∨ entryKind plainHost entry = .segments oldRef ∨
        entryKind plainHost entry = .format4Stats oldRef := by decide +kernel
  exact {
    read := by decide +kernel
    names := by decide +kernel
    distinct := by simp
    numbered := by decide
    present := fun _ => by decide
    stored := fun _ row listed => by
      rw [List.mem_singleton.mp listed]
      decide +kernel
    storedLegacy := fun legacy => by cases legacy
    once := List.nodup_nil
    segments := fun entry here ref kind => by
      have found := kinds entry here
      rw [show entryKind plainHost entry = .segments ref from kind] at found
      simp only [reduceCtorEq, EntryKind.segments.injEq, false_or, or_false] at found
      exact .inr ⟨by decide, found ▸ List.mem_singleton.mpr rfl⟩
    stats := fun entry here ref kind => by
      have found := kinds entry here
      rw [show entryKind plainHost entry = .format4Stats ref from kind] at found
      simp only [reduceCtorEq, EntryKind.format4Stats.injEq, false_or] at found
      exact .inr ⟨by decide, found ▸ List.mem_singleton.mpr rfl⟩
    schemas := fun ref here => by cases here }

end NgramCatalogScripts
