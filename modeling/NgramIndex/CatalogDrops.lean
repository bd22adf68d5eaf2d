import NgramIndex.CatalogHistory

/- When a listed index can be dropped by its reference, whatever the listing says of it: its
   guard is the recorded one or gone, and nothing of the user's is in the way. -/
namespace NgramCatalogScripts
open Fallible NgramGram NgramMaintenance NgramOwnerKeys NgramCatalogListing NgramRowIdGuard Utf8
open NgramIndexRegistry (RegistryShape hex)

section Located
variable {host : Runtime} {s : IndexedCatalog} {registry : RegistrySnapshot} {row : RegistryRow}

theorem locate_listed (folds : host.FoldsBytes) (writes : WritesUuids host.toHost) (kept : Kept host s registry)
    (oid : registry.oid ≠ 0) (listed : row ∈ registry.rows) (guardName guardToken : String) :
    locateIndex host s.catalog (ownerOf row)
        { locationOf row registry.oid with guardName := guardName, guardToken := guardToken } =
      .ok ⟨.available, [], some row.metaInfo⟩ :=
  verdict_listed folds writes kept.read oid kept.distinct listed rfl rfl rfl none

theorem listed_oid (kept : Kept host s registry) (listed : row ∈ registry.rows) : registry.oid ≠ 0 := by
  refine kept.present fun absent => ?_
  have read := kept.read
  rw [absent] at read
  rw [← ok_inj read] at listed
  cases listed

theorem found_listed (writes : WritesUuids host.toHost) (kept : Kept host s registry) (listed : row ∈ registry.rows) :
    findObserved host s.catalog row.indexRef = .ok (listedRow host s.catalog registry row) := by
  obtain ⟨strays, observed, _⟩ := kept_listing writes kept
  have first : (observeCatalog host s.catalog).find? (fun other => other.location.indexRef == row.indexRef) =
      some (listedRow host s.catalog registry row) := by
    rw [observed, List.find?_append, find_listed kept.distinct listed]
    rfl
  rw [findObserved, if_neg (not_not.mpr (readRegistry_canonical kept.read listed)), first]

theorem identity_guardless (kept : Kept host s registry) (legacy : registry.shape = .identityOnly)
    (listed : row ∈ registry.rows) : row.metaInfo.guardName = "" := by
  obtain ⟨_, _, metadata, guardless, run⟩ := identity_read kept.read legacy listed
  cases metadata
  rw [← ok_inj (check_ok run).2]
  exact guardless

end Located

section Forward
variable {host : Runtime} {answers : HostAnswers} {target : ResolvedTarget} {token : String} {s : IndexedCatalog}
  {registry : RegistrySnapshot} {row : RegistryRow}

def hasRegistry (s : IndexedCatalog) : Prop := ∃ oid shape, ∃ rows : List (StoredRow shape),
  s.catalog.registry = .table oid shape rows

theorem listed_registry (kept : Kept host s registry) (listed : row ∈ registry.rows) : hasRegistry s := by
  rcases readRegistry_cases kept.read with ⟨_, rfl⟩ | ⟨oid, shape, rows, table, _, _⟩
  · cases listed
  · exact ⟨oid, shape, rows, table⟩

theorem deleteRow_runs (answers : HostAnswers) (target : ResolvedTarget) (token : String)
    (writes : WritesUuids host.toHost) (there : hasRegistry s) {indexRef : String}
    (canonical : isCanonicalUUID host.toHost indexRef = true) :
    ∃ m, runStatement host answers target token s (.deleteRow indexRef) = .ok m ∧ hasRegistry m ∧
      m.catalog.entries = s.catalog.entries ∧ m.legacy = s.legacy := by
  obtain ⟨oid, shape, rows, table⟩ := there
  obtain ⟨id, rfl⟩ := canonical_text canonical
  refine ⟨{ s with catalog := { s.catalog with
    registry := .table oid shape (rows.filter fun row => row.indexId ≠ some id) } }, ?_, ⟨_, _, _, rfl⟩, rfl, rfl⟩
  refine (bind_of_ok (writes.read id)).trans ?_
  rw [table]

/-- Every entry of that name, in any case, is an ordinary table. -/
def OnlyTables (s : IndexedCatalog) (name : String) : Prop :=
  ∀ entry ∈ s.catalog.entries, lowered entry.name = lowered name → entry.duckTable = true

def droppedTable (s : IndexedCatalog) (name : String) : IndexedCatalog :=
  { s with catalog := { s.catalog with
    entries := s.catalog.entries.filter fun entry => lowered entry.name ≠ lowered name } }

theorem dropTable_runs (host : Runtime) (answers : HostAnswers) (target : ResolvedTarget) (token : String)
    {name : String} (tables : OnlyTables s name) :
    runStatement host answers target token s (.dropTableIfExists name) = .ok (droppedTable s name) := by
  refine if_neg fun view => ?_
  obtain ⟨entry, listed, named⟩ := List.any_eq_true.mp view
  rw [Bool.and_eq_true, decide_eq_true_eq] at named
  rw [tables entry listed named.2] at named
  cases named.1

theorem dropTable_tables {name : String} {t : IndexedCatalog}
    (run : runStatement host answers target token s (.dropTableIfExists name) = .ok t) : OnlyTables s name := by
  intro entry listed named
  by_contra view
  apply (check_ok run).1
  refine List.any_eq_true.mpr ⟨entry, listed, ?_⟩
  rw [Bool.not_eq_true] at view
  rw [view, Bool.not_false, Bool.true_and, decide_eq_true named]

theorem storage_names_apart (indexRef : String) :
    lowered (format4StatsTable indexRef) ≠ lowered (segmentsTable indexRef) := by
  intro same
  have starts : segmentsPrefix.toList.map Char.toLower = 's' :: 'e' :: "gments_".toList ∧
      statsPrefix.toList.map Char.toLower = 's' :: 't' :: "ats_".toList := by decide +kernel
  rw [lowered, lowered, format4StatsTable, segmentsTable, String.toList_append, String.toList_append, List.map_append,
    List.map_append, starts.1, starts.2] at same
  have second : 't' = 'e' := (List.cons.inj (List.cons.inj same).2).1
  exact absurd second (by decide)

/-- The segments table stands apart from the statistics, so dropping it leaves what bears their name. -/
theorem dropped_only_tables {indexRef : String} : OnlyTables (droppedTable s (segmentsTable indexRef))
    (format4StatsTable indexRef) ↔ OnlyTables s (format4StatsTable indexRef) := by
  constructor
  · intro tables entry listed named
    exact tables entry (List.mem_filter.mpr
      ⟨listed, decide_eq_true (named ▸ storage_names_apart indexRef)⟩) named
  · intro tables entry listed named
    exact tables entry (List.mem_filter.mp listed).1 named

theorem segments_only_tables (writes : WritesUuids host.toHost) (kept : Kept host s registry)
    (listed : row ∈ registry.rows) (shape : registry.shape ≠ .identityOnly) :
    OnlyTables s (segmentsTable row.indexRef) := by
  intro entry here named
  obtain ⟨table, there, own⟩ := List.any_eq_true.mp (kept.stored shape row listed)
  rw [Bool.and_eq_true, decide_eq_true_eq] at own
  have canonical := readRegistry_canonical kept.read listed
  have same : lowered entry.name = lowered table.name :=
    named.trans ((lowered_storage writes canonical).1.trans own.2.symm)
  rw [List.inj_on_of_nodup_map kept.names here there same]
  exact own.1

theorem dropRegistry_runs (there : hasRegistry s) :
    runStatement host answers target token s .dropRegistry =
      .ok { s with catalog := { s.catalog with
        registry := .absent, entries := s.catalog.entries.filter (!isRegistry ·) } } := by
  obtain ⟨oid, shape, rows, table⟩ := there
  unfold runStatement
  dsimp only
  rw [table]

theorem dropSchema_runs_iff :
    (∃ t, runStatement host answers target token s .dropSchema = .ok t) ↔ s.catalog.entries = [] := by
  unfold runStatement
  constructor
  · rintro ⟨t, run⟩
    exact not_not.mp (check_ok run).1
  · intro empty
    exact ⟨s, if_neg (not_not.mpr empty)⟩

theorem foldlM_cons_of {statement : Statement} {rest : List Statement} {m : IndexedCatalog}
    (first : runStatement host answers target token s statement = .ok m) :
    (statement :: rest).foldlM (runStatement host answers target token) s =
      rest.foldlM (runStatement host answers target token) m := by
  rw [List.foldlM_cons, bind_of_ok first]

/-- The storage statements run to their end, or to a schema that is not empty, or to what is
    no statistics table under the name of one. -/
theorem storage_runs_iff {index : ObservedIndex} {rows : Nat} (there : hasRegistry s)
    (legacy : index.registryShape = .identityOnly → index.location.indexRef ∈ s.legacy)
    (segments : index.registryShape ≠ .identityOnly → OnlyTables s (segmentsTable index.location.indexRef)) :
    (∃ t, (storageStatements index rows).foldlM (runStatement host answers target token) s = .ok t) ↔
      ¬ (index.registryShape = .identityOnly ∧ rows = 1 ∧ ∃ entry ∈ s.catalog.entries, isRegistry entry = false) ∧
        (index.registryShape ≠ .identityOnly → index.formatVersion = 4 →
          OnlyTables s (format4StatsTable index.location.indexRef)) := by
  by_cases old : index.registryShape = .identityOnly
  · rw [storageStatements, old]
    dsimp only
    have first : runStatement host answers target token s (.dropLegacy index.location.indexRef) =
        .ok { s with legacy := s.legacy.erase index.location.indexRef } := if_pos (legacy old)
    rw [foldlM_cons_of first]
    by_cases one : rows = 1
    · have still : hasRegistry { s with legacy := s.legacy.erase index.location.indexRef } := there
      rw [if_pos one, foldlM_cons_of (dropRegistry_runs still)]
      have emptied : s.catalog.entries.filter (!isRegistry ·) = [] ↔
          ¬ ∃ entry ∈ s.catalog.entries, isRegistry entry = false := by
        rw [List.filter_eq_nil_iff]
        simp
      have last (u : IndexedCatalog) : (∃ t, [Statement.dropSchema].foldlM (runStatement host answers target token) u =
          .ok t) ↔ ∃ t, runStatement host answers target token u .dropSchema = .ok t := by
        rw [List.foldlM_cons]
        constructor
        · rintro ⟨t, run⟩
          obtain ⟨m, here, _⟩ := bind_ok run
          exact ⟨m, here⟩
        · rintro ⟨t, run⟩
          exact ⟨t, bind_of_ok run⟩
      rw [last, dropSchema_runs_iff]
      refine emptied.trans ⟨fun clear => ⟨fun all => clear all.2.2, fun other => absurd rfl other⟩, fun both some => ?_⟩
      exact both.1 ⟨rfl, one, some⟩
    · rw [if_neg one]
      exact ⟨fun _ => ⟨fun all => one all.2.1, fun other => absurd rfl other⟩, fun _ => ⟨_, rfl⟩⟩
  · have statements : storageStatements index rows = .dropTableIfExists (segmentsTable index.location.indexRef) ::
        ((if index.formatVersion = 4 then [.dropTableIfExists (format4StatsTable index.location.indexRef)] else []) ++
          (if index.registryShape ≠ .current ∧ rows = 1 then [.dropRegistry] else [])) := by
      rw [storageStatements]
      cases shape : index.registryShape with
      | identityOnly => exact absurd shape old
      | current => rfl
      | gramSize => rfl
    have first := dropTable_runs host answers target token (segments old)
    rw [statements, foldlM_cons_of first]
    have rest (u : IndexedCatalog) (there : hasRegistry u) : ∃ t,
        (if index.registryShape ≠ .current ∧ rows = 1 then [Statement.dropRegistry] else []).foldlM
          (runStatement host answers target token) u = .ok t := by
      by_cases last : index.registryShape ≠ .current ∧ rows = 1
      · rw [if_pos last, foldlM_cons_of (dropRegistry_runs there)]
        exact ⟨_, rfl⟩
      · rw [if_neg last]
        exact ⟨u, rfl⟩
    by_cases four : index.formatVersion = 4
    · rw [if_pos four, List.singleton_append]
      constructor
      · rintro ⟨t, run⟩
        obtain ⟨n, second, _⟩ := foldlM_cons_ok run
        exact ⟨fun all => old all.1, fun _ _ => dropped_only_tables.mp (dropTable_tables second)⟩
      · rintro ⟨_, stats⟩
        have second := dropTable_runs host answers target token (dropped_only_tables.mpr (stats old four))
        rw [foldlM_cons_of second]
        exact rest _ there
    · rw [if_neg four, List.nil_append]
      exact ⟨fun _ => ⟨fun all => old all.1, fun _ is_four => absurd is_four four⟩, fun _ => rest _ there⟩

end Forward

theorem legacyGuardName_ne (indexRef : String) : legacyGuardName indexRef ≠ "" := by
  intro empty
  unfold legacyGuardName at empty
  exact absurd (String.append_eq_empty_iff.mp empty).1 (by decide)

section Guards
variable {compatible : Bool} {cataloged : Option CatalogIndex} {indexes : List IndexEntry}
  {bindRefusal : Option String} {guardName guardToken : String}

def recordedIncarnation (compatible : Bool) (bindRefusal : Option String) (guardToken : String) : Binding → Prop
  | .bound guard => guard.token = guardToken
  | .unbound storage _ => storage.token = some guardToken ∧ bindRefusal = none ∧
      (guardCreateInstance compatible storage).token = guardToken

/-- The guard is gone altogether, or it is the recorded incarnation on this table. -/
def GuardDroppable (compatible : Bool) (cataloged : Option CatalogIndex) (indexes : List IndexEntry)
    (bindRefusal : Option String) (guardName guardToken : String) : Prop :=
  guardToken ≠ "" ∧ (cataloged = none ∧ (indexes.find? fun entry => entry.name == guardName) = none ∨
    ∃ entry binding, cataloged = some ⟨ngramRowidGuardType, true⟩ ∧
      (indexes.find? fun entry => entry.name == guardName) = some entry ∧ entry.indexType = ngramRowidGuardType ∧
      entry.binding = some binding ∧ recordedIncarnation compatible bindRefusal guardToken binding)

theorem incarnationReason_none {binding : Binding} : incarnationReason compatible bindRefusal guardToken binding = none ↔
    recordedIncarnation compatible bindRefusal guardToken binding := by
  cases binding with
  | bound guard => simp [incarnationReason, recordedIncarnation]
  | unbound storage replays =>
    cases token : storage.token with
    | none => simp [incarnationReason, recordedIncarnation, token]
    | some token =>
      cases bindRefusal with
      | none =>
        simp only [incarnationReason, recordedIncarnation, token, objection_none, not_not, Option.some.injEq, true_and,
          and_true]
      | some refusal => simp [incarnationReason, recordedIncarnation, token, objection_none]

theorem guardDropReason_none (named : guardName ≠ "") :
    guardDropReason compatible cataloged indexes bindRefusal guardName guardToken = none ↔
      GuardDroppable compatible cataloged indexes bindRefusal guardName guardToken := by
  unfold guardDropReason GuardDroppable
  rw [objection_none, objection_none, not_or, and_assoc]
  refine ⟨fun ⟨_, recorded, mine, rest⟩ => ⟨recorded, ?_⟩, fun ⟨recorded, either⟩ => ⟨named, recorded, ?_⟩⟩
  · cases found : indexes.find? fun entry => entry.name == guardName with
    | none =>
      rw [found] at rest
      obtain ⟨uncataloged, _⟩ := objection_none.mp rest
      exact .inl ⟨by simpa using uncataloged, rfl⟩
    | some entry =>
      rw [found] at rest
      obtain ⟨there, installed⟩ := objection_none.mp rest
      obtain ⟨⟨indexType, ofTable⟩, rfl⟩ := Option.ne_none_iff_exists'.mp there
      cases binding : entry.binding with
      | none =>
        rw [binding] at installed
        cases installed
      | some bound =>
        rw [binding] at installed
        obtain ⟨typed, incarnation⟩ := objection_none.mp installed
        obtain ⟨rfl, rfl⟩ : indexType = ngramRowidGuardType ∧ ofTable = true := by simpa using mine
        exact .inr ⟨entry, bound, rfl, rfl, not_not.mp typed, binding, incarnationReason_none.mp incarnation⟩
  · rcases either with ⟨rfl, missing⟩ | ⟨entry, bound, rfl, found, typed, binding, incarnation⟩
    · rw [missing]
      exact ⟨by simp, rfl⟩
    · rw [found]
      refine ⟨by simp, objection_none.mpr ⟨by simp, ?_⟩⟩
      rw [binding]
      exact objection_none.mpr ⟨not_not.mpr typed, incarnationReason_none.mpr incarnation⟩

end Guards

section Generated
variable {host : Runtime} {s : IndexedCatalog} {registry : RegistrySnapshot} {row : RegistryRow}

def recordedGuard (registry : RegistrySnapshot) (row : RegistryRow) (legacyToken : String) : String × String :=
  if registry.shape = .identityOnly then (legacyGuardName row.indexRef, legacyToken)
  else (row.metaInfo.guardName, row.metaInfo.guardToken)

/-- The guard goes with the row when its table is still there and no other row of the table records it. -/
def takesGuard (host : Host) (catalog : Catalog) (registry : RegistrySnapshot) (row : RegistryRow) : Bool :=
  (catalog.base row.schemaName row.tableName).isSome && (recordedGuard registry row "").1 != "" &&
    otherGuardReferences host registry.rows (ownerOf row) (recordedGuard registry row "").1 row.indexRef == 0

theorem legacy_unshared (kept : Kept host s registry) (legacy : registry.shape = .identityOnly) :
    otherGuardReferences host.toHost registry.rows (ownerOf row) (legacyGuardName row.indexRef) row.indexRef = 0 := by
  refine List.countP_eq_zero.mpr fun other there => ?_
  have named : ("" == legacyGuardName row.indexRef) = false :=
    beq_eq_false_iff_ne.mpr (legacyGuardName_ne row.indexRef).symm
  dsimp only
  rw [identity_guardless kept legacy there, named, Bool.and_false]
  exact Bool.false_ne_true

theorem drop_listed (writes : WritesUuids host.toHost) (kept : Kept host s registry) (listed : row ∈ registry.rows)
    (legacyToken : String) : dropByReference host s.catalog row.indexRef legacyToken =
      .ok (dropScript (listedRow host s.catalog registry row) registry.rows.length
        (recordedGuard registry row legacyToken).1 (recordedGuard registry row legacyToken).2
        (takesGuard host.toHost s.catalog registry row)) := by
  have reached : dropByReference host s.catalog row.indexRef legacyToken =
      dropIndexScript host.toHost s.catalog (listedRow host s.catalog registry row) legacyToken :=
    (bind_of_ok (found_listed writes kept listed)).trans (if_neg (listed_oid kept listed))
  rw [reached, dropIndexScript, bind_of_ok kept.read]
  by_cases legacy : registry.shape = .identityOnly
  · have shape : ((listedRow host s.catalog registry row).registryShape == .identityOnly) = true :=
      beq_iff_eq.mpr legacy
    have alone := @legacy_unshared host s registry row kept legacy
    simp only [shape, if_true, Bool.true_or, Bool.and_true, recordedGuard, if_pos legacy, takesGuard, alone, beq_self_eq_true]
    rfl
  · have shape : ((listedRow host s.catalog registry row).registryShape == .identityOnly) = false :=
      beq_eq_false_iff_ne.mpr legacy
    simp only [shape, Bool.false_eq_true, if_false, Bool.false_or, recordedGuard, if_neg legacy, takesGuard]
    rfl

theorem drop_checked_iff (folds : host.FoldsBytes) (writes : WritesUuids host.toHost) (kept : Kept host s registry)
    (listed : row ∈ registry.rows) (answers : HostAnswers) (legacyToken : String) :
    checkPrepared host answers s.catalog (ownerOf row) (.drop { locationOf row registry.oid with
        guardName := (recordedGuard registry row legacyToken).1, guardToken := (recordedGuard registry row legacyToken).2 }
      (takesGuard host.toHost s.catalog registry row)) = .ok () ↔
    (takesGuard host.toHost s.catalog registry row = true →
      ∀ table, s.catalog.base row.schemaName row.tableName = some table → GuardDroppable host.compatible
        (catalogedIndex host.toHost s.catalog row.schemaName row.tableName (recordedGuard registry row "").1)
        table.indexes answers.bindRefusal (recordedGuard registry row "").1
        (recordedGuard registry row legacyToken).2) := by
  have same_name : (recordedGuard registry row legacyToken).1 = (recordedGuard registry row "").1 := by
    unfold recordedGuard
    split <;> rfl
  rw [same_name, checkPrepared, checkPreparedDrop,
    bind_of_ok (locate_listed folds writes kept (listed_oid kept listed) listed _ _)]
  dsimp only
  cases takes : takesGuard host.toHost s.catalog registry row with
  | false => simp
  | true =>
    obtain ⟨both, alone⟩ := Bool.and_eq_true_iff.mp takes
    obtain ⟨base, named⟩ := Bool.and_eq_true_iff.mp both
    obtain ⟨table, found⟩ := Option.isSome_iff_exists.mp base
    have nonempty : (recordedGuard registry row "").1 ≠ "" := by simpa using named
    have reason := @guardDropReason_none host.compatible
      (catalogedIndex host.toHost s.catalog row.schemaName row.tableName (recordedGuard registry row "").1) table.indexes
      answers.bindRefusal _ (recordedGuard registry row legacyToken).2 nonempty
    rw [if_neg (by simp), bind_of_ok kept.read]
    refine (Eq.congr_left (if_neg (not_not.mpr (beq_iff_eq.mp alone)))).trans ?_
    have found' : s.catalog.base (ownerOf row).schemaName (ownerOf row).tableName = some table := found
    rw [checkGuardDrop, found']
    refine Iff.trans ?_ (reason.trans ⟨fun goes _ other same => ?_, fun goes => goes rfl table found⟩)
    · dsimp only [rowIdGuardDropReason, ownerOf]
      split
      next refusal objected => exact ⟨fun failed => (nomatch failed), fun silent => by rw [silent] at objected; cases objected⟩
      next silent => exact ⟨fun _ => silent, fun _ => rfl⟩
    · obtain rfl := Option.some.inj (found.symm.trans same)
      exact goes

end Generated

/-- The old index, whose guard was dropped and created again under its name. -/
def recreatedStart : IndexedCatalog := { oldStart.store with
  catalog := { oldStart.store.catalog with
    base := fun schema table =>
      if plainHost.ciEquals schema mainName && plainHost.ciEquals table logsName then
        some { logsTable with indexes :=
          [⟨"guard", ngramRowidGuardType, [1], some (.bound ⟨"other", 41, false, true, none, none⟩)⟩] }
      else none } }

end NgramCatalogScripts
