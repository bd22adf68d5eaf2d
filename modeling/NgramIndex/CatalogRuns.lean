import NgramIndex.CatalogScripts
import NgramIndex.SharedGuard

/- What holds of a catalog whatever scripts ran: each registry row has its storage, and
   no storage is without a row. Inside a script some storage may be loose. -/
namespace NgramCatalogScripts
open LabelledRun Fallible NgramGram NgramMaintenance NgramOwnerKeys NgramCatalogListing Utf8
open NgramIndexRegistry (RegistryShape hex)
open NgramPragmaParameters (registryInsert recordedRow readRow_inserted)
open scoped List

/-- Rows and storage agree, but for the segments, statistics and schemas of the ids that
    a script has yet to deal with. -/
structure KeptBut (host : Runtime) (s : IndexedCatalog) (registry : RegistrySnapshot)
    (segments stats schemas : String → Prop) : Prop where
  read : readRegistry host.toHost s.catalog.registry {} = .ok registry
  names : (s.catalog.entries.map fun entry => lowered entry.name).Nodup
  distinct : (registry.rows.map RegistryRow.indexRef).Nodup
  numbered : registry.oid < s.nextOid
  present : s.catalog.registry ≠ .absent → registry.oid ≠ 0
  stored : registry.shape ≠ .identityOnly → ∀ row ∈ registry.rows, holdsTable s.catalog (segmentsTable row.indexRef) = true
  storedLegacy : registry.shape = .identityOnly → ∀ row ∈ registry.rows, row.indexRef ∈ s.legacy
  once : s.legacy.Nodup
  segments : ∀ entry ∈ s.catalog.entries, ∀ ref, entryKind host.toHost entry = .segments ref →
    segments ref ∨ registry.shape ≠ .identityOnly ∧ ref ∈ registry.rows.map RegistryRow.indexRef
  stats : ∀ entry ∈ s.catalog.entries, ∀ ref, entryKind host.toHost entry = .format4Stats ref →
    stats ref ∨ registry.shape ≠ .identityOnly ∧ ref ∈ format4Refs registry.rows
  schemas : ∀ ref ∈ s.legacy, schemas ref ∨ registry.shape = .identityOnly ∧
    ref ∈ registry.rows.map RegistryRow.indexRef

def nothing (_ : String) : Prop := False

/-- Each row has its storage, and each storage its row. -/
abbrev Kept (host : Runtime) (s : IndexedCatalog) (registry : RegistrySnapshot) : Prop :=
  KeptBut host s registry nothing nothing nothing

section Registries
variable {host : Host} {oid : Nat} {shape : RegistryShape} {stored : List (StoredRow shape)}

theorem readRegistry_of_each (each : ∀ row ∈ stored, ∃ out, readRow host {} row = .ok out) :
    readRegistry host (.table oid shape stored) {} = .ok ⟨oid, shape, stored.filterMap (readAlone host)⟩ := by
  obtain ⟨outs, all⟩ := mapM_total stored each
  rw [readRegistry_table rfl]
  have every : (stored.filter fun row => ({} : RegistrySelector).ownerKey = [] ||
      row.ownerKey = some ({} : RegistrySelector).ownerKey) = stored := List.filter_eq_self.mpr fun _ _ => rfl
  rw [every, bind_of_ok all]
  exact congrArg (fun rows => Except.ok (RegistrySnapshot.mk oid shape rows)) (mapM_filterMap id all)

theorem rows_deleted (writes : WritesUuids host) (key : BitVec 128) :
    (stored.filter fun row => row.indexId ≠ some key).filterMap (readAlone host) =
      (stored.filterMap (readAlone host)).filter (·.indexRef ≠ host.uuidText key) := by
  rw [List.filterMap_filter, List.filter_filterMap]
  refine List.filterMap_congr fun row _ => ?_
  cases read : readAlone host row with
  | none => simp
  | some out =>
    obtain ⟨id, kept, text, _⟩ := readRow_identity (readAlone_some.mp read)
    have same : row.indexId = some key ↔ out.indexRef = host.uuidText key := by
      rw [kept, text, Option.some_inj]
      exact ⟨fun same => by rw [same], uuidText_injective writes⟩
    by_cases mine : row.indexId = some key
    · simp [Option.filter, mine, same.mp mine]
    · simp [Option.filter, mine, mt same.mpr mine]

theorem rows_inserted {stored : List (StoredRow .current)} {row : StoredRow .current} {out : RegistryRow}
    (each : ∀ row ∈ stored, ∃ out, readRow host {} row = .ok out) (read : readRow host {} row = .ok (some out)) :
    readRegistry host (.table oid .current (stored ++ [row])) {} =
      .ok ⟨oid, .current, stored.filterMap (readAlone host) ++ [out]⟩ := by
  rw [readRegistry_of_each fun other listed => (List.mem_append.mp listed).elim (each other) fun last => by
    rw [List.mem_singleton.mp last]
    exact ⟨_, read⟩]
  rw [List.filterMap_append, List.filterMap_cons_some (readAlone_some.mpr read), List.filterMap_nil]

end Registries

section Names
variable {host : Host}

theorem hex_lower (writes : WritesUuids host) {indexRef : String} (canonical : isCanonicalUUID host indexRef = true) :
    (hex indexRef).toList.map Char.toLower = (hex indexRef).toList := by
  obtain ⟨id, rfl⟩ := canonical_text canonical
  obtain ⟨digits, _, plain, _, stripped⟩ := text_digits writes id
  rw [stripped]
  exact (List.map_congr_left fun c listed => (hexDigit_plain (plain c listed)).2.2).trans (List.map_id _)

theorem lowered_storage (writes : WritesUuids host) {indexRef : String}
    (canonical : isCanonicalUUID host indexRef = true) :
    lowered (segmentsTable indexRef) = (segmentsTable indexRef).toList ∧
      lowered (format4StatsTable indexRef) = (format4StatsTable indexRef).toList := by
  have digits := hex_lower writes canonical
  have starts : segmentsPrefix.toList.map Char.toLower = segmentsPrefix.toList ∧
      statsPrefix.toList.map Char.toLower = statsPrefix.toList := by decide +kernel
  rw [lowered, lowered, segmentsTable, format4StatsTable, String.toList_append, String.toList_append,
    List.map_append, List.map_append, digits, starts.1, starts.2]
  exact ⟨rfl, rfl⟩

/-- Names of storage tell ids apart. -/
theorem storage_apart (writes : WritesUuids host) {a b : String} (first : isCanonicalUUID host a = true)
    (second : isCanonicalUUID host b = true) (same : segmentsTable a = segmentsTable b) : a = b := by
  obtain ⟨i, rfl⟩ := canonical_text first
  obtain ⟨j, rfl⟩ := canonical_text second
  obtain ⟨x, _, _, left, cut⟩ := text_digits writes i
  obtain ⟨y, _, _, right, cut'⟩ := text_digits writes j
  have digits := congrArg String.toList same
  rw [segmentsTable, segmentsTable, String.toList_append, String.toList_append, List.append_cancel_left_eq, cut,
    cut'] at digits
  rw [left, right, digits]

end Names

section Stages
variable {host : Runtime} {answers : HostAnswers} {target : ResolvedTarget} {token : String} {s t : IndexedCatalog}
  {registry : RegistrySnapshot} {looseSegments looseStats looseSchemas : String → Prop}

theorem kept_based (kept : KeptBut host s registry looseSegments looseStats looseSchemas)
    (base : Name → Name → Option BaseTable) (index : Name → String → Option SchemaIndex) :
    KeptBut host { s with catalog := { s.catalog with base := base, index := index } } registry looseSegments
      looseStats looseSchemas :=
  ⟨kept.read, kept.names, kept.distinct, kept.numbered, kept.present, kept.stored, kept.storedLegacy, kept.once,
    kept.segments, kept.stats, kept.schemas⟩

theorem names_filtered (p : SchemaEntry → Bool) {entries : List SchemaEntry}
    (names : (entries.map fun entry => lowered entry.name).Nodup) :
    ((entries.filter p).map fun entry => lowered entry.name).Nodup :=
  names.sublist (List.filter_sublist.map _)

theorem none_owned (kept : KeptBut host s registry looseSegments looseStats looseSchemas) (empty : registry.rows = []) :
    (∀ entry ∈ s.catalog.entries, ∀ ref, entryKind host.toHost entry = .segments ref → looseSegments ref) ∧
      (∀ entry ∈ s.catalog.entries, ∀ ref, entryKind host.toHost entry = .format4Stats ref → looseStats ref) ∧
      ∀ ref ∈ s.legacy, looseSchemas ref := by
  have lone : ∀ {p q : Prop} {ref : String}, p ∨ q ∧ ref ∈ registry.rows.map RegistryRow.indexRef → p := by
    intro p q ref either
    rw [empty] at either
    simpa using either
  refine ⟨fun entry listed ref kind => lone (kept.segments entry listed ref kind), fun entry listed ref kind => ?_,
    fun ref listed => lone (kept.schemas ref listed)⟩
  rcases kept.stats entry listed ref kind with loose | ⟨_, owned⟩
  · exact loose
  · rw [format4Refs, empty] at owned
    cases owned

/-- A registry without rows owns nothing, so it can go. -/
theorem dropRegistry_kept (kept : KeptBut host s registry looseSegments looseStats looseSchemas)
    (empty : registry.rows = []) (run : runStatement host answers target token s .dropRegistry = .ok t) :
    KeptBut host t ⟨0, .current, []⟩ looseSegments looseStats looseSchemas := by
  obtain ⟨segments, stats, schemas⟩ := none_owned kept empty
  unfold runStatement at run
  dsimp only at run
  split at run
  · obtain rfl := ok_inj run
    exact {
      read := rfl
      names := names_filtered _ kept.names
      distinct := List.nodup_nil
      numbered := Nat.zero_lt_of_lt kept.numbered
      present := fun there => absurd rfl there
      stored := fun _ row listed => absurd listed List.not_mem_nil
      storedLegacy := fun _ row listed => absurd listed List.not_mem_nil
      once := kept.once
      segments := fun entry listed ref kind => .inl (segments entry (List.mem_filter.mp listed).1 ref kind)
      stats := fun entry listed ref kind => .inl (stats entry (List.mem_filter.mp listed).1 ref kind)
      schemas := fun ref listed => .inl (schemas ref listed) }
  · cases run

theorem dropRegistry_frame (run : runStatement host answers target token s .dropRegistry = .ok t) :
    t.catalog.base = s.catalog.base ∧ t.catalog.name = s.catalog.name := by
  unfold runStatement at run
  dsimp only at run
  split at run
  · obtain rfl := ok_inj run
    exact ⟨rfl, rfl⟩
  · cases run

theorem dropRegistry_next (run : runStatement host answers target token s .dropRegistry = .ok t) :
    t.nextOid = s.nextOid := by
  unfold runStatement at run
  dsimp only at run
  split at run
  · obtain rfl := ok_inj run
    rfl
  · cases run

theorem createRegistry_kept (kept : KeptBut host s registry looseSegments looseStats looseSchemas)
    (empty : registry.rows = []) (run : runStatement host answers target token s .createRegistry = .ok t) :
    KeptBut host t ⟨s.nextOid, .current, []⟩ looseSegments looseStats looseSchemas := by
  obtain ⟨segments, stats, schemas⟩ := none_owned kept empty
  obtain ⟨unnamed, same⟩ := check_ok run
  obtain rfl := ok_inj same
  have fresh : ∀ entry ∈ s.catalog.entries, lowered entry.name ≠ lowered registryTable := by
    intro entry listed named
    refine unnamed (List.any_eq_true.mpr ⟨entry, listed, decide_eq_true (named.trans ?_)⟩)
    decide +kernel
  have own : entryKind host.toHost ⟨registryTable, true⟩ = .registry :=
    kind_registry.mpr ⟨rfl, by decide +kernel⟩
  have each {entry : SchemaEntry} {kind : EntryKind} (other : kind ≠ .registry)
      (listed : entry ∈ s.catalog.entries ++ [⟨registryTable, true⟩]) (found : entryKind host.toHost entry = kind) :
      entry ∈ s.catalog.entries := by
    rcases List.mem_append.mp listed with here | last
    · exact here
    · rw [List.mem_singleton.mp last, own] at found
      exact absurd found.symm other
  exact {
    read := rfl
    names := by
      rw [List.map_append, List.map_cons, List.map_nil]
      refine List.nodup_append.mpr ⟨kept.names, List.nodup_singleton _, ?_⟩
      rintro _ listed _ last rfl
      obtain ⟨entry, here, named⟩ := List.mem_map.mp listed
      exact fresh entry here (named.trans (List.mem_singleton.mp last))
    distinct := List.nodup_nil
    numbered := Nat.lt_succ_self _
    present := fun _ => Nat.ne_zero_of_lt kept.numbered
    stored := fun _ row listed => absurd listed List.not_mem_nil
    storedLegacy := fun _ row listed => absurd listed List.not_mem_nil
    once := kept.once
    segments := fun entry listed ref kind => .inl (segments entry (each (by simp) listed kind) ref kind)
    stats := fun entry listed ref kind => .inl (stats entry (each (by simp) listed kind) ref kind)
    schemas := fun ref listed => .inl (schemas ref listed) }

theorem recorded_bounds (answers : HostAnswers) : -1 ≤ recordedHwm answers ∧ recordedHwm answers < maxRowId := by
  unfold recordedHwm
  cases answers.committedHwm with
  | none => decide
  | some rowid =>
    have below := rowid.isLt
    dsimp only
    omega

theorem holds_more {catalog : Catalog} {entries : List SchemaEntry} {name : String}
    (holds : holdsTable catalog name = true) (more : catalog.entries ⊆ entries) :
    holdsTable { catalog with entries := entries } name = true := by
  obtain ⟨entry, listed, named⟩ := List.any_eq_true.mp holds
  exact List.any_eq_true.mpr ⟨entry, more listed, named⟩

/-- The row of a new index and its segments table, together. -/
theorem insert_kept (writes : WritesUuids host.toHost) (kept : Kept host s registry) (current : registry.shape = .current)
    {indexId : BitVec 128} {options : GramOptions} {guardName : String} {m : IndexedCatalog}
    (canonical : isCanonicalUUID host.toHost (host.uuidText indexId) = true)
    (valid : validateGramOptions options "ngram" = .ok ())
    (insert : runStatement host answers target token s (.insertRow indexId options guardName) = .ok m)
    (create : runStatement host answers target token m (.createSegments (host.uuidText indexId)) = .ok t) :
    Kept host t ⟨registry.oid, .current, registry.rows ++
        [recordedRow host.toHost target indexId options (recordedHwm answers) guardName token]⟩ ∧
      t.catalog.base = s.catalog.base ∧ t.catalog.name = s.catalog.name := by
  obtain ⟨unnamed, same⟩ := check_ok create
  obtain rfl := ok_inj same
  unfold runStatement at insert
  dsimp only at insert
  split at insert
  next oid rows at_registry =>
    obtain ⟨unique, same⟩ := check_ok insert
    obtain rfl := ok_inj same
    have read := kept.read
    rw [at_registry] at read
    rcases readRegistry_cases read with ⟨absent, _⟩ | ⟨_, _, _, table, whole, each⟩
    · cases absent
    cases table
    subst whole
    have bounds := recorded_bounds answers
    have recorded := @readRow_inserted host.toHost target options indexId (recordedHwm answers) guardName token
      canonical valid bounds.1 bounds.2
    have fresh : host.uuidText indexId ∉ (rows.filterMap (readAlone host.toHost)).map RegistryRow.indexRef := by
      intro listed
      obtain ⟨row, found, text⟩ := List.mem_map.mp listed
      obtain ⟨source, stored, alone⟩ := List.mem_filterMap.mp found
      obtain ⟨id, key, named, _⟩ := readRow_identity (readAlone_some.mp alone)
      have mine : id = indexId := uuidText_injective writes (named.symm.trans text)
      refine unique (List.any_eq_true.mpr ⟨source, stored, ?_⟩)
      rw [Bool.or_eq_true, decide_eq_true_eq]
      exact .inl (key.trans (congrArg some mine))
    have name := (lowered_storage writes canonical).1
    have own : entryKind host.toHost ⟨segmentsTable (host.uuidText indexId), true⟩ =
        .segments (host.uuidText indexId) := (kind_segments writes).mpr ⟨rfl, canonical, name⟩
    refine ⟨{
      read := rows_inserted each recorded
      names := ?_
      distinct := ?_
      numbered := kept.numbered
      present := fun _ => kept.present (by rw [at_registry]; simp)
      stored := fun _ row listed => ?_
      storedLegacy := fun old => by cases old
      once := kept.once
      segments := fun entry listed ref kind => .inr ⟨by simp, ?_⟩
      stats := fun entry listed ref kind => .inr ⟨by simp, ?_⟩
      schemas := fun ref listed => ?_ }, rfl, rfl⟩
    · rw [List.map_append, List.map_cons, List.map_nil]
      refine List.nodup_append.mpr ⟨kept.names, List.nodup_singleton _, ?_⟩
      rintro _ listed _ last rfl
      obtain ⟨entry, here, named⟩ := List.mem_map.mp listed
      exact unnamed (List.any_eq_true.mpr ⟨entry, here, decide_eq_true (named.trans (List.mem_singleton.mp last))⟩)
    · rw [List.map_append, List.map_cons, List.map_nil]
      refine List.nodup_append.mpr ⟨kept.distinct, List.nodup_singleton _, ?_⟩
      rintro named listed _ last rfl
      have mine : named = host.uuidText indexId := List.mem_singleton.mp last
      exact fresh (mine ▸ listed)
    · rcases List.mem_append.mp listed with earlier | last
      · exact holds_more (kept.stored (by simp) row earlier) (List.subset_append_left _ _)
      · rw [List.mem_singleton.mp last]
        exact List.any_eq_true.mpr ⟨⟨segmentsTable (host.uuidText indexId), true⟩, by simp, by
          rw [Bool.true_and, decide_eq_true_eq]
          exact name⟩
    · rw [List.map_append]
      rcases List.mem_append.mp listed with here | last
      · obtain loose | ⟨_, owned⟩ := kept.segments entry here ref kind
        · exact loose.elim
        · exact List.mem_append_left _ owned
      · rw [List.mem_singleton.mp last, own] at kind
        cases kind
        exact List.mem_append_right _ (List.mem_singleton.mpr rfl)
    · rw [format4Refs, List.filter_append, List.map_append]
      rcases List.mem_append.mp listed with here | last
      · obtain loose | ⟨_, owned⟩ := kept.stats entry here ref kind
        · exact loose.elim
        · exact List.mem_append_left _ owned
      · rw [List.mem_singleton.mp last, own] at kind
        cases kind
    · obtain loose | ⟨old, _⟩ := kept.schemas ref listed
      · exact loose.elim
      · cases old
  · cases insert

/-- Deleting a row leaves its storage loose: its schema, or its segments and, if it has
    the format that kept them, its statistics. -/
theorem deleteRow_kept (writes : WritesUuids host.toHost) (kept : Kept host s registry) {row : RegistryRow}
    (listed : row ∈ registry.rows)
    (run : runStatement host answers target token s (.deleteRow row.indexRef) = .ok t) :
    KeptBut host t { registry with rows := registry.rows.filter (·.indexRef ≠ row.indexRef) }
      (fun ref => ref = row.indexRef ∧ registry.shape ≠ .identityOnly)
      (fun ref => ref = row.indexRef ∧ row.formatVersion = 4 ∧ registry.shape ≠ .identityOnly)
      (fun ref => ref = row.indexRef ∧ registry.shape = .identityOnly) ∧
    t.catalog.base = s.catalog.base ∧ t.catalog.name = s.catalog.name ∧ t.catalog.entries = s.catalog.entries ∧
      t.legacy = s.legacy := by
  obtain ⟨id, parsed, run⟩ := bind_ok run
  rcases readRegistry_cases kept.read with ⟨_, rfl⟩ | ⟨oid, shape, rows, table, rfl, each⟩
  · cases listed
  obtain ⟨source, _, alone⟩ := List.mem_filterMap.mp listed
  obtain ⟨key, _, text, _⟩ := readRow_identity (readAlone_some.mp alone)
  have mine : id = key := ok_inj (parsed.symm.trans (text ▸ writes.read key))
  subst mine
  rw [table] at run
  obtain rfl := ok_inj run
  have others : ∀ ref ∈ (rows.filterMap (readAlone host.toHost)).map RegistryRow.indexRef, ref = row.indexRef ∨
      ref ∈ ((rows.filterMap (readAlone host.toHost)).filter (·.indexRef ≠ row.indexRef)).map RegistryRow.indexRef := by
    rintro ref owned
    obtain ⟨other, found, rfl⟩ := List.mem_map.mp owned
    by_cases same : other.indexRef = row.indexRef
    · exact .inl same
    · exact .inr (List.mem_map_of_mem (List.mem_filter.mpr ⟨found, decide_eq_true same⟩))
  refine ⟨{
    read := ?_
    names := kept.names
    distinct := kept.distinct.sublist (List.filter_sublist.map _)
    numbered := kept.numbered
    present := fun _ => kept.present (by rw [table]; simp)
    stored := fun shape other found => kept.stored shape other (List.mem_filter.mp found).1
    storedLegacy := fun shape other found => kept.storedLegacy shape other (List.mem_filter.mp found).1
    once := kept.once
    segments := fun entry here ref kind => ?_
    stats := fun entry here ref kind => ?_
    schemas := fun ref here => ?_ }, rfl, rfl, rfl, rfl⟩
  · have read := @readRegistry_of_each host.toHost oid shape (rows.filter fun other => other.indexId ≠ some id)
      fun other found => each other (List.mem_filter.mp found).1
    rw [read, rows_deleted writes, ← text]
  · obtain loose | ⟨current, owned⟩ := kept.segments entry here ref kind
    · exact loose.elim
    · rcases others ref owned with same | other
      · exact .inl ⟨same, current⟩
      · exact .inr ⟨current, other⟩
  · obtain loose | ⟨current, owned⟩ := kept.stats entry here ref kind
    · exact loose.elim
    · obtain ⟨other, found, rfl⟩ := List.mem_map.mp owned
      obtain ⟨present, old⟩ := List.mem_filter.mp found
      by_cases same : other.indexRef = row.indexRef
      · have alike := List.inj_on_of_nodup_map kept.distinct present listed same
        subst alike
        exact .inl ⟨rfl, of_decide_eq_true old, current⟩
      · exact .inr ⟨current, List.mem_map_of_mem (List.mem_filter.mpr
          ⟨List.mem_filter.mpr ⟨present, decide_eq_true same⟩, old⟩)⟩
  · obtain loose | ⟨old, owned⟩ := kept.schemas ref here
    · exact loose.elim
    · rcases others ref owned with same | other
      · exact .inl ⟨same, old⟩
      · exact .inr ⟨old, other⟩

/-- Dropping a table settles the storage of its name and keeps every other row's. -/
theorem dropTable_kept (writes : WritesUuids host.toHost)
    (kept : KeptBut host s registry looseSegments looseStats looseSchemas) {indexRef name : String}
    (canonical : isCanonicalUUID host.toHost indexRef = true)
    (which : name = segmentsTable indexRef ∧ indexRef ∉ registry.rows.map RegistryRow.indexRef ∨
      name = format4StatsTable indexRef)
    (run : runStatement host answers target token s (.dropTableIfExists name) = .ok t) :
    KeptBut host t registry (fun ref => looseSegments ref ∧ name ≠ segmentsTable ref)
        (fun ref => looseStats ref ∧ name ≠ format4StatsTable ref) looseSchemas ∧
      t.catalog.base = s.catalog.base ∧ t.catalog.name = s.catalog.name ∧ t.nextOid = s.nextOid := by
  obtain ⟨_, same⟩ := check_ok run
  obtain rfl := ok_inj same
  have folded : lowered name = name.toList := by
    rcases which with ⟨rfl, _⟩ | rfl
    · exact (lowered_storage writes canonical).1
    · exact (lowered_storage writes canonical).2
  refine ⟨{
    read := kept.read
    names := names_filtered _ kept.names
    distinct := kept.distinct
    numbered := kept.numbered
    present := kept.present
    stored := fun shape row listed => ?_
    storedLegacy := kept.storedLegacy
    once := kept.once
    segments := fun entry here ref kind => ?_
    stats := fun entry here ref kind => ?_
    schemas := kept.schemas }, rfl, rfl, rfl⟩
  · obtain ⟨entry, here, named⟩ := List.any_eq_true.mp (kept.stored shape row listed)
    refine List.any_eq_true.mpr ⟨entry, List.mem_filter.mpr ⟨here, decide_eq_true fun gone => ?_⟩, named⟩
    rw [Bool.and_eq_true, decide_eq_true_eq] at named
    have alike : name = segmentsTable row.indexRef := String.toList_inj.mp (folded.symm.trans (gone.symm.trans named.2))
    rcases which with ⟨rfl, free⟩ | rfl
    · have own := storage_apart writes canonical (readRegistry_canonical kept.read listed) alike
      exact free (own ▸ List.mem_map_of_mem listed)
    · have starts := congrArg String.toList alike
      rw [format4StatsTable, segmentsTable, String.toList_append, String.toList_append] at starts
      exact (starts_apart _ _).2.2 starts.symm
  · obtain ⟨here, stays⟩ := List.mem_filter.mp here
    refine (kept.segments entry here ref kind).imp_left fun loose => ⟨loose, fun gone => ?_⟩
    rw [decide_eq_true_eq, folded, gone] at stays
    exact stays ((kind_segments writes).mp kind).2.2
  · obtain ⟨here, stays⟩ := List.mem_filter.mp here
    refine (kept.stats entry here ref kind).imp_left fun loose => ⟨loose, fun gone => ?_⟩
    rw [decide_eq_true_eq, folded, gone] at stays
    exact stays ((kind_stats writes).mp kind).2.2

theorem dropLegacy_kept (kept : KeptBut host s registry looseSegments looseStats looseSchemas) {indexRef : String}
    (free : indexRef ∉ registry.rows.map RegistryRow.indexRef)
    (run : runStatement host answers target token s (.dropLegacy indexRef) = .ok t) :
    KeptBut host t registry looseSegments looseStats (fun ref => looseSchemas ref ∧ ref ≠ indexRef) ∧
      t.catalog = s.catalog ∧ t.nextOid = s.nextOid := by
  obtain ⟨_, same⟩ | ⟨_, failed⟩ := branch_ok run
  swap
  · cases failed
  obtain rfl := ok_inj same
  refine ⟨{
    read := kept.read
    names := kept.names
    distinct := kept.distinct
    numbered := kept.numbered
    present := kept.present
    stored := kept.stored
    storedLegacy := fun old row listed => ?_
    once := kept.once.erase _
    segments := kept.segments
    stats := kept.stats
    schemas := fun ref here => ?_ }, rfl, rfl⟩
  · have differ : row.indexRef ≠ indexRef := fun same => free (same ▸ List.mem_map_of_mem listed)
    exact (List.mem_erase_of_ne differ).mpr (kept.storedLegacy old row listed)
  · obtain ⟨differ, here⟩ := kept.once.mem_erase_iff.mp here
    exact (kept.schemas ref here).imp_left fun loose => ⟨loose, differ⟩

end Stages

section Drops
variable {host : Runtime} {answers : HostAnswers} {target : ResolvedTarget} {token : String} {s t : IndexedCatalog}
  {registry : RegistrySnapshot}

theorem kept_settled {looseSegments looseStats looseSchemas : String → Prop}
    (kept : KeptBut host s registry looseSegments looseStats looseSchemas) (segments : ∀ ref, ¬ looseSegments ref)
    (stats : ∀ ref, ¬ looseStats ref) (schemas : ∀ ref, ¬ looseSchemas ref) : Kept host s registry :=
  { kept with
    segments := fun entry here ref kind => .inr ((kept.segments entry here ref kind).resolve_left (segments ref))
    stats := fun entry here ref kind => .inr ((kept.stats entry here ref kind).resolve_left (stats ref))
    schemas := fun ref here => .inr ((kept.schemas ref here).resolve_left (schemas ref)) }

/-- What a drop was generated from, against the registry that it is executed in. -/
structure Fits (registry : RegistrySnapshot) (index : ObservedIndex) (rows : Nat) : Prop where
  shape : index.registryShape = registry.shape
  format : ∀ row ∈ registry.rows, row.indexRef = index.location.indexRef → row.formatVersion = 4 →
    index.formatVersion = 4
  last : index.registryShape ≠ .current → rows = 1 → ∀ row ∈ registry.rows, row.indexRef = index.location.indexRef

/-- The registry stays as it was, or goes without rows. -/
def Remains (before after : RegistrySnapshot) : Prop :=
  after.oid = before.oid ∧ after.shape = before.shape ∧ after.rows = before.rows ∨
    before.rows = [] ∧ after = ⟨0, .current, []⟩

/-- The storage statements settle what the deleted row left loose. -/
theorem storage_settled (old : Prop) (writes : WritesUuids host.toHost) {index : ObservedIndex} {rows : Nat}
    (kept : KeptBut host s registry (fun ref => ref = index.location.indexRef ∧ registry.shape ≠ .identityOnly)
      (fun ref => ref = index.location.indexRef ∧ old ∧ registry.shape ≠ .identityOnly)
      (fun ref => ref = index.location.indexRef ∧ registry.shape = .identityOnly))
    (canonical : isCanonicalUUID host.toHost index.location.indexRef = true)
    (free : index.location.indexRef ∉ registry.rows.map RegistryRow.indexRef)
    (shape : index.registryShape = registry.shape) (format : old → index.formatVersion = 4)
    (last : index.registryShape ≠ .current → rows = 1 → registry.rows = [])
    (run : (storageStatements index rows).foldlM (runStatement host answers target token) s = .ok t) :
    ∃ after, Kept host t after ∧ Remains registry after ∧ t.catalog.base = s.catalog.base ∧
      t.catalog.name = s.catalog.name := by
  by_cases legacy : registry.shape = .identityOnly
  · rw [storageStatements, shape, legacy] at run
    dsimp only at run
    obtain ⟨m, first, run⟩ := foldlM_cons_ok run
    obtain ⟨settled, catalog, _⟩ := dropLegacy_kept kept free first
    have whole := kept_settled settled (fun ref loose => loose.2 legacy) (fun ref loose => loose.2.2 legacy)
      (fun ref loose => loose.2 loose.1.1)
    by_cases one : rows = 1
    · rw [if_pos one] at run
      obtain ⟨n, second, run⟩ := foldlM_cons_ok run
      obtain ⟨o, third, run⟩ := foldlM_cons_ok run
      have empty := last (by rw [shape, legacy]; simp) one
      have gone := dropRegistry_kept whole empty second
      obtain ⟨_, same⟩ := check_ok third
      obtain rfl := ok_inj same
      obtain rfl := ok_inj run
      obtain ⟨base, name⟩ := dropRegistry_frame second
      exact ⟨_, gone, .inr ⟨empty, rfl⟩, base.trans (congrArg Catalog.base catalog), name.trans (congrArg Catalog.name catalog)⟩
    · rw [if_neg one] at run
      obtain rfl := ok_inj run
      exact ⟨registry, whole, .inl ⟨rfl, rfl, rfl⟩, congrArg Catalog.base catalog, congrArg Catalog.name catalog⟩
  · have statements : storageStatements index rows = .dropTableIfExists (segmentsTable index.location.indexRef) ::
        ((if index.formatVersion = 4 then [.dropTableIfExists (format4StatsTable index.location.indexRef)] else []) ++
          (if registry.shape ≠ .current ∧ rows = 1 then [.dropRegistry] else [])) := by
      rw [storageStatements, shape]
      cases at_shape : registry.shape with
      | identityOnly => exact absurd at_shape legacy
      | current => rfl
      | gramSize => rfl
    rw [statements] at run
    obtain ⟨m, first, run⟩ := foldlM_cons_ok run
    obtain ⟨second, third, last_run⟩ := foldlM_append_ok run
    obtain ⟨settled, base, name, _⟩ := dropTable_kept writes kept canonical (.inl ⟨rfl, free⟩) first
    have whole : Kept host second registry ∧ second.catalog.base = m.catalog.base ∧
        second.catalog.name = m.catalog.name := by
      by_cases four : index.formatVersion = 4
      · rw [if_pos four] at third
        obtain ⟨n, drop, done⟩ := foldlM_cons_ok third
        obtain rfl := ok_inj done
        obtain ⟨cleared, base, name, _⟩ := dropTable_kept writes settled canonical (.inr rfl) drop
        refine ⟨kept_settled cleared (fun ref loose => loose.1.2 (congrArg segmentsTable loose.1.1.1.symm))
          (fun ref loose => loose.2 (congrArg format4StatsTable loose.1.1.1.symm)) (fun ref loose => legacy loose.2), base, name⟩
      · rw [if_neg four] at third
        obtain rfl := ok_inj third
        exact ⟨kept_settled settled (fun ref loose => loose.2 (congrArg segmentsTable loose.1.1.symm))
          (fun ref loose => four (format loose.1.2.1)) (fun ref loose => legacy loose.2), rfl, rfl⟩
    obtain ⟨whole, base', name'⟩ := whole
    by_cases gone : registry.shape ≠ .current ∧ rows = 1
    · rw [if_pos gone] at last_run
      obtain ⟨n, drop, done⟩ := foldlM_cons_ok last_run
      obtain rfl := ok_inj done
      have empty := last (by rw [shape]; exact gone.1) gone.2
      obtain ⟨base'', name''⟩ := dropRegistry_frame drop
      exact ⟨_, dropRegistry_kept whole empty drop, .inr ⟨empty, rfl⟩, base''.trans (base'.trans base),
        name''.trans (name'.trans name)⟩
    · rw [if_neg gone] at last_run
      obtain rfl := ok_inj last_run
      exact ⟨registry, whole, .inl ⟨rfl, rfl, rfl⟩, base'.trans base, name'.trans name⟩

theorem scanRows_subset {host : Host} {selector : RegistrySelector} {shape : RegistryShape}
    {rows scanned : List (StoredRow shape)} (run : scanRows host selector rows = .ok scanned) : scanned ⊆ rows := by
  rw [scanRows] at run
  obtain ⟨_, run⟩ | ⟨_, run⟩ := branch_ok run
  · obtain ⟨wanted, _, run⟩ := bind_ok run
    obtain rfl := ok_inj run
    exact List.filter_subset_self _
  · obtain ⟨wanted, _, run⟩ := bind_ok run
    obtain rfl := ok_inj run
    exact List.filter_subset_self _

theorem readRegistry_some {host : Host} {entry : RegistryEntry} {registry found : RegistrySnapshot} {indexRef : String}
    (whole : readRegistry host entry {} = .ok registry)
    (some : readRegistry host entry { indexRef := indexRef } = .ok found) :
    found.oid = registry.oid ∧ found.rows ⊆ registry.rows := by
  rcases readRegistry_cases whole with ⟨rfl, rfl⟩ | ⟨oid, shape, stored, rfl, rfl, _⟩
  · obtain rfl := ok_inj some
    exact ⟨rfl, List.Subset.refl _⟩
  · obtain ⟨scanned, filtered, some⟩ := bind_ok some
    obtain ⟨outs, all, some⟩ := bind_ok some
    obtain rfl := ok_inj some
    have rows := mapM_filterMap id all
    refine ⟨rfl, fun row listed => ?_⟩
    have among : row ∈ outs.filterMap id := listed
    rw [rows] at among
    obtain ⟨source, kept, read⟩ := List.mem_filterMap.mp among
    exact List.mem_filterMap.mpr ⟨source, scanRows_subset filtered kept, read⟩

theorem verdict_available {catalog : Catalog} {location : IndexLocation} {verdict : IndexVerdict}
    (run : locateIndex host catalog target location = .ok verdict) (available : verdict.availability = .available) :
    ∃ row, locatedRow host.toHost catalog target location = .ok (some row) := by
  unfold locateIndex NgramCatalogListing.verdict at run
  cases located : locatedRow host.toHost catalog target location with
  | error reason =>
    rw [located] at run
    obtain rfl := ok_inj run
    cases available
  | ok found =>
    cases found with
    | none =>
      rw [located] at run
      obtain rfl := ok_inj run
      cases available
    | some row => exact ⟨row, rfl⟩

theorem locatedRow_some {host : Host} {catalog : Catalog} {location : IndexLocation} {row : RegistryRow}
    (run : locatedRow host catalog target location = .ok (some row)) :
    ∃ found, readRegistry host catalog.registry { indexRef := location.indexRef } = .ok found ∧ found.oid ≠ 0 ∧
      found.oid = location.registryOid ∧ row ∈ found.rows ∧ row.indexRef = location.indexRef ∧
      namesMatch host row { target with columnName := location.columnName } = true := by
  unfold locatedRow at run
  split at run
  · cases run
  next found read =>
    obtain ⟨_, run⟩ | ⟨there, run⟩ := branch_ok run
    · cases run
    · obtain ⟨same, run⟩ := check_ok run
      split at run
      · cases run
      next other at_row =>
        obtain ⟨named, run⟩ := check_ok run
        obtain rfl := Option.some.inj (ok_inj run)
        exact ⟨found, read, there, not_not.mp same, List.mem_of_find?_eq_some at_row,
          by simpa using List.find?_some at_row, not_not.mp named⟩

/-- A drop's check finds the row it was prepared for, in the same registry. -/
theorem located_row (kept : Kept host s registry) {location : IndexLocation} {verdict : IndexVerdict}
    (run : locateIndex host s.catalog target location = .ok verdict) (available : verdict.availability = .available) :
    registry.oid = location.registryOid ∧ registry.oid ≠ 0 ∧ ∃ row ∈ registry.rows, row.indexRef = location.indexRef ∧
      namesMatch host.toHost row { target with columnName := location.columnName } = true := by
  obtain ⟨row, located⟩ := verdict_available run available
  obtain ⟨found, read, there, same, listed, ref, named⟩ := locatedRow_some located
  obtain ⟨oid, rows⟩ := readRegistry_some kept.read read
  rw [oid] at there same
  exact ⟨same, there, row, rows listed, ref, named⟩

/-- The base tables after a drop: the guard is gone from the index's own table, if it went. -/
def droppedBase (host : Runtime) (catalog : Catalog) (target : ResolvedTarget) (guardName : String) (dropGuard : Bool) :
    Name → Name → Option BaseTable :=
  if dropGuard then (setBase host.toHost catalog target fun table =>
    { table with indexes := table.indexes.filter fun entry => entry.name != guardName }).base
  else catalog.base

theorem drop_kept (writes : WritesUuids host.toHost) (kept : Kept host s registry) {index : ObservedIndex} {rows : Nat}
    {guardName guardToken : String} {dropGuard : Bool}
    (fits : registry.oid = index.location.registryOid → Fits registry index rows)
    (run : runScript host answers s (dropScript index rows guardName guardToken dropGuard) = .ok t) :
    index.location.indexRef ∈ registry.rows.map RegistryRow.indexRef ∧
    (∃ after, Kept host t after ∧
      Remains { registry with rows := registry.rows.filter (·.indexRef ≠ index.location.indexRef) } after) ∧
    t.catalog.base = droppedBase host s.catalog ⟨index.schemaName, index.tableName, index.location.columnName⟩
      guardName dropGuard ∧
    t.catalog.name = s.catalog.name ∧
    (dropGuard = true → otherGuardReferences host.toHost registry.rows
      ⟨index.schemaName, index.tableName, index.location.columnName⟩ guardName index.location.indexRef = 0) := by
  obtain ⟨_, check, run⟩ := bind_ok run
  obtain ⟨located, found, check⟩ := bind_ok check
  cases availability : located.availability with
  | absent =>
    rw [availability] at check
    cases check
  | changed =>
    rw [availability] at check
    cases check
  | available =>
  rw [availability] at check
  obtain ⟨oid, _, row, listed, ref, _⟩ := located_row kept found availability
  have fit := fits oid
  have references : dropGuard = true → otherGuardReferences host.toHost registry.rows
      ⟨index.schemaName, index.tableName, index.location.columnName⟩ guardName index.location.indexRef = 0 := by
    rintro rfl
    dsimp only [dropScript] at check
    rw [if_neg (by simp), bind_of_ok kept.read] at check
    exact not_not.mp (check_ok check).1
  cases refused : answers.refusal with
  | some reason =>
    rw [refused] at run
    cases run
  | none =>
  rw [refused] at run
  obtain ⟨m, guard, run⟩ := foldlM_append_ok run
  obtain ⟨n, delete, run⟩ := foldlM_cons_ok run
  have started : Kept host m registry ∧ m.catalog.base = droppedBase host s.catalog
      ⟨index.schemaName, index.tableName, index.location.columnName⟩ guardName dropGuard ∧
      m.catalog.name = s.catalog.name := by
    cases dropGuard with
    | true =>
      obtain ⟨o, first, done⟩ := foldlM_cons_ok guard
      obtain rfl := ok_inj done
      obtain rfl := ok_inj first
      exact ⟨kept_based kept _ _, rfl, rfl⟩
    | false =>
      obtain rfl := ok_inj guard
      exact ⟨kept, rfl, rfl⟩
  obtain ⟨before, base, name⟩ := started
  have ref' : row.indexRef = index.location.indexRef := ref
  rw [← ref'] at delete
  obtain ⟨loose, base', name', _⟩ := deleteRow_kept writes before listed delete
  rw [ref'] at loose
  obtain ⟨after, settled, remains, base'', name''⟩ := storage_settled (row.formatVersion = 4) writes loose
    (ref' ▸ readRegistry_canonical kept.read listed)
    (fun present => by
      obtain ⟨other, there, same⟩ := List.mem_map.mp present
      exact absurd same (of_decide_eq_true (List.mem_filter.mp there).2))
    fit.shape (fun four => fit.format row listed ref' four)
    (fun older one => List.filter_eq_nil_iff.mpr fun other there => by
      simpa using fit.last older one other there) run
  exact ⟨ref' ▸ List.mem_map_of_mem listed, ⟨after, settled, remains⟩, base''.trans (base'.trans base),
    name''.trans (name'.trans name), references⟩

end Drops

section Creates
variable {host : Runtime} {answers : HostAnswers} {target : ResolvedTarget} {s t : IndexedCatalog}
  {registry : RegistrySnapshot}

def onTable (host : Host) (target : ResolvedTarget) (row : RegistryRow) : Prop :=
  host.ciEquals row.schemaName target.schemaName = true ∧ host.ciEquals row.tableName target.tableName = true

theorem ownedBy_each {belongs : RegistryRow → Bool} {oid : Nat} {rows : List RegistryRow} {found : List OwnedIndex}
    (run : ownedBy belongs target false oid rows = .ok found) :
    ∀ row ∈ rows, belongs row = true → ⟨locationOf row oid, row.metaInfo⟩ ∈ found := by
  induction rows generalizing found with
  | nil => simp
  | cons row rest ih =>
    intro other listed mine
    unfold ownedBy at run
    by_cases here : belongs row = true
    · rw [if_neg (not_not.mpr here)] at run
      split at run
      · cases run
      · obtain ⟨others, later, same⟩ := bind_ok run
        obtain rfl := ok_inj same
        rcases List.mem_cons.mp listed with rfl | after
        · exact List.mem_cons_self
        · exact List.mem_cons_of_mem _ (ih later other after mine)
    · rw [if_pos here] at run
      rcases List.mem_cons.mp listed with rfl | after
      · exact absurd mine here
      · exact ih run other after mine

/-- A table without siblings has no row in the registry, usable or not. -/
theorem no_siblings (read : readRegistry host.toHost s.catalog.registry {} = .ok registry)
    (run : ownedIndexes host.toHost s.catalog.registry (tableTarget target) false = .ok []) :
    ∀ row ∈ registry.rows, ¬ onTable host.toHost target row := by
  intro row listed ⟨schema, table⟩
  have whole : ¬ (tableTarget target).columnName.bytes ≠ [] := not_not.mpr rfl
  unfold ownedIndexes at run
  dsimp only at run
  rw [if_neg whole] at run
  obtain ⟨chosen, found⟩ := @readRegistry_total _ (nameSelector (tableTarget target)) rfl _ _ read
  rw [found] at run
  have rows := (readRegistry_rows rfl found).2
  have every := (readRegistry_rows rfl read).2
  have inside : row ∈ chosen.rows := by
    rw [rows]
    rw [every] at listed
    refine List.mem_filter.mpr ⟨(List.mem_filter.mp listed).1, ?_⟩
    rw [chooses, RegistrySelector.names, nameSelector, tableTarget, schema, table]
    simp
  have belongs : rowBelongsTo host.toHost row (tableTarget target) = true := by
    rw [rowBelongsTo, if_neg whole, tableTarget, schema, table]
    rfl
  exact List.not_mem_nil (ownedBy_each run row inside belongs)

theorem currentOid_zero (kept : Kept host s registry) (unset : currentOid registry = 0)
    (passes : ¬ (registry.shape ≠ .current ∧ registry.rows ≠ [])) : registry.rows = [] := by
  by_cases current : registry.shape = .current
  · rw [currentOid, if_pos current] at unset
    have absent : s.catalog.registry = .absent := by
      by_contra there
      exact kept.present there unset
    have read := kept.read
    rw [absent] at read
    rw [← ok_inj read]
  · by_contra rows
    exact passes ⟨current, rows⟩

/-- The base tables after a create: its first index leaves the table with a fresh guard. -/
def createdBase (host : Runtime) (answers : HostAnswers) (catalog : Catalog) (target : ResolvedTarget) (first : Bool) :
    Name → Name → Option BaseTable :=
  if first then (setBase host.toHost catalog target fun _ => answers.guarded).base else catalog.base

theorem createRegistry_frame {token : String}
    (run : runStatement host answers target token s .createRegistry = .ok t) :
    t.catalog.base = s.catalog.base ∧ t.catalog.name = s.catalog.name := by
  obtain rfl := ok_inj (check_ok run).2
  exact ⟨rfl, rfl⟩

/-- The registry that a create was prepared against can be built on, and a table whose
    first index it is has no other. -/
theorem create_checked (kept : Kept host s registry) {location : IndexLocation} {bootstrap : Bool}
    (check : checkPreparedCreate host s.catalog target location bootstrap = .ok ()) :
    ¬ (registry.shape ≠ .current ∧ registry.rows ≠ []) ∧ currentOid registry = location.registryOid ∧
      (location.guardToken = "" → ∀ row ∈ registry.rows, ¬ onTable host.toHost target row) := by
  obtain ⟨table, _, check⟩ := bind_ok check
  obtain ⟨_, validated, check⟩ := bind_ok check
  obtain ⟨siblings, owned, check⟩ := bind_ok check
  obtain ⟨_, each, _⟩ := bind_ok check
  obtain ⟨forCreate, readable, validated⟩ := bind_ok validated
  obtain ⟨same, readable⟩ := bind_ok readable
  obtain ⟨reads, readable⟩ := readable
  obtain rfl : registry = same := ok_inj (kept.read.symm.trans reads)
  obtain ⟨passes, readable⟩ := check_ok readable
  obtain rfl := ok_inj readable
  refine ⟨passes, ?_, ?_⟩
  · by_contra differ
    exact (check_ok validated).1 (.inr differ)
  · intro fresh
    have none : siblings = [] := by
      refine List.eq_nil_iff_forall_not_mem.mpr fun sibling listed => ?_
      have refuses := forM_ok each sibling listed
      unfold checkSibling NgramIndexRegistry.siblingCheck at refuses
      exact (check_ok (check_ok refuses).2).1 (.inl fresh)
    rw [none] at owned
    exact no_siblings kept.read owned

section Steps
variable {u : IndexedCatalog} {token : String}

theorem guard_step (kept : Kept host s registry) (first : Bool)
    (run : (if first then [Statement.freshGuard] else []).foldlM (runStatement host answers target token) s = .ok u) :
    Kept host u registry ∧ u.catalog.base = createdBase host answers s.catalog target first ∧
      u.catalog.name = s.catalog.name ∧ u.nextOid = s.nextOid := by
  cases first with
  | true =>
    obtain ⟨p, fresh, done⟩ := foldlM_cons_ok run
    obtain rfl := ok_inj done
    obtain rfl := ok_inj fresh
    exact ⟨kept_based kept _ _, rfl, rfl, rfl⟩
  | false =>
    obtain rfl := ok_inj run
    exact ⟨kept, rfl, rfl, rfl⟩

theorem older_step (kept : Kept host s registry) (older : Prop) [Decidable older] (empty : older → registry.rows = [])
    (run : (if older then [Statement.dropRegistry] else []).foldlM (runStatement host answers target token) s =
      .ok u) :
    ∃ replaced, Kept host u replaced ∧ u.catalog.base = s.catalog.base ∧ u.catalog.name = s.catalog.name ∧
      u.nextOid = s.nextOid ∧ (registry.rows = [] → replaced.rows = []) ∧ (¬ older → replaced = registry) := by
  by_cases old : older
  · rw [if_pos old] at run
    obtain ⟨p, drop, done⟩ := foldlM_cons_ok run
    obtain rfl := ok_inj done
    obtain ⟨base, name⟩ := dropRegistry_frame drop
    exact ⟨_, dropRegistry_kept kept (empty old) drop, base, name, dropRegistry_next drop, fun _ => rfl,
      fun newer => absurd old newer⟩
  · rw [if_neg old] at run
    obtain rfl := ok_inj run
    exact ⟨registry, kept, rfl, rfl, rfl, id, fun _ => rfl⟩

theorem bootstrap_step (kept : Kept host s registry) (missing : Prop) [Decidable missing]
    (empty : missing → registry.rows = []) (current : ¬ missing → registry.shape = .current)
    (run : (if missing then [Statement.createRegistry] else []).foldlM (runStatement host answers target token) s =
      .ok u) :
    ∃ ready, Kept host u ready ∧ u.catalog.base = s.catalog.base ∧ u.catalog.name = s.catalog.name ∧
      ready.shape = .current ∧ ready.rows = registry.rows ∧ (missing → s.nextOid ≤ ready.oid) ∧
      (¬ missing → ready = registry) := by
  by_cases unset : missing
  · rw [if_pos unset] at run
    obtain ⟨p, create, done⟩ := foldlM_cons_ok run
    obtain rfl := ok_inj done
    obtain ⟨base, name⟩ := createRegistry_frame create
    exact ⟨_, createRegistry_kept kept (empty unset) create, base, name, rfl, (empty unset).symm,
      fun _ => Nat.le_refl _, fun set => absurd unset set⟩
  · rw [if_neg unset] at run
    obtain rfl := ok_inj run
    exact ⟨registry, kept, rfl, rfl, current unset, rfl, fun missing => absurd missing unset, fun _ => rfl⟩

end Steps

theorem create_kept (writes : WritesUuids host.toHost) (kept : Kept host s registry) {origin : RegistrySnapshot}
    {options : GramOptions} {indexId : BitVec 128} {location : IndexLocation} {first : Bool}
    (canonical : isCanonicalUUID host.toHost (host.uuidText indexId) = true)
    (valid : validateGramOptions options "ngram" = .ok ()) (ref : location.indexRef = host.uuidText indexId)
    (oid : location.registryOid = currentOid origin) (unguarded : first = true → location.guardToken = "")
    (run : runScript host answers s (createScript origin target options indexId location first) = .ok t) :
    ∃ after row, Kept host t after ∧ row.indexRef = location.indexRef ∧ row.error = [] ∧
      row.formatVersion = ngramFormatVersion ∧ after.rows = registry.rows ++ [row] ∧ after.shape = .current ∧
      (registry.rows = [] ∧ s.nextOid ≤ after.oid ∨ after.oid = registry.oid ∧ after.shape = registry.shape) ∧
      t.catalog.base = createdBase host answers s.catalog target first ∧ t.catalog.name = s.catalog.name ∧
      (first = true → ∀ row ∈ registry.rows, ¬ onTable host.toHost target row) := by
  obtain ⟨_, check, run⟩ := bind_ok run
  obtain ⟨passes, numbered, lonely⟩ := create_checked kept check
  cases refused : answers.refusal with
  | some reason =>
    rw [refused] at run
    cases run
  | none =>
  rw [refused] at run
  obtain ⟨m, front, last⟩ := foldlM_append_ok run
  obtain ⟨n, front, boot⟩ := foldlM_append_ok front
  obtain ⟨o, guard, old⟩ := foldlM_append_ok front
  have older_unset (older : origin.shape ≠ .current) : location.registryOid = 0 := by
    rw [oid, currentOid, if_neg older]
  have unset_empty (unset : location.registryOid = 0) : registry.rows = [] :=
    currentOid_zero kept (numbered.trans unset) passes
  have set_current (set : ¬ location.registryOid = 0) : registry.shape = .current := by
    by_contra older
    rw [currentOid, if_neg older] at numbered
    exact set numbered.symm
  obtain ⟨kept_o, base_o, name_o, next_o⟩ := guard_step kept first guard
  obtain ⟨replaced, kept_n, base_n, name_n, next_n, emptied, unchanged⟩ :=
    older_step kept_o _ (fun older => unset_empty (older_unset older)) old
  have same (set : ¬ location.registryOid = 0) : replaced = registry :=
    unchanged fun older => set (older_unset older)
  obtain ⟨ready, kept_m, base_m, name_m, current, rows, fresh, still⟩ :=
    bootstrap_step kept_n _ (fun unset => emptied (unset_empty unset)) (fun set => same set ▸ set_current set) boot
  have all_rows : ready.rows = registry.rows := by
    by_cases unset : location.registryOid = 0
    · rw [rows, emptied (unset_empty unset), unset_empty unset]
    · rw [rows, same unset]
  have moved : registry.rows = [] ∧ s.nextOid ≤ ready.oid ∨ ready.oid = registry.oid ∧ .current = registry.shape := by
    by_cases unset : location.registryOid = 0
    · exact .inl ⟨unset_empty unset, by rw [← next_o, ← next_n]; exact fresh unset⟩
    · exact .inr ⟨by rw [still unset, same unset], (set_current unset).symm⟩
  obtain ⟨q, insert, last⟩ := foldlM_cons_ok last
  obtain ⟨u, storage, done⟩ := foldlM_cons_ok last
  obtain rfl := ok_inj done
  rw [ref] at storage
  obtain ⟨settled, base, name⟩ := insert_kept writes kept_m current canonical valid insert storage
  exact ⟨_, _, settled, ref.symm, rfl, rfl, by rw [all_rows], rfl, moved, base.trans (base_m.trans (base_n.trans base_o)),
    name.trans (name_m.trans (name_n.trans name_o)), fun start => lonely (unguarded start)⟩

end Creates

end NgramCatalogScripts
