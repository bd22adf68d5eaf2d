import NgramIndex.GuardScripts
import NgramIndex.Run

/- One guard is shared by all indexes of a table. Scripts are generated from any
   earlier state of the catalog and executed one at a time, and the rest of the
   host works between them. -/
namespace NgramSharedGuard
open LabelledRun Fallible NgramGram NgramRowIdGuard NgramIndexRegistry NgramGuardScripts

def bindingToken : Binding → String
  | .bound guard => guard.token
  | .unbound storage _ => (readStoredGuardState true storage).token

/-- What an index is, apart from the state of its guard. -/
def identity (entry : IndexEntry) : String × String × List Nat × Option String :=
  (entry.name, entry.indexType, entry.columnIds, entry.binding.map bindingToken)

def installed (indexes : List IndexEntry) (columns : List Column)
    (columnName guardName guardToken : String) : Prop :=
  ∃ entry, (indexes.find? fun entry => entry.name == guardName) = some entry ∧
    entry.indexType = ngramRowidGuardType ∧
    (∃ c, storageIndex columns columnName = some c ∧ c ∈ entry.columnIds) ∧
    entry.binding.map bindingToken = some guardToken

structure Shared (target : Target) (t : IndexedTable) : Prop where
  one_guard : ∀ r ∈ t.registry.owned target, ∀ s ∈ t.registry.owned target,
    r.guardName = s.guardName ∧ r.guardToken = s.guardToken
  guarded : ∀ r ∈ t.registry.owned target,
    installed t.indexes t.columns r.columnName r.guardName r.guardToken
  one_row : (t.registry.owned target).Pairwise fun r s => ciEquals r.columnName s.columnName = false

structure CallState where
  table : IndexedTable
  pending : List Script
  deriving DecidableEq, Repr

/-- Other work in the catalog: it may bind, seal or append to a guard, add
    columns, and change the indexes and registry rows of other tables. While the
    table has a guard, the host refuses every other alteration of it. -/
def HostWork (target : Target) (t u : IndexedTable) : Prop :=
  u.indexes.map identity = t.indexes.map identity ∧
  (t.columns <+: u.columns ∨ ∀ entry ∈ t.indexes, entry.indexType ≠ ngramRowidGuardType) ∧
  u.registry.owned target = t.registry.owned target ∧
  (t.registry.owned target ≠ [] →
    u.registry.oid = t.registry.oid ∧ u.registry.shape = t.registry.shape)

instance (target : Target) (t u : IndexedTable) : Decidable (HostWork target t u) :=
  inferInstanceAs (Decidable (_ ∧ _ ∧ _ ∧ _))

/-- A create or drop is generated now and executed, once, at any later time. -/
inductive CallEvent where
  | create (columnName indexRef : String)
  | drop (indexRef legacyToken : String)
  | execute (position : Nat) (host : HostAnswers)
  | hostWork (table : IndexedTable)
  deriving DecidableEq, Repr

def afterScript (t : IndexedTable) (host : HostAnswers) (target : Target) (catalogName : String)
    (script : Script) : IndexedTable :=
  match runScript t host target catalogName script with
  | .ok committed => committed
  | .error _ => t

def callStep (target : Target) (catalogName : String) (s : CallState) : CallEvent → Option CallState
  | .create columnName indexRef =>
      match createIndexScript s.table target catalogName columnName indexRef with
      | .ok script => some { s with pending := s.pending ++ [script] }
      | .error _ => none
  | .drop indexRef legacyToken =>
      if (s.table.registry.rows.find? fun row => row.indexRef == indexRef).any (·.belongsTo target) then
        match dropIndexScript s.table indexRef legacyToken with
        | .ok script => some { s with pending := s.pending ++ [script] }
        | .error _ => none
      else none
  | .execute position host =>
      s.pending[position]?.map fun script =>
        { table := afterScript s.table host target catalogName script
          pending := s.pending.eraseIdx position }
  | .hostWork table => if HostWork target s.table table then some { s with table } else none

theorem read_token (b : Binding) (compatible : Bool) (columnIds : List Nat) (iteration : Option Nat) :
    (b.read compatible columnIds iteration).2.token = bindingToken b := by
  cases b with
  | bound g =>
    cases iteration with
    | none => rfl
    | some current => exact (applySeal_keeps g current).1
  | unbound storage replays =>
    exact (readStored_token compatible storage).trans (readStored_token true storage).symm

theorem installed_of_read {compatible : Bool} {indexes : List IndexEntry} {columns : List Column}
    {columnName guardName : String} {iteration : Option Nat} {after : Binding} {state : RowIdGuardState}
    (read : readGuardState compatible indexes (storageIndex columns columnName) guardName iteration =
      .ok (after, state)) : installed indexes columns columnName guardName state.token := by
  simp only [readGuardState] at read
  split at read
  · cases read
  split at read
  · cases read
  next entry found =>
    split at read
    · cases read
    next binding present =>
      split at read
      next covered =>
        obtain ⟨guard_type, c, here, listed⟩ := covered
        have token : state.token = bindingToken binding := by
          rw [← read_token binding compatible entry.columnIds iteration, Except.ok.inj read]
        exact ⟨entry, found, guard_type, ⟨c, here, listed⟩, by rw [present, token]; rfl⟩
      next => cases read

theorem installed_of_reason {t : IndexedTable} {columnName guardName guardToken : String} {hwmRowid : Int}
    (usable : rowIdGuardReason t columnName guardName guardToken hwmRowid = none) :
    installed t.indexes t.columns columnName guardName guardToken := by
  obtain ⟨_, _, after, state, read, same, _⟩ := exactGuardReason_none usable
  rw [← same]
  exact installed_of_read read

theorem installed_of_token {t : IndexedTable} {columnName guardName token : String}
    (fresh : installedRowIdGuardToken t columnName guardName = .ok token) :
    installed t.indexes t.columns columnName guardName token := by
  obtain ⟨_, fresh⟩ := check_ok fresh
  split at fresh
  · cases fresh
  next read =>
    obtain ⟨_, same⟩ := check_ok fresh
    rw [← ok_inj same]
    exact installed_of_read read

theorem find_identity {before after : List IndexEntry} (same : after.map identity = before.map identity)
    {name : String} {entry : IndexEntry}
    (found : (before.find? fun entry => entry.name == name) = some entry) :
    ∃ now, (after.find? fun entry => entry.name == name) = some now ∧ identity now = identity entry := by
  have names : ∀ entries : List IndexEntry, ((entries.map identity).find? fun e => e.1 == name) =
      (entries.find? fun entry => entry.name == name).map identity := by
    intro entries
    rw [List.find?_map]
    rfl
  have both := names before
  rw [← same, names after, found, Option.map_some, Option.map_eq_some_iff] at both
  exact both

theorem storageIndex_prefix {before after : List Column} (longer : before <+: after) {name : String}
    {c : Nat} (here : storageIndex before name = some c) : storageIndex after name = some c := by
  obtain ⟨added, rfl⟩ := longer
  simp only [storageIndex, List.filter_append] at here ⊢
  rw [List.findIdx?_append, here]
  rfl

theorem host_shared {target : Target} {t u : IndexedTable} (shared : Shared target t)
    (work : HostWork target t u) : Shared target u := by
  obtain ⟨same, columns, rows, _⟩ := work
  refine ⟨rows ▸ shared.one_guard, ?_, rows ▸ shared.one_row⟩
  intro r owned
  obtain ⟨entry, found, guard_type, ⟨c, here, covered⟩, token⟩ := shared.guarded r (rows ▸ owned)
  obtain ⟨now, found_now, same_entry⟩ := find_identity same found
  simp only [identity, Prod.mk.injEq] at same_entry
  obtain ⟨_, type_eq, ids_eq, token_eq⟩ := same_entry
  rcases columns with longer | unguarded
  · exact ⟨now, found_now, type_eq.trans guard_type, ⟨c, storageIndex_prefix longer here, ids_eq ▸ covered⟩,
      token_eq.trans token⟩
  · exact absurd guard_type (unguarded entry (List.mem_of_find?_eq_some found))

theorem registry_statements {host : HostAnswers} {target : Target} {statements : List Statement}
    (each : ∀ x ∈ statements, x = .dropRegistry ∨ x = .createRegistry) {s u : ScriptState}
    (run : statements.foldlM (runStatement host target) s = .ok u) :
    ∃ registry, u = { s with table := { s.table with registry } } ∧
      (registry.owned target = s.table.registry.owned target ∨ registry.owned target = []) := by
  induction statements generalizing s with
  | nil =>
    obtain rfl := ok_inj run
    exact ⟨s.table.registry, rfl, Or.inl rfl⟩
  | cons first rest ih =>
    obtain ⟨v, head, tail⟩ := foldlM_cons_ok run
    obtain ⟨own, others⟩ := List.forall_mem_cons.mp each
    have emptied : ∃ oid, v = { s with table := { s.table with registry := ⟨oid, .current, []⟩ } } := by
      rcases own with rfl | rfl
      · obtain ⟨_, eq⟩ := check_ok head
        exact ⟨0, (ok_inj eq).symm⟩
      · obtain ⟨_, eq⟩ := check_ok head
        exact ⟨host.freshOid + 1, (ok_inj eq).symm⟩
    obtain ⟨oid, rfl⟩ := emptied
    obtain ⟨registry, rfl, rows⟩ := ih others tail
    exact ⟨registry, rfl, Or.inr (rows.elim id id)⟩

theorem insert_statement {host : HostAnswers} {target : Target} {location : IndexLocation}
    {s u : ScriptState}
    (run : [Statement.insertRow location, .storage].foldlM (runStatement host target) s = .ok u) :
    ∃ token, s.fenceToken = some token ∧ u.table =
      s.table.withRows (s.table.registry.rows ++ [insertedRow target location token]) := by
  obtain ⟨v, inserted, built⟩ := foldlM_cons_ok run
  obtain ⟨w, stored, last⟩ := foldlM_cons_ok built
  have same : v = w := by
    simp only [runStatement] at stored
    split at stored
    · cases stored
    · exact ok_inj stored
  obtain rfl : w = u := ok_inj last
  subst same
  simp only [runStatement] at inserted
  split at inserted
  · cases inserted
  next token present =>
    obtain ⟨_, inserted⟩ := check_ok inserted
    obtain ⟨_, inserted⟩ := check_ok inserted
    exact ⟨token, present, by rw [← ok_inj inserted]⟩

theorem inserted_belongs (target : Target) (location : IndexLocation) (token : String) :
    (insertedRow target location token).belongsTo target = true := by
  simp [insertedRow, RegistryRow.belongsTo, ciEquals_refl]

/-- A row is added under the guard that all rows of the table record, if any. -/
theorem insert_shared {target : Target} {location : IndexLocation} {token : String} {t : IndexedTable}
    (shared : Shared target t)
    (siblings : ∀ r ∈ t.registry.owned target, r.guardName = location.guardName ∧ r.guardToken = token ∧
      ciEquals r.columnName location.columnName = false)
    (covered : installed t.indexes t.columns location.columnName location.guardName token) :
    Shared target (t.withRows (t.registry.rows ++ [insertedRow target location token])) := by
  let row := insertedRow target location token
  have owned_eq : (t.withRows (t.registry.rows ++ [row])).registry.owned target =
      t.registry.owned target ++ [row] := by
    simp [Registry.owned, IndexedTable.withRows, row, inserted_belongs]
  refine ⟨?_, ?_, ?_⟩
  · have agrees : ∀ r ∈ t.registry.owned target ++ [row],
        r.guardName = location.guardName ∧ r.guardToken = token := by
      intro r listed
      rcases List.mem_append.mp listed with old | added
      · exact ⟨(siblings r old).1, (siblings r old).2.1⟩
      · rw [List.mem_singleton.mp added]
        exact ⟨rfl, rfl⟩
    rw [owned_eq]
    intro r first s second
    obtain ⟨name, token_eq⟩ := agrees r first
    obtain ⟨name', token_eq'⟩ := agrees s second
    exact ⟨name.trans name'.symm, token_eq.trans token_eq'.symm⟩
  · rw [owned_eq]
    intro r listed
    rcases List.mem_append.mp listed with old | added
    · exact shared.guarded r old
    · rw [List.mem_singleton.mp added]
      exact covered
  · rw [owned_eq]
    refine List.pairwise_append.mpr ⟨shared.one_row, List.pairwise_singleton _ _, ?_⟩
    intro r old s added
    rw [List.mem_singleton.mp added]
    exact (siblings r old).2.2

theorem run_leftovers (host : HostAnswers) (target : Target) (names : List String) (s : ScriptState) :
    (names.map Statement.dropIndexIfExists).foldlM (runStatement host target) s =
      .ok { s with table := { s.table with
        indexes := s.table.indexes.filter fun entry => decide (entry.name ∉ names)
        otherIndexes := s.table.otherIndexes.filter fun name => decide (name ∉ names) } } := by
  induction names generalizing s with
  | nil =>
    simp only [List.map_nil, List.foldlM_nil, List.not_mem_nil, not_false_eq_true, decide_true,
      List.filter_true]
    rfl
  | cons name rest ih =>
    rw [List.map_cons, List.foldlM_cons]
    refine (ih _).trans ?_
    simp only [List.filter_filter, List.mem_cons, not_or, Bool.decide_and, bne, Bool.and_comm,
      Bool.beq_eq_decide_eq, decide_not]

/-- Behind a fresh guard stands no other one: the column drop would have failed. -/
theorem fresh_statements {host : HostAnswers} {target : Target} {origin : IndexedTable}
    {location : IndexLocation} {s u : ScriptState}
    (run : (freshGuardStatements origin location).foldlM (runStatement host target) s = .ok u) :
    ∃ token entry, u.fenceToken = some token ∧ u.table.registry = s.table.registry ∧
      (u.table.indexes.filter fun entry => entry.indexType == ngramRowidGuardType) = [entry] ∧
      entry.name = location.guardName ∧
      installed u.table.indexes u.table.columns location.columnName location.guardName token := by
  obtain ⟨cleared, leftovers, rest⟩ := foldlM_append_ok run
  have registry_eq : cleared.table.registry = s.table.registry := by
    rw [run_leftovers] at leftovers
    rw [← ok_inj leftovers]
  obtain ⟨added, adding, rest⟩ := foldlM_cons_ok rest
  obtain ⟨dropped, dropping, rest⟩ := foldlM_cons_ok rest
  obtain ⟨guarded, guarding, rest⟩ := foldlM_cons_ok rest
  obtain ⟨finished, finishing, rest⟩ := foldlM_cons_ok rest
  obtain rfl : finished = u := ok_inj rest
  have no_guard : (dropped.table.indexes.filter fun entry => entry.indexType == ngramRowidGuardType) = [] ∧
      dropped.table.registry = cleared.table.registry := by
    obtain ⟨_, adding⟩ := check_ok adding
    obtain ⟨unblocked, dropping⟩ := check_ok dropping
    obtain ⟨_, dropping⟩ := check_ok dropping
    obtain rfl := ok_inj adding
    obtain rfl := ok_inj dropping
    exact ⟨List.filter_eq_nil_iff.mpr (by simpa using unblocked), rfl⟩
  have one_guard : ∃ entry, guarded.table.indexes = dropped.table.indexes ++ [entry] ∧
      entry.indexType = ngramRowidGuardType ∧ entry.name = location.guardName ∧
      guarded.table.registry = dropped.table.registry := by
    obtain ⟨_, guarding⟩ := check_ok guarding
    obtain ⟨_, guarding⟩ := check_ok guarding
    obtain ⟨_, guarding⟩ := check_ok guarding
    split at guarding
    · cases guarding
    · rw [← ok_inj guarding]
      exact ⟨_, rfl, rfl, rfl, rfl⟩
  obtain ⟨entry, indexes_eq, guard_type, name_eq, kept⟩ := one_guard
  obtain ⟨token, fresh, finishing⟩ := bind_ok finishing
  have ended : finished = { guarded with fenceToken := some token, barrier := none } := by
    split at finishing
    · cases finishing
    · obtain ⟨_, finishing⟩ := check_ok finishing
      obtain ⟨_, finishing⟩ := check_ok finishing
      exact (ok_inj finishing).symm
  subst ended
  refine ⟨token, entry, rfl, ?_, ?_, name_eq, installed_of_token fresh⟩
  · exact kept.trans (no_guard.2.trans registry_eq)
  · simp [indexes_eq, no_guard.1, guard_type]

theorem registryStatements_each (registry : Registry) :
    ∀ x ∈ registryStatements registry, x = .dropRegistry ∨ x = .createRegistry := by
  intro x listed
  rcases List.mem_append.mp listed with old | new
  · split at old
    · cases old
    · exact Or.inl (List.mem_singleton.mp old)
  · split at new
    · exact Or.inr (List.mem_singleton.mp new)
    · cases new

theorem createIndexScript_ok {origin : IndexedTable} {target : Target}
    {catalogName columnInput indexRef : String} {script : Script}
    (expanded : createIndexScript origin target catalogName columnInput indexRef = .ok script) :
    ∃ columnName siblings guardName guardToken,
      resolveColumn origin.columns target columnInput = .ok columnName ∧
      readRegistryForCreate origin.registry catalogName = .ok origin.registry ∧
      existingIndexes origin.registry target = .ok siblings ∧
      resolveCreateGuard origin target siblings indexRef columnName = .ok (guardName, guardToken) ∧
      script = createScript origin
        ⟨indexRef, columnName, origin.registry.currentOid, guardName, guardToken⟩ siblings.isEmpty := by
  obtain ⟨columnName, resolved, expanded⟩ := bind_ok expanded
  obtain ⟨registry, usable, expanded⟩ := bind_ok expanded
  obtain ⟨siblings, listed, expanded⟩ := bind_ok expanded
  obtain ⟨_, expanded⟩ := check_ok expanded
  obtain ⟨⟨guardName, guardToken⟩, found, expanded⟩ := bind_ok expanded
  obtain rfl : origin.registry = registry := ok_inj (check_ok usable).2
  exact ⟨columnName, siblings, guardName, guardToken, resolved, usable, listed, found,
    (ok_inj expanded).symm⟩

/-- A script installs a fresh guard, or names the guard and token of its siblings. -/
def Kind (location : IndexLocation) (first : Bool) : Prop :=
  first = true ∧ location.guardToken = "" ∧ location.guardName = guardPrefix ++ hex location.indexRef ∨
    first = false ∧ location.guardToken ≠ ""

theorem createScript_cases {origin : IndexedTable} {target : Target}
    {catalogName columnInput indexRef : String} {script : Script}
    (expanded : createIndexScript origin target catalogName columnInput indexRef = .ok script) :
    ∃ location first, script = createScript origin location first ∧ Kind location first := by
  obtain ⟨columnName, siblings, guardName, guardToken, _, _, _, resolved, rfl⟩ :=
    createIndexScript_ok expanded
  refine ⟨_, _, rfl, ?_⟩
  cases siblings with
  | nil =>
    obtain ⟨name, token⟩ := Prod.mk.inj (ok_inj resolved)
    exact Or.inl ⟨rfl, token.symm, name.symm⟩
  | cons first others =>
    obtain ⟨_, resolved⟩ := check_ok resolved
    split at resolved
    · cases resolved
    next usable_guard =>
      refine Or.inr ⟨rfl, ?_⟩
      intro empty
      have named : first.guardToken = "" := (Prod.mk.inj (ok_inj resolved)).2.trans empty
      obtain ⟨_, recorded, _⟩ := exactGuardReason_none usable_guard
      exact recorded named

/-- The prepared check of a create: a first one has no sibling, and every sibling
    of a later one records the guard that it shares. -/
theorem create_checked {t : IndexedTable} {host : HostAnswers} {target : Target} {catalogName : String}
    {location : IndexLocation} {bootstrap : Bool} {barrier : Option (String × String)}
    (checked : checkPreparedCreate t host target catalogName location bootstrap = .ok barrier) :
    (location.guardToken = "" → t.registry.owned target = []) ∧
    (location.guardToken ≠ "" →
      installed t.indexes t.columns location.columnName location.guardName location.guardToken) ∧
    ∀ r ∈ t.registry.owned target, r.guardName = location.guardName ∧
      r.guardToken = location.guardToken ∧ ciEquals r.columnName location.columnName = false := by
  obtain ⟨_, checked⟩ := check_ok checked
  obtain ⟨_, _, checked⟩ := bind_ok checked
  obtain ⟨_, _, checked⟩ := bind_ok checked
  obtain ⟨siblings, listed, checked⟩ := bind_ok checked
  obtain ⟨_, alike, checked⟩ := bind_ok checked
  have each : ∀ r ∈ t.registry.owned target, ¬ ciEquals r.columnName location.columnName = true ∧
      ¬ (location.guardToken = "" ∨ r.guardName ≠ location.guardName ∨
        r.guardToken ≠ location.guardToken) := by
    intro r owned
    have sibling : locationOf r t.registry.oid ∈ siblings := by
      rw [existingIndexes_ok listed]
      exact List.mem_map_of_mem owned
    obtain ⟨other, rest⟩ := check_ok (forM_ok alike _ sibling)
    exact ⟨other, (check_ok rest).1⟩
  refine ⟨?_, ?_, ?_⟩
  · intro fresh
    exact List.eq_nil_iff_forall_not_mem.mpr fun r owned => (each r owned).2 (Or.inl fresh)
  · intro shared
    obtain ⟨_, covers, _⟩ := bind_ok checked
    unfold sharedGuardCheck at covers
    rw [if_neg shared] at covers
    obtain ⟨_, covers⟩ := check_ok covers
    split at covers
    · cases covers
    next silent => exact installed_of_reason (Option.map_eq_none_iff.mp silent)
  · intro r owned
    obtain ⟨other, same⟩ := each r owned
    simp only [not_or, not_not] at same
    exact ⟨same.2.1, same.2.2, Bool.eq_false_iff.mpr other⟩

theorem script_committed {t u : IndexedTable} {host : HostAnswers} {target : Target}
    {catalogName : String} {script : Script}
    (committed : runScript t host target catalogName script = .ok u) :
    ∃ barrier last, runCheck t host target catalogName script.prepared = .ok barrier ∧
      script.statements.foldlM (runStatement host target) ⟨t, script.fenceToken, barrier, false⟩ = .ok last ∧
      last.table = u := by
  obtain ⟨_, committed⟩ := check_ok committed
  obtain ⟨barrier, checked, committed⟩ := bind_ok committed
  obtain ⟨last, ran, committed⟩ := bind_ok committed
  exact ⟨barrier, last, checked, ran, ok_inj committed⟩

theorem replaced_shared {target : Target} {t : IndexedTable} {registry : Registry} (shared : Shared target t)
    (rows : registry.owned target = t.registry.owned target ∨ registry.owned target = []) :
    Shared target { t with registry } := by
  rcases rows with same | empty
  · exact ⟨same ▸ shared.one_guard, same ▸ shared.guarded, same ▸ shared.one_row⟩
  · refine ⟨?_, ?_, ?_⟩
    · simp [empty]
    · simp [empty]
    · simp [empty]

theorem unindexed_shared {target : Target} {t : IndexedTable} (empty : t.registry.owned target = []) :
    Shared target t := by
  refine ⟨?_, ?_, ?_⟩
  · simp [empty]
  · simp [empty]
  · simp [empty]

/-- A committed create, generated at any earlier time, leaves one shared guard; a
    first one leaves no other guard on the table. -/
theorem create_committed {target : Target} {origin t u : IndexedTable} {host : HostAnswers}
    {catalogName : String} {location : IndexLocation} {first : Bool}
    (kind : Kind location first) (shared : Shared target t)
    (committed : runScript t host target catalogName (createScript origin location first) = .ok u) :
    Shared target u ∧ (first = true → ∃ entry,
      (u.indexes.filter fun entry => entry.indexType == ngramRowidGuardType) = [entry] ∧
        entry.name = location.guardName) ∧ (first = false → u.indexes = t.indexes) := by
  obtain ⟨barrier, last, checked, ran, rfl⟩ := script_committed committed
  obtain ⟨alone, covered, siblings⟩ := create_checked checked
  obtain ⟨prelude, ran, tail⟩ := foldlM_append_ok ran
  obtain ⟨guarded, guard_part, registry_part⟩ := foldlM_append_ok ran
  obtain ⟨registry, rfl, rows⟩ := registry_statements (registryStatements_each _) registry_part
  obtain ⟨token, fence, table_eq⟩ := insert_statement tail
  rw [table_eq]
  rcases kind with ⟨rfl, fresh, _⟩ | ⟨rfl, sharing⟩
  · obtain ⟨installed_token, entry, filled, kept, only, named, here⟩ := fresh_statements guard_part
    obtain rfl : installed_token = token := Option.some.inj (filled.symm.trans fence)
    have empty : registry.owned target = [] := by
      rcases rows with same | empty
      · rw [same, kept]
        exact alone fresh
      · exact empty
    refine ⟨?_, fun _ => ⟨entry, only, named⟩, by simp⟩
    refine insert_shared (t := { guarded.table with registry }) (unindexed_shared empty) ?_ here
    simp [empty]
  · obtain rfl := ok_inj guard_part
    obtain rfl : location.guardToken = token := Option.some.inj fence
    refine ⟨?_, by simp, fun _ => rfl⟩
    refine insert_shared (t := { t with registry }) (replaced_shared shared rows) ?_ (covered sharing)
    intro r owned
    rcases rows with same | empty
    · exact siblings r (same ▸ owned)
    · simp [empty] at owned

theorem dropScript_cases {origin : IndexedTable} {indexRef legacyToken : String} {script : Script}
    {row : RegistryRow} (found : (origin.registry.rows.find? fun row => row.indexRef == indexRef) = some row)
    (expanded : dropIndexScript origin indexRef legacyToken = .ok script) :
    ∃ location dropGuard,
      script = dropScript origin ⟨row.schemaName, row.tableName⟩ location dropGuard := by
  simp only [dropIndexScript, found] at expanded
  exact ⟨_, _, (ok_inj expanded).symm⟩

theorem belongs_alike {owner target : Target} (schema : ciEquals owner.schemaName target.schemaName = true)
    (table : ciEquals owner.tableName target.tableName = true) (row : RegistryRow) :
    row.belongsTo owner = row.belongsTo target := by
  simp only [ciEquals, decide_eq_true_eq] at schema table
  simp only [RegistryRow.belongsTo, ciEquals, schema, table]

theorem find_filtered {indexes : List IndexEntry} {name dropped : String} (other : name ≠ dropped) :
    ((indexes.filter fun entry => entry.name != dropped).find? fun entry => entry.name == name) =
      indexes.find? fun entry => entry.name == name := by
  rw [List.find?_filter]
  congr 1
  funext entry
  by_cases here : entry.name = name
  · simp [here, other]
  · simp [here]

theorem drop_checked {t : IndexedTable} {host : HostAnswers} {owner : Target} {location : IndexLocation}
    (checked : checkPreparedDrop t host owner location true = .ok ()) :
    otherGuardReferences t.registry owner location.guardName location.indexRef = 0 := by
  obtain ⟨_, _, checked⟩ := bind_ok checked
  rw [if_neg (by simp)] at checked
  exact not_not.mp (check_ok checked).1

/-- The rows left by the deletion, and the indexes, of which only the recorded
    guard may be gone. -/
theorem drop_statements {host : HostAnswers} {target : Target} {origin : IndexedTable} {owner : Target}
    {location : IndexLocation} {dropGuard : Bool} {s u : ScriptState}
    (run : (dropScript origin owner location dropGuard).statements.foldlM (runStatement host target) s = .ok u) :
    ∃ registry indexes, u.table.registry = registry ∧ u.table.indexes = indexes ∧
      u.table.columns = s.table.columns ∧
      (registry.owned target = (s.table.registry.owned target).filter (·.indexRef != location.indexRef) ∨
        registry.owned target = []) ∧
      indexes = if dropGuard then s.table.indexes.filter fun entry => entry.name != location.guardName
        else s.table.indexes := by
  obtain ⟨deleted, run, registry_part⟩ := foldlM_append_ok run
  obtain ⟨dropped, guard_part, row_part⟩ := foldlM_append_ok run
  obtain ⟨removed, removing, storing⟩ := foldlM_cons_ok row_part
  obtain ⟨stored, storing, ended⟩ := foldlM_cons_ok storing
  have same : removed = stored := by
    simp only [runStatement] at storing
    split at storing
    · cases storing
    · exact ok_inj storing
  obtain rfl : stored = deleted := ok_inj ended
  obtain ⟨registry, rfl, rows⟩ := registry_statements (by
    intro x listed
    split at listed
    · exact Or.inl (List.mem_singleton.mp listed)
    · cases listed) registry_part
  rw [← same, ← ok_inj removing] at rows ⊢
  have kept : dropped.table.columns = s.table.columns ∧ dropped.table.registry = s.table.registry ∧
      dropped.table.indexes = if dropGuard then
        s.table.indexes.filter fun entry => entry.name != location.guardName else s.table.indexes := by
    cases dropGuard with
    | false =>
      obtain rfl := ok_inj guard_part
      exact ⟨rfl, rfl, rfl⟩
    | true =>
      obtain ⟨v, head, tail⟩ := foldlM_cons_ok guard_part
      obtain rfl := ok_inj head
      obtain rfl := ok_inj tail
      exact ⟨rfl, rfl, rfl⟩
  refine ⟨registry, _, rfl, rfl, kept.1, ?_, kept.2.2⟩
  rcases rows with same_rows | empty
  · left
    rw [same_rows]
    simp only [IndexedTable.withRows, Registry.owned, kept.2.1, List.filter_filter]
    congr 1
    funext row
    exact Bool.and_comm _ _
  · exact Or.inr empty

theorem drop_committed {target owner : Target} {origin t u : IndexedTable} {host : HostAnswers}
    {catalogName : String} {location : IndexLocation} {dropGuard : Bool}
    (alike : ∀ row : RegistryRow, row.belongsTo owner = row.belongsTo target) (shared : Shared target t)
    (committed : runScript t host target catalogName (dropScript origin owner location dropGuard) = .ok u) :
    Shared target u ∧ (∀ r ∈ u.registry.owned target,
      (u.indexes.find? fun entry => entry.name == r.guardName) =
        t.indexes.find? fun entry => entry.name == r.guardName) ∧ u.indexes ⊆ t.indexes := by
  obtain ⟨barrier, last, checked, ran, rfl⟩ := script_committed committed
  obtain ⟨_, checked, _⟩ := bind_ok checked
  obtain ⟨_, _, rfl, rfl, columns_eq, rows, indexes_eq⟩ := drop_statements ran
  have remaining : ∀ r ∈ last.table.registry.owned target, r ∈ t.registry.owned target ∧
      r.indexRef ≠ location.indexRef := by
    intro r owned
    rcases rows with filtered | empty
    · rw [filtered] at owned
      simpa using owned
    · simp [empty] at owned
  have same_guard : ∀ r ∈ last.table.registry.owned target,
      (last.table.indexes.find? fun entry => entry.name == r.guardName) =
        t.indexes.find? fun entry => entry.name == r.guardName := by
    intro r owned
    obtain ⟨before, other⟩ := remaining r owned
    cases dropGuard with
    | false => rw [indexes_eq]; rfl
    | true =>
      have owned_by : r ∈ t.registry.owned owner := by
        obtain ⟨listed, belongs⟩ := mem_owned.mp before
        exact mem_owned.mpr ⟨listed, (alike r).trans belongs⟩
      rw [indexes_eq]
      exact find_filtered (otherGuardReferences_zero (drop_checked checked) owned_by other)
  refine ⟨⟨?_, ?_, ?_⟩, same_guard, ?_⟩
  · intro r first s second
    exact shared.one_guard r (remaining r first).1 s (remaining s second).1
  · intro r owned
    obtain ⟨entry, found, guard_type, covered, token⟩ := shared.guarded r (remaining r owned).1
    exact ⟨entry, (same_guard r owned).trans found, guard_type, columns_eq ▸ covered, token⟩
  · rcases rows with filtered | empty
    · rw [filtered]
      exact shared.one_row.filter _
    · simp [empty]
  · rw [indexes_eq]
    split
    · exact List.filter_subset_self _
    · exact List.Subset.refl _

theorem storageIndex_physical {columns : List Column} {column : Column} (listed : column ∈ columns)
    (physical : column.generated = false) : ∃ c, storageIndex columns column.name = some c := by
  refine Option.isSome_iff_exists.mp (List.findIdx?_isSome.trans ?_)
  exact List.any_eq_true.mpr ⟨column, List.mem_filter.mpr ⟨listed, by simp [physical]⟩, ciEquals_refl _⟩

theorem mapM_storageIndex {columns : List Column} {names : List String}
    (each : ∀ name ∈ names, ∃ c, storageIndex columns name = some c) :
    ∃ ids, names.mapM (storageIndex columns) = some ids ∧
      ∀ name ∈ names, ∀ c, storageIndex columns name = some c → c ∈ ids := by
  induction names with
  | nil => exact ⟨[], rfl, by simp⟩
  | cons name rest ih =>
    obtain ⟨⟨c, here⟩, others⟩ := List.forall_mem_cons.mp each
    obtain ⟨ids, collected, covered⟩ := ih others
    refine ⟨c :: ids, by simp [List.mapM_cons, here, collected], List.forall_mem_cons.mpr ⟨?_, ?_⟩⟩
    · intro d there
      simp [Option.some.inj (here.symm.trans there)]
    · intro other listed d there
      exact List.mem_cons_of_mem _ (covered other listed d there)

theorem resolved_column {columns : List Column} {target : Target} {columnInput columnName : String}
    (resolved : resolveColumn columns target columnInput = .ok columnName) :
    ∃ column ∈ columns, column.generated = false ∧ column.varchar = true ∧ column.name = columnName := by
  obtain ⟨_, resolved⟩ := check_ok resolved
  split at resolved
  · cases resolved
  next column found =>
    obtain ⟨physical, resolved⟩ := check_ok resolved
    obtain ⟨varchar, resolved⟩ := check_ok resolved
    exact ⟨column, List.mem_of_find?_eq_some found, by simpa using physical, by simpa using varchar,
      ok_inj resolved⟩

def Prefixed (t : IndexedTable) : Prop :=
  ∀ entry ∈ t.indexes, entry.indexType = ngramRowidGuardType →
    guardPrefix.toList.isPrefixOf entry.name.toList = true

theorem cleared_unguarded {t : IndexedTable} (generated : Prefixed t) :
    ((t.indexes.filter fun entry => decide (entry.name ∉ prefixedGuardNames t.indexes)).any fun entry =>
      entry.indexType == ngramRowidGuardType) = false := by
  rw [List.any_eq_false]
  intro entry kept guard_type
  obtain ⟨listed, absent⟩ := List.mem_filter.mp kept
  have typed : entry.indexType = ngramRowidGuardType := by simpa using guard_type
  refine of_decide_eq_true absent ?_
  rw [prefixedGuardNames, List.mem_mergeSort]
  refine List.mem_map_of_mem (List.mem_filter.mpr ⟨listed, ?_⟩)
  simp [typed, generated entry listed typed]

structure Willing (host : HostAnswers) : Prop where
  handle : host.handleKnown = true
  barrier : host.barrierRefusal = none
  alter : host.alterRefusal = none
  storage : host.storageFailure = none

/-- The random identities of a new index are nobody else's yet. -/
structure FreshNames (t : IndexedTable) (indexRef : String) : Prop where
  epoch : ∀ column ∈ t.columns, ciEquals column.name (epochName indexRef) = false
  guard : (∀ entry ∈ t.indexes, entry.name ≠ guardPrefix ++ hex indexRef) ∧
    guardPrefix ++ hex indexRef ∉ t.otherIndexes
  row : ∀ row ∈ t.registry.rows, row.indexRef ≠ indexRef

theorem bound_token {t : IndexedTable} {columnName guardName : String} {entry : IndexEntry} {g : RowIdGuard}
    {c : Nat} (pinned : t.runtimeCompatible = true) (named : guardName ≠ "")
    (found : (t.indexes.find? fun entry => entry.name == guardName) = some entry)
    (bound : entry.binding = some (.bound g)) (trusted : g.protectionCompatible = true)
    (typed : entry.indexType = ngramRowidGuardType) (here : storageIndex t.columns columnName = some c)
    (covered : c ∈ entry.columnIds) :
    installedRowIdGuardToken t columnName guardName = .ok g.token := by
  simp [installedRowIdGuardToken, readGuardState, pinned, named, found, bound, typed, here, covered,
    Binding.read, RowIdGuard.getState, trusted]

theorem fresh_statements_run {t : IndexedTable} {host : HostAnswers} {target : Target}
    {location : IndexLocation} (generated : Prefixed t) (willing : Willing host)
    (fresh : FreshNames t location.indexRef) (pinned : t.runtimeCompatible = true)
    (named : location.guardName = guardPrefix ++ hex location.indexRef)
    (indexable : ∃ column ∈ t.columns, column.generated = false ∧ column.varchar = true ∧
      column.name = location.columnName) :
    ∃ u : ScriptState, (freshGuardStatements t location).foldlM (runStatement host target)
        ⟨t, none, some (location.columnName, location.guardName), false⟩ = .ok u ∧
      u.fenceToken = some host.freshToken ∧ u.table.registry = t.registry := by
  have unguarded := cleared_unguarded generated
  have nameless : location.guardName ≠ "" := by
    simp [named, guardPrefix, String.append_eq_empty_iff]
  have free := named ▸ fresh.guard
  let kept := t.indexes.filter fun entry => decide (entry.name ∉ prefixedGuardNames t.indexes)
  let others := t.otherIndexes.filter fun name => decide (name ∉ prefixedGuardNames t.indexes)
  let names := (t.columns.filter fun column => !column.generated && column.varchar).map (·.name)
  let epoch : Column := ⟨epochName location.indexRef, false, false⟩
  have columns_back : ((t.columns ++ [epoch]).filter fun column => !ciEquals column.name (epochName location.indexRef)) = t.columns := by
    rw [List.filter_append, List.filter_eq_self.mpr fun column listed => by simp [fresh.epoch column listed]]
    simp [epoch, ciEquals_refl]
  have no_epoch : (t.columns.any fun column => ciEquals column.name (epochName location.indexRef)) = false :=
    List.any_eq_false.mpr fun column listed => by simp [fresh.epoch column listed]
  obtain ⟨column, listed, physical, varchar, column_eq⟩ := indexable
  have in_names : location.columnName ∈ names :=
    column_eq ▸ List.mem_map_of_mem (List.mem_filter.mpr ⟨listed, by simp [physical, varchar]⟩)
  obtain ⟨ids, collected, covered⟩ := @mapM_storageIndex t.columns names (by
    intro name present
    obtain ⟨own, chosen, rfl⟩ := List.mem_map.mp present
    obtain ⟨own_listed, kind⟩ := List.mem_filter.mp chosen
    simp only [Bool.and_eq_true, Bool.not_eq_true'] at kind
    exact storageIndex_physical own_listed kind.1)
  obtain ⟨c, here⟩ := storageIndex_physical listed physical
  rw [column_eq] at here
  have no_name : (kept.any fun entry => entry.name == location.guardName) = false :=
    List.any_eq_false.mpr fun entry present => by
      simpa using free.1 entry (List.mem_filter.mp present).1
  have no_other : location.guardName ∉ others := fun present =>
    free.2 (List.mem_filter.mp present).1
  let entry : IndexEntry := ⟨location.guardName, ngramRowidGuardType, ids,
    some (.bound (createRowIdGuard t.db t.nextRowId host.freshToken))⟩
  let last : IndexedTable := { t with indexes := kept ++ [entry], otherIndexes := others }
  have found : ((kept ++ [entry]).find? fun entry => entry.name == location.guardName) = some entry := by
    rw [List.find?_append, List.find?_eq_none.mpr fun e present => by
      simpa using free.1 e (List.mem_filter.mp present).1]
    simp [entry]
  have token := @bound_token last location.columnName location.guardName entry _ c pinned nameless found
    rfl rfl rfl here (covered _ in_names c here)
  have nonempty : names ≠ [] := List.ne_nil_of_mem in_names
  let cleared : ScriptState := ⟨{ t with indexes := kept, otherIndexes := others }, none,
    some (location.columnName, location.guardName), false⟩
  let added : ScriptState := { cleared with table := { cleared.table with columns := t.columns ++ [epoch] } }
  let dropped : ScriptState := { cleared with replaced := true }
  have adding : runStatement host target cleared (.addColumn (epochName location.indexRef)) = .ok added :=
    check_of_not (by simp [cleared, no_epoch])
  have dropping : runStatement host target added (.dropColumn (epochName location.indexRef)) = .ok dropped := by
    refine (check_of_not (ne_true_of_eq_false unguarded)).trans ?_
    refine (check_of_not (by simp [willing.alter])).trans ?_
    simp only [added, dropped, columns_back]
    rfl
  have guarding : runStatement host target dropped (.createGuard location.guardName names) =
      .ok { dropped with table := last } := by
    refine (check_of_not (by simp [dropped, cleared, pinned])).trans ?_
    refine (check_of_not nonempty).trans ?_
    refine (check_of_not (by simp [dropped, cleared, no_name, no_other])).trans ?_
    simp only [dropped, cleared, collected]
    rfl
  have finishing : runStatement host target { dropped with table := last }
      (.finishCreation location.columnName location.guardName) =
        .ok ⟨last, some host.freshToken, none, true⟩ := by
    refine (bind_of_ok token).trans ?_
    simp only [dropped, cleared]
    refine (check_of_not (by simp [ciEquals_refl])).trans ?_
    exact check_of_not (by simp)
  refine ⟨⟨last, some host.freshToken, none, true⟩, ?_, rfl, rfl⟩
  rw [freshGuardStatements, List.foldlM_append, run_leftovers]
  refine (bind_of_ok rfl).trans ?_
  rw [List.foldlM_cons, bind_of_ok adding, List.foldlM_cons, bind_of_ok dropping, List.foldlM_cons,
    bind_of_ok guarding, List.foldlM_cons, bind_of_ok finishing]
  rfl

theorem registry_ready {host : HostAnswers} {target : Target} {registry : Registry} {s : ScriptState}
    (present : registry.shape ≠ .current → registry.oid ≠ 0) (kept : s.table.registry = registry) :
    ∃ ready, (registryStatements registry).foldlM (runStatement host target) s =
        .ok { s with table := { s.table with registry := ready } } ∧
      ready.oid ≠ 0 ∧ ∀ row ∈ ready.rows, row ∈ registry.rows := by
  let empty (oid : Nat) (v : ScriptState) : ScriptState :=
    { v with table := { v.table with registry := ⟨oid, .current, []⟩ } }
  have dropping (v : ScriptState) (here : v.table.registry.oid ≠ 0) :
      runStatement host target v .dropRegistry = .ok (empty 0 v) := check_of_not here
  have creating (v : ScriptState) (absent : v.table.registry.oid = 0) :
      runStatement host target v .createRegistry = .ok (empty (host.freshOid + 1) v) :=
    check_of_not (not_not.mpr absent)
  by_cases current : registry.shape = .current
  · by_cases absent : registry.oid = 0
    · have statements : registryStatements registry = [.createRegistry] := by
        simp [registryStatements, current, Registry.currentOid, absent]
      refine ⟨⟨host.freshOid + 1, .current, []⟩, ?_, by simp, by simp⟩
      rw [statements, List.foldlM_cons, bind_of_ok (creating s (kept ▸ absent))]
      rfl
    · have statements : registryStatements registry = [] := by
        simp [registryStatements, current, Registry.currentOid, absent]
      refine ⟨registry, ?_, absent, fun _ listed => listed⟩
      rw [statements, ← kept]
      rfl
  · have statements : registryStatements registry = [.dropRegistry, .createRegistry] := by
      simp [registryStatements, current, Registry.currentOid]
    refine ⟨⟨host.freshOid + 1, .current, []⟩, ?_, by simp, by simp⟩
    rw [statements, List.foldlM_cons, bind_of_ok (dropping s (kept ▸ present current)), List.foldlM_cons,
      bind_of_ok (creating (empty 0 s) rfl)]
    rfl

theorem ownerKey_belongs {row : RegistryRow} {target : Target} {location : IndexLocation} {token : String}
    (same : row.ownerKey = (insertedRow target location token).ownerKey) : row.belongsTo target = true := by
  simp only [RegistryRow.ownerKey, ownerKey, insertedRow, List.map_cons, List.cons.injEq,
    Prod.mk.injEq] at same
  simp [RegistryRow.belongsTo, ciEquals, same.1.2, same.2.1.2]

theorem insert_run {host : HostAnswers} {target : Target} {location : IndexLocation} {s : ScriptState}
    {token : String} (fence : s.fenceToken = some token) (present : s.table.registry.oid ≠ 0)
    (fresh : ∀ row ∈ s.table.registry.rows, row.indexRef ≠ location.indexRef ∧ row.belongsTo target = false)
    (stored : host.storageFailure = none) :
    [Statement.insertRow location, .storage].foldlM (runStatement host target) s =
      .ok { s with
        table := s.table.withRows (s.table.registry.rows ++ [insertedRow target location token]) } := by
  have inserting : runStatement host target s (.insertRow location) =
      .ok { s with
        table := s.table.withRows (s.table.registry.rows ++ [insertedRow target location token]) } := by
    simp only [runStatement, fence]
    refine (check_of_not present).trans (check_of_not ?_)
    rw [Bool.not_eq_true, List.any_eq_false]
    intro row listed clash
    obtain ⟨other_ref, other_table⟩ := fresh row listed
    rcases Bool.or_eq_true_iff.mp clash with same_ref | same_key
    · exact other_ref (by simpa [insertedRow] using same_ref)
    · simp [ownerKey_belongs (beq_iff_eq.mp same_key)] at other_table
  rw [List.foldlM_cons, bind_of_ok inserting, List.foldlM_cons]
  simp only [runStatement, stored]
  rfl

/-- The catalog's spelling of a column resolves to itself. -/
theorem resolve_again {columns : List Column} {target : Target} {columnInput columnName : String}
    (resolved : resolveColumn columns target columnInput = .ok columnName) :
    resolveColumn columns target columnName = .ok columnName := by
  obtain ⟨unshadowed, rest⟩ := check_ok resolved
  refine (check_of_not unshadowed).trans ?_
  split at rest
  · cases rest
  next column found =>
    obtain ⟨physical, tail⟩ := check_ok rest
    obtain ⟨varchar, tail⟩ := check_ok tail
    have spelled : column.name = columnName := ok_inj tail
    have alike : ciEquals column.name columnInput = true := by
      simpa using List.find?_some found
    have same : (columns.find? fun column => ciEquals column.name columnName) = some column := by
      rw [← found]
      congr 1
      funext other
      simp only [ciEquals, decide_eq_true_eq] at alike
      simp only [ciEquals, ← alike, spelled]
    rw [same]
    exact (check_of_not physical).trans ((check_of_not varchar).trans tail)

theorem leftovers_removed {t : IndexedTable} {host : HostAnswers} {target : Target}
    {catalogName columnInput indexRef : String} {script : Script}
    (empty : t.registry.owned target = []) (generated : Prefixed t)
    (present : t.registry.shape ≠ .current → t.registry.oid ≠ 0)
    (expanded : createIndexScript t target catalogName columnInput indexRef = .ok script)
    (willing : Willing host) (pinned : t.runtimeCompatible = true) (fresh : FreshNames t indexRef) :
    ∃ u, runScript t host target catalogName script = .ok u := by
  obtain ⟨columnName, siblings, guardName, guardToken, resolved, usable, listed, found, rfl⟩ :=
    createIndexScript_ok expanded
  obtain rfl : siblings = [] := by rw [existingIndexes_ok listed, empty]; rfl
  obtain ⟨rfl, rfl⟩ := Prod.mk.inj (ok_inj found)
  let location : IndexLocation :=
    ⟨indexRef, columnName, t.registry.currentOid, guardPrefix ++ hex indexRef, ""⟩
  have checked : checkPreparedCreate t host target catalogName location (location.registryOid == 0) =
      .ok (some (location.columnName, location.guardName)) := by
    have valid : validateRegistryForCreate t.registry catalogName location.registryOid
        (location.registryOid == 0) = .ok () :=
      (bind_of_ok usable).trans (check_of_not (by simp [location]))
    refine (check_of_not (by simp [willing.barrier])).trans ?_
    refine (bind_of_ok (resolve_again resolved)).trans ?_
    refine (bind_of_ok valid).trans ((bind_of_ok listed).trans ?_)
    rfl
  obtain ⟨guarded, guard_part, fence, kept⟩ := @fresh_statements_run t host target location generated
    willing fresh pinned rfl (resolved_column resolved)
  obtain ⟨ready, registry_part, oid, rows⟩ := @registry_ready host target t.registry guarded present kept
  let prepared : ScriptState := { guarded with table := { guarded.table with registry := ready } }
  have unclaimed : ∀ row ∈ prepared.table.registry.rows,
      row.indexRef ≠ location.indexRef ∧ row.belongsTo target = false := by
    intro row here
    refine ⟨fresh.row row (rows row here), ?_⟩
    by_contra belongs
    have owned := mem_owned.mpr ⟨rows row here, Bool.not_eq_false _ ▸ belongs⟩
    simp [empty] at owned
  have inserted := @insert_run host target location prepared host.freshToken fence oid unclaimed willing.storage
  have ran : (createScript t location true).statements.foldlM (runStatement host target)
      ⟨t, none, some (location.columnName, location.guardName), false⟩ =
        [Statement.insertRow location, .storage].foldlM (runStatement host target) prepared := by
    simp only [createScript, if_true]
    rw [List.foldlM_append, List.foldlM_append, bind_of_ok guard_part, bind_of_ok registry_part]
  refine ⟨prepared.table.withRows (prepared.table.registry.rows ++
    [insertedRow target location host.freshToken]), ?_⟩
  refine (check_of_not (by simp [willing.handle])).trans ((bind_of_ok checked).trans ?_)
  exact bind_of_ok (ran.trans inserted)

/-- A script as one of the two calls generates it, from whatever state. -/
def Generated (target : Target) (script : Script) : Prop :=
  (∃ origin location first, script = createScript origin location first ∧ Kind location first) ∨
    ∃ origin owner location dropGuard, script = dropScript origin owner location dropGuard ∧
      ∀ row : RegistryRow, row.belongsTo owner = row.belongsTo target

structure Sound (target : Target) (s : CallState) : Prop where
  shared : Shared target s.table
  generated : Prefixed s.table
  pending : ∀ script ∈ s.pending, Generated target script

def InstallsFresh (script : Script) (u : IndexedTable) : Prop :=
  ∀ location bootstrap, script.prepared = .create location bootstrap → location.guardToken = "" →
    ∃ entry, (u.indexes.filter fun entry => entry.indexType == ngramRowidGuardType) = [entry] ∧
      entry.name = location.guardName

/-- A committed drop leaves the guard of every remaining row as it was. -/
def KeepsGuards (target : Target) (script : Script) (t u : IndexedTable) : Prop :=
  ∀ owner location dropGuard, script.prepared = .drop owner location dropGuard →
    ∀ r ∈ u.registry.owned target, (u.indexes.find? fun entry => entry.name == r.guardName) =
      t.indexes.find? fun entry => entry.name == r.guardName

theorem prefixed_subset {t u : IndexedTable} (generated : Prefixed t) (fewer : u.indexes ⊆ t.indexes) :
    Prefixed u :=
  fun entry listed typed => generated entry (fewer listed) typed

theorem prefixed_only {u : IndexedTable} {entry : IndexEntry} {suffix : String}
    (only : (u.indexes.filter fun entry => entry.indexType == ngramRowidGuardType) = [entry])
    (named : entry.name = guardPrefix ++ suffix) : Prefixed u := by
  intro other listed typed
  have guard_entry : other ∈ u.indexes.filter fun entry => entry.indexType == ngramRowidGuardType :=
    List.mem_filter.mpr ⟨listed, by simp [typed]⟩
  rw [only, List.mem_singleton] at guard_entry
  rw [guard_entry, named, String.toList_append, List.isPrefixOf_iff_prefix]
  exact List.prefix_append _ _

theorem script_sound {target : Target} {t u : IndexedTable} {host : HostAnswers} {catalogName : String}
    {script : Script} (generated : Generated target script) (shared : Shared target t)
    (guards : Prefixed t) (committed : runScript t host target catalogName script = .ok u) :
    Shared target u ∧ Prefixed u ∧ KeepsGuards target script t u ∧ InstallsFresh script u := by
  rcases generated with ⟨origin, location, first, rfl, kind⟩ |
    ⟨origin, owner, location, dropGuard, rfl, alike⟩
  · obtain ⟨kept, fresh, sharing⟩ := create_committed kind shared committed
    refine ⟨kept, ?_, nofun, ?_⟩
    · rcases kind with ⟨rfl, _, named⟩ | ⟨rfl, _⟩
      · obtain ⟨entry, only, name_eq⟩ := fresh rfl
        exact prefixed_only only (name_eq.trans named)
      · exact prefixed_subset guards (sharing rfl ▸ List.Subset.refl _)
    · rintro own bootstrap prepared empty
      obtain ⟨rfl, _⟩ := Prepared.create.inj prepared
      rcases kind with ⟨rfl, _⟩ | ⟨_, sharing_token⟩
      · exact fresh rfl
      · exact absurd empty sharing_token
  · obtain ⟨kept, same, fewer⟩ := drop_committed alike shared committed
    exact ⟨kept, prefixed_subset guards fewer, fun _ _ _ _ => same, nofun⟩

theorem host_prefixed {target : Target} {t u : IndexedTable} (guards : Prefixed t)
    (work : HostWork target t u) : Prefixed u := by
  intro entry listed typed
  have now : identity entry ∈ t.indexes.map identity := work.1 ▸ List.mem_map_of_mem listed
  obtain ⟨before, present, same⟩ := List.mem_map.mp now
  simp only [identity, Prod.mk.injEq] at same
  rw [← same.1]
  exact guards before present (same.2.1.trans typed)

theorem step_sound {target : Target} {catalogName : String} (s : CallState) (e : CallEvent) (t : CallState)
    (sound : Sound target s) (step : callStep target catalogName s e = some t) : Sound target t := by
  cases e with
  | create columnName indexRef =>
    simp only [callStep] at step
    split at step
    next script expanded =>
      obtain rfl := Option.some.inj step
      refine ⟨sound.shared, sound.generated, ?_⟩
      intro other listed
      rcases List.mem_append.mp listed with old | new
      · exact sound.pending other old
      · rw [List.mem_singleton.mp new]
        obtain ⟨location, first, eq, kind⟩ := createScript_cases expanded
        exact Or.inl ⟨_, location, first, eq, kind⟩
    next => cases step
  | drop indexRef legacyToken =>
    simp only [callStep] at step
    split at step
    next own =>
      split at step
      next script expanded =>
        obtain rfl := Option.some.inj step
        refine ⟨sound.shared, sound.generated, ?_⟩
        intro other listed
        rcases List.mem_append.mp listed with old | new
        · exact sound.pending other old
        · rw [List.mem_singleton.mp new]
          obtain ⟨row, found, belongs⟩ := (Option.any_eq_true _ _).mp own
          obtain ⟨location, dropGuard, eq⟩ := dropScript_cases found expanded
          obtain ⟨schema, table⟩ := Bool.and_eq_true_iff.mp belongs
          exact Or.inr ⟨_, _, location, dropGuard, eq, belongs_alike schema table⟩
      next => cases step
    next => cases step
  | execute position host =>
    obtain ⟨script, pending, rfl⟩ := Option.map_eq_some_iff.mp step
    have generated := sound.pending script (List.mem_of_getElem? pending)
    have others : ∀ other ∈ s.pending.eraseIdx position, Generated target other :=
      fun other listed => sound.pending other (List.mem_of_mem_eraseIdx listed)
    simp only [afterScript]
    split
    next committed =>
      obtain ⟨shared, guards, _⟩ := script_sound generated sound.shared sound.generated committed
      exact ⟨shared, guards, others⟩
    next => exact ⟨sound.shared, sound.generated, others⟩
  | hostWork table =>
    simp only [callStep, Option.ite_none_right_eq_some, Option.some.injEq] at step
    obtain ⟨work, rfl⟩ := step
    exact ⟨host_shared sound.shared work, host_prefixed sound.generated work, sound.pending⟩

structure Unindexed (target : Target) (s : CallState) : Prop where
  rows : s.table.registry.owned target = []
  guards : ∀ entry ∈ s.table.indexes, entry.indexType ≠ ngramRowidGuardType
  pending : s.pending = []

theorem unindexed_sound {target : Target} {s : CallState} (start : Unindexed target s) : Sound target s :=
  ⟨unindexed_shared start.rows, fun entry listed typed => absurd typed (start.guards entry listed),
    by simp [start.pending]⟩

theorem one_shared_guard {target : Target} {catalogName : String} {s t : CallState}
    {events : List CallEvent} (start : Unindexed target s)
    (run : exec (callStep target catalogName) s events = some t) :
    Shared target t.table ∧
    (∀ (position : Nat) (host : HostAnswers) (script : Script) (u : IndexedTable),
      t.pending[position]? = some script →
      runScript t.table host target catalogName script = .ok u →
      Shared target u ∧ KeepsGuards target script t.table u ∧ InstallsFresh script u) ∧
    -- Guards left behind do not stop the next first create.
    (∀ host columnInput indexRef script, t.table.registry.owned target = [] →
      (t.table.registry.shape ≠ .current → t.table.registry.oid ≠ 0) →
      createIndexScript t.table target catalogName columnInput indexRef = .ok script →
      Willing host → t.table.runtimeCompatible = true → FreshNames t.table indexRef →
      ∃ u, runScript t.table host target catalogName script = .ok u ∧ InstallsFresh script u) := by
  have sound : Sound target t := exec_invariant step_sound run (unindexed_sound start)
  refine ⟨sound.shared, ?_, ?_⟩
  · intro position host script u pending committed
    have generated := sound.pending script (List.mem_of_getElem? pending)
    obtain ⟨shared, _, kept, fresh⟩ := script_sound generated sound.shared sound.generated committed
    exact ⟨shared, kept, fresh⟩
  · intro host columnInput indexRef script empty present expanded willing pinned fresh
    obtain ⟨u, committed⟩ := leftovers_removed empty sound.generated present expanded willing pinned fresh
    obtain ⟨location, first, rfl, kind⟩ := createScript_cases expanded
    have generated : Generated target (createScript t.table location first) :=
      Or.inl ⟨_, location, first, rfl, kind⟩
    exact ⟨u, committed, (script_sound generated sound.shared sound.generated committed).2.2.2⟩

def logs : Target := ⟨"main", "logs"⟩

def willingHost (token : String) : HostAnswers := ⟨true, none, none, none, none, token, 7⟩

def twoColumns : List Column := [⟨"a", true, false⟩, ⟨"b", true, false⟩]

def unindexedLogs : CallState :=
  ⟨⟨twoColumns, [], [], ⟨0, .current, []⟩, ⟨false, false, 3⟩, 5, true⟩, []⟩

/-- Two first creates of which the second fails its check, then two drops that
    were both generated while the other row still recorded the guard. -/
def crossedCalls : List CallEvent :=
  [.create "A" "1-1", .create "b" "2-2", .execute 0 (willingHost "t1"), .execute 0 (willingHost "t2"),
   .create "b" "3-3", .execute 0 (willingHost "t3"), .drop "1-1" "", .drop "3-3" "",
   .execute 0 (willingHost "t4"), .execute 0 (willingHost "t5")]

def strandedGuard : RowIdGuard := ⟨"t1", 4, false, true, none, some 3⟩

def strandedLogs : CallState :=
  ⟨⟨twoColumns, [⟨"__ngram_guard_11", ngramRowidGuardType, [0, 1], some (.bound strandedGuard)⟩], [],
    ⟨8, .current, []⟩, ⟨false, false, 3⟩, 5, true⟩, []⟩

theorem stranded_guard_replaced :
    ∃ script u, createIndexScript strandedLogs.table logs "db" "b" "4-4" = .ok script ∧
      runScript strandedLogs.table (willingHost "t6") logs "db" script = .ok u ∧
      InstallsFresh script u := by
  have run : exec (callStep logs "db") unindexedLogs crossedCalls = some strandedLogs := by
    decide +kernel
  obtain ⟨script, expanded⟩ : ∃ script,
      createIndexScript strandedLogs.table logs "db" "b" "4-4" = .ok script := ⟨_, rfl⟩
  have start : Unindexed logs unindexedLogs := ⟨rfl, by simp [unindexedLogs], rfl⟩
  obtain ⟨_, _, leftovers⟩ := one_shared_guard start run
  obtain ⟨u, committed, alone⟩ := leftovers (willingHost "t6") "b" "4-4" script rfl (by decide) expanded
    ⟨rfl, rfl, rfl, rfl⟩ rfl ⟨by decide +kernel, by decide +kernel, by decide⟩
  exact ⟨script, u, expanded, committed, alone⟩

end NgramSharedGuard
