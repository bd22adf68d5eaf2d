import NgramIndex.LakeEntries

/- The lock row. A script that changes the __ngram tables deletes the one lock
   row it sees, so what it commits replaces exactly the tables that it read. -/
namespace NgramLake
open LabelledRun Fallible NgramGram NgramProbe NgramIndexRegistry NgramMaintenance

def LakeWrite.ofLocks : LakeWrite → Bool
  | .createRegistry => true
  | .deleteLocks _ => true
  | .insertLock _ => true
  | _ => false

def LakeStatement.ofLocks : LakeStatement → Bool
  | .bootstrap => true
  | .lock => true
  | _ => false

theorem locks_writes {writes : List LakeWrite} (other : ∀ w ∈ writes, w.ofLocks = false)
    (tables : IndexTables) : (applyWrites writes tables).locks = tables.locks := by
  induction writes generalizing tables with
  | nil => rfl
  | cons write rest ih =>
    obtain ⟨own, others⟩ := List.forall_mem_cons.mp other
    refine (ih others _).trans ?_
    cases registry : tables.registry <;> cases write <;>
      simp_all [LakeWrite.ofLocks, applyWrite, IndexTables.locks, IndexTables.withRegistry,
        IndexTables.withPostings]

section Statements
variable {host : LakeHost} {lake : Lake} {snapshot number : Nat} {s : Snapshot}

structure Adds (t u : LakeTransaction) (writes : List LakeWrite) : Prop where
  added : u.writes = t.writes ++ writes
  view : u.view = applyWrites writes t.view

theorem adds_nothing {t u : LakeTransaction} (same : u.writes = t.writes) (view : u.view = t.view) :
    Adds t u [] := ⟨by simp [same], view⟩

theorem adds_write (t : LakeTransaction) (writes : List LakeWrite) : Adds t (t.write writes) writes :=
  ⟨rfl, rfl⟩

theorem Adds.trans {t u v : LakeTransaction} {a b : List LakeWrite} (first : Adds t u a)
    (second : Adds u v b) : Adds t v (a ++ b) :=
  ⟨by rw [second.added, first.added, List.append_assoc],
    by rw [second.view, first.view, applyWrites_append]⟩

theorem statement_adds {t u : LakeTransaction} {statement : LakeStatement}
    (run : runStatement host lake snapshot number s t statement = .ok u) :
    ∃ writes, Adds t u writes ∧ (statement.ofLocks = false → ∀ w ∈ writes, w.ofLocks = false) := by
  cases statement with
  | bootstrap =>
    obtain rfl := ok_inj run
    exact ⟨_, adds_write t _, by simp [LakeStatement.ofLocks]⟩
  | check condition message =>
    obtain ⟨rfl, _⟩ := run_check run
    exact ⟨[], adds_nothing rfl rfl, by simp⟩
  | lock =>
    obtain rfl := ok_inj run
    exact ⟨_, adds_write t _, by simp [LakeStatement.ofLocks]⟩
  | createSegments indexRef =>
    obtain ⟨_, run⟩ := check_ok run
    obtain rfl := ok_inj run
    exact ⟨_, adds_write t _, by simp [LakeWrite.ofLocks]⟩
  | pack source columnName options ranges =>
    obtain ⟨_, _, rfl⟩ := run_pack run
    exact ⟨[], adds_nothing rfl rfl, by simp⟩
  | repack indexRef ranges purge =>
    obtain ⟨_, _, _, _, _, rfl⟩ := run_repack run
    exact ⟨[], adds_nothing rfl rfl, by simp⟩
  | writePacked indexRef asNewGeneration =>
    simp only [runStatement] at run
    split at run
    · cases run
    · obtain rfl := ok_inj run
      exact ⟨_, ⟨rfl, rfl⟩, by simp [LakeWrite.ofLocks]⟩
  | deleteSegments indexRef =>
    simp only [runStatement] at run
    split at run
    · cases run
    · obtain rfl := ok_inj run
      exact ⟨_, adds_write t _, by simp [LakeWrite.ofLocks]⟩
  | deleteIndexRow indexRef =>
    obtain rfl := ok_inj run
    exact ⟨_, adds_write t _, by simp [LakeWrite.ofLocks]⟩
  | insertCreated indexRef columnName options =>
    obtain ⟨tableId, _, run⟩ := bind_ok run
    obtain rfl := ok_inj run
    exact ⟨_, adds_write t _, by simp [LakeWrite.ofLocks]⟩
  | insertMaintained index covered schemaVersion =>
    obtain rfl := ok_inj run
    exact ⟨_, adds_write t _, by simp [LakeWrite.ofLocks]⟩
  | dropSegments indexRef =>
    obtain rfl := ok_inj run
    exact ⟨_, adds_write t _, by simp [LakeWrite.ofLocks]⟩

theorem statements_add {statements : List LakeStatement} {t u : LakeTransaction}
    (run : statements.foldlM (runStatement host lake snapshot number s) t = .ok u) :
    ∃ writes, Adds t u writes ∧
      ((∀ x ∈ statements, x.ofLocks = false) → ∀ w ∈ writes, w.ofLocks = false) := by
  induction statements generalizing t with
  | nil =>
    obtain rfl := ok_inj run
    exact ⟨[], adds_nothing rfl rfl, by simp⟩
  | cons statement rest ih =>
    obtain ⟨a, first, others⟩ := foldlM_cons_ok run
    obtain ⟨left, own, own_locks⟩ := statement_adds first
    obtain ⟨right, later, later_locks⟩ := ih others
    refine ⟨left ++ right, own.trans later, fun none_of_locks w listed => ?_⟩
    obtain ⟨own_other, rest_other⟩ := List.forall_mem_cons.mp none_of_locks
    rcases List.mem_append.mp listed with here | there
    · exact own_locks own_other w here
    · exact later_locks rest_other w there

/-- The form of every script: checks, then the lock statement before all others,
    if there are any; the first call in a lake creates the registry before. -/
def Locked (statements : List LakeStatement) : Prop :=
  ∃ boot checks body, statements = boot ++ checks ++ body ∧
    (boot = [] ∨ boot = [.bootstrap] ∧ body ≠ []) ∧ checks ≠ [] ∧
    (∀ c ∈ checks, ∃ condition message, c = .check condition message) ∧
    (body = [] ∨ ∃ rest, body = .lock :: rest ∧ ∀ x ∈ rest, x.ofLocks = false)

theorem run_only_checks {checks : List LakeStatement}
    (each : ∀ c ∈ checks, ∃ condition message, c = .check condition message) {t u : LakeTransaction}
    (run : checks.foldlM (runStatement host lake snapshot number s) t = .ok u) :
    u = t ∧ (checks ≠ [] → lockCheck t.view = true) := by
  induction checks with
  | nil => exact ⟨(ok_inj run).symm, by simp⟩
  | cons check rest ih =>
    obtain ⟨⟨condition, message, rfl⟩, others⟩ := List.forall_mem_cons.mp each
    obtain ⟨a, first, tail⟩ := foldlM_cons_ok run
    obtain ⟨rfl, holds⟩ := run_check first
    exact ⟨(ih others tail).1, fun _ => holds_lock holds⟩

/-- The lock row that a script's tables hold is deleted, or it creates the first. -/
structure Relocks (number : Nat) (tables after : IndexTables) (writes : List LakeWrite) : Prop where
  present : after.registry ≠ none
  lock : after.locks = [number]
  deletes : tables.registry = none ∧ LakeWrite.createRegistry ∈ writes ∨
    ∃ lock, tables.locks = [lock] ∧ lock ∈ deletedLocksOf writes

theorem deletedLocks_of_mem {rowids : List Nat} {writes : List LakeWrite} {lock : Nat}
    (listed : LakeWrite.deleteLocks rowids ∈ writes) (here : lock ∈ rowids) : lock ∈ deletedLocksOf writes :=
  List.mem_flatMap.mpr ⟨_, listed, here⟩

theorem locked_script {statements : List LakeStatement} (locked : Locked statements)
    (held : s.index.registry ≠ none → ∃ lock, s.index.locks = [lock]) {u : LakeTransaction}
    (run : statements.foldlM (runStatement host lake snapshot number s) ⟨s.index, [], []⟩ = .ok u) :
    u.view = applyWrites u.writes s.index ∧
      (u.writes = [] ∨ Relocks number s.index u.view u.writes) := by
  obtain ⟨all, added, _⟩ := statements_add run
  have view_eq : u.view = applyWrites u.writes s.index := by
    have writes_eq : u.writes = all := added.added
    rw [writes_eq]
    exact added.view
  refine ⟨view_eq, ?_⟩
  obtain ⟨boot, checks, body, rfl, booted, nonempty, each, tail⟩ := locked
  obtain ⟨b, front, back⟩ := foldlM_append_ok run
  obtain ⟨a, booting, checking⟩ := foldlM_append_ok front
  obtain ⟨rfl, holds⟩ := run_only_checks each checking
  obtain ⟨present, lock, one⟩ := lock_present (holds nonempty)
  rcases tail with rfl | ⟨rest, rfl, others⟩
  · obtain rfl := ok_inj back
    rcases booted with rfl | ⟨_, impossible⟩
    · obtain rfl := ok_inj booting
      exact Or.inl rfl
    · exact absurd rfl impossible
  · right
    obtain ⟨c, locking, after⟩ := foldlM_cons_ok back
    obtain ⟨later, adds_later, kept⟩ := statements_add after
    obtain rfl := ok_inj locking
    have view_later : u.view = applyWrites later (applyWrites [.deleteLocks b.view.locks, .insertLock number] b.view) :=
      adds_later.view
    have writes_later : u.writes = (b.writes ++ [.deleteLocks b.view.locks, .insertLock number]) ++ later :=
      adds_later.added
    have relocked : (applyWrites [.deleteLocks b.view.locks, .insertLock number] b.view).locks = [number] := by
      cases registry : b.view.registry with
      | none => exact absurd registry present
      | some r => simp [applyWrites, applyWrite, IndexTables.withRegistry, IndexTables.locks, registry]
    refine ⟨?_, ?_, ?_⟩
    · rw [view_later]
      exact present_writes (present_writes present)
    · rw [view_later, locks_writes (kept others), relocked]
    · rcases booted with rfl | ⟨rfl, _⟩
      · obtain rfl := ok_inj booting
        refine Or.inr ⟨lock, one, ?_⟩
        rw [writes_later]
        exact deletedLocks_of_mem (List.mem_append_left _ (List.mem_append_right _ List.mem_cons_self))
          (one ▸ List.mem_singleton_self lock)
      · obtain ⟨d, boot, done⟩ := foldlM_cons_ok booting
        obtain rfl := ok_inj done
        by_cases fresh : s.index.registry = none
        · refine Or.inl ⟨fresh, ?_⟩
          obtain rfl := ok_inj boot
          rw [writes_later]
          refine List.mem_append_left _ (List.mem_append_left _ ?_)
          simp [LakeTransaction.write, fresh]
        · obtain ⟨own, own_lock⟩ := held fresh
          obtain rfl := ok_inj boot
          refine Or.inr ⟨own, own_lock, ?_⟩
          rw [writes_later]
          refine deletedLocks_of_mem (List.mem_append_left _ (List.mem_append_right _ List.mem_cons_self)) ?_
          simp [LakeTransaction.write, fresh, own_lock, applyWrites]

theorem refreshBody_unlocked {origin : Lake} {expanded : Nat} {partitions : String → Nat} {index : LakeIndex}
    {body : List LakeStatement} (expansion : refreshBody host origin expanded partitions index = .ok body) :
    ∀ x ∈ body, x.ofLocks = false := by
  rcases branch_ok expansion with ⟨_, nothing⟩ | ⟨_, expansion⟩
  · obtain rfl := ok_inj nothing
    simp
  · obtain ⟨rows, _, expansion⟩ := bind_ok expansion
    obtain rfl := ok_inj expansion
    intro x listed
    rcases List.mem_append.mp listed with packing | maintained
    · split at packing
      · cases packing
      · simp only [List.mem_cons, List.not_mem_nil, or_false] at packing
        rcases packing with rfl | rfl
        · rfl
        · rfl
    · simp only [List.mem_cons, List.not_mem_nil, or_false] at maintained
      rcases maintained with rfl | rfl
      · rfl
      · rfl

theorem compactBody_unlocked {origin : Lake} {expanded : Nat} {purge : Bool} {partitions : String → Nat}
    {index : LakeIndex} {body : List LakeStatement}
    (expansion : compactBody origin expanded purge partitions index = .ok body) :
    ∀ x ∈ body, x.ofLocks = false := by
  obtain ⟨_, _, expansion⟩ := bind_ok expansion
  split at expansion
  · cases expansion
  · rcases branch_ok expansion with ⟨_, nothing⟩ | ⟨_, expansion⟩
    · obtain rfl := ok_inj nothing
      simp
    · obtain rfl := ok_inj expansion
      simp [LakeStatement.ofLocks]

theorem checkedScript_locked {fn : String} {expansion : LakeIndex → Except String (List LakeStatement)}
    {indexes : List LakeIndex} {bodies : List (List LakeStatement)} (nonempty : indexes ≠ [])
    (each : indexes.mapM expansion = .ok bodies)
    (unlocked : ∀ index body, expansion index = .ok body → ∀ x ∈ body, x.ofLocks = false) :
    Locked (checkedScript host fn indexes bodies) := by
  refine ⟨[], indexes.map (rowCheck host fn), _, rfl, Or.inl rfl, by simpa using nonempty, ?_, ?_⟩
  · intro c listed
    obtain ⟨index, _, rfl⟩ := List.mem_map.mp listed
    exact ⟨_, _, rfl⟩
  · split
    · exact Or.inl rfl
    · refine Or.inr ⟨_, rfl, fun x listed => ?_⟩
      obtain ⟨body, here, in_body⟩ := List.mem_flatten.mp listed
      obtain ⟨index, _, expanded⟩ := mapM_ok_right each body here
      exact unlocked index body expanded x in_body

theorem dropScript_locked (index : LakeIndex) : Locked (dropScript host index) :=
  ⟨[], [rowCheck host "drop_ngram_index" index],
    [.lock, .deleteIndexRow index.indexRef, .dropSegments index.indexRef], rfl, Or.inl rfl, by simp,
    by simp [rowCheck], Or.inr ⟨_, rfl, by simp [LakeStatement.ofLocks]⟩⟩

theorem booted_locked (c : Prop) [Decidable c] (condition : LakeCheck) (message : String)
    {rest : List LakeStatement} (unlocked : ∀ x ∈ rest, x.ofLocks = false) :
    Locked ((if c then [.bootstrap] else []) ++ .check condition message :: .lock :: rest) := by
  refine ⟨if c then [.bootstrap] else [], [.check condition message], .lock :: rest, by simp, ?_, by simp,
    by simp, Or.inr ⟨rest, rfl, unlocked⟩⟩
  split
  · exact Or.inr ⟨rfl, List.cons_ne_nil _ _⟩
  · exact Or.inl rfl

theorem expanded_locked {origin : Lake} {expanded : Nat} {written : Bool} {call : Call}
    {statements : List LakeStatement}
    (expansion : expandCall host origin expanded written call = .ok statements) : Locked statements := by
  obtain ⟨_, expansion⟩ := check_ok expansion
  cases call with
  | create columnName indexRef options partitions =>
    obtain ⟨_, _, expansion⟩ := bind_ok expansion
    obtain ⟨_, _, expansion⟩ := bind_ok expansion
    obtain ⟨existing, _, expansion⟩ := bind_ok expansion
    split at expansion
    · cases expansion
    obtain ⟨t, _, expansion⟩ := bind_ok expansion
    obtain ⟨rows, _, expansion⟩ := bind_ok expansion
    obtain rfl := ok_inj expansion
    exact booted_locked _ _ _ (by simp [LakeStatement.ofLocks])
  | refresh onlyColumn partitions =>
    obtain ⟨_, _, expansion⟩ := bind_ok expansion
    obtain ⟨indexes, maintained, expansion⟩ := bind_ok expansion
    obtain ⟨bodies, each, expansion⟩ := bind_ok expansion
    obtain rfl := ok_inj expansion
    exact checkedScript_locked (maintainedIndexes_ok maintained).1 each fun _ _ => refreshBody_unlocked
  | compact onlyColumn purge partitions =>
    obtain ⟨_, _, expansion⟩ := bind_ok expansion
    obtain ⟨indexes, maintained, expansion⟩ := bind_ok expansion
    obtain ⟨bodies, each, expansion⟩ := bind_ok expansion
    obtain rfl := ok_inj expansion
    exact checkedScript_locked (maintainedIndexes_ok maintained).1 each fun _ _ => compactBody_unlocked
  | drop columnName =>
    obtain ⟨_, _, expansion⟩ := bind_ok expansion
    obtain ⟨indexes, _, expansion⟩ := bind_ok expansion
    split at expansion
    · obtain rfl := ok_inj expansion
      exact dropScript_locked _
    · cases expansion
  | dropByReference indexRef =>
    obtain ⟨indexes, _, expansion⟩ := bind_ok expansion
    split at expansion
    · obtain rfl := ok_inj expansion
      exact dropScript_locked _
    · cases expansion
  | elsewhere =>
    obtain rfl := ok_inj expansion
    exact booted_locked _ _ _ (by simp)

end Statements

section History

/-- Every commit after the first snapshot either leaves the __ngram tables as they
    were, or deletes their one lock row, or creates them. -/
def Fenced (lake : Lake) : Prop :=
  ∀ (k : Nat) (a b : Snapshot), lake.snapshots[k]? = some a → lake.snapshots[k + 1]? = some b →
    b.index = a.index ∨ a.index.registry = none ∧ b.createsSchema = true ∨
      ∃ lock, a.index.locks = [lock] ∧ lock ∈ b.deletedLocks

theorem no_conflict {lake : Lake} {snapshot : Nat} {writes : List LakeWrite}
    (accepted : conflicts lake snapshot writes = false) {k : Nat} {b : Snapshot} (later : snapshot < k)
    (here : lake.snapshots[k]? = some b) :
    (∀ lock ∈ b.deletedLocks, lock ∉ deletedLocksOf writes) ∧
      (b.createsSchema = true → LakeWrite.createRegistry ∉ writes) := by
  have listed : b ∈ lake.snapshots.drop (snapshot + 1) := by
    refine List.mem_of_getElem? (i := k - (snapshot + 1)) ?_
    rw [List.getElem?_drop, show snapshot + 1 + (k - (snapshot + 1)) = k by omega]
    exact here
  have none_of_them := List.any_eq_false.mp accepted b listed
  simp only [Bool.or_eq_true, List.any_eq_true, Bool.and_eq_true, decide_eq_true_eq, not_or, not_exists,
    not_and] at none_of_them
  exact ⟨none_of_them.1, none_of_them.2⟩

/-- No maintenance was committed after the snapshot that an accepted script read. -/
theorem index_unchanged {lake : Lake} (fenced : Fenced lake) {snapshot number : Nat} {s : Snapshot}
    {after : IndexTables} {writes : List LakeWrite} (here : lake.snapshots[snapshot]? = some s)
    (relocks : Relocks number s.index after writes) (accepted : conflicts lake snapshot writes = false)
    {k : Nat} {b : Snapshot} (later : snapshot ≤ k) (there : lake.snapshots[k]? = some b) :
    b.index = s.index := by
  induction k, later using Nat.le_induction generalizing b with
  | base => rw [Option.some.inj (there.symm.trans here)]
  | succ k later ih =>
    obtain ⟨inside, _⟩ := List.getElem?_eq_some_iff.mp there
    obtain ⟨a, before⟩ : ∃ a, lake.snapshots[k]? = some a := ⟨_, List.getElem?_eq_getElem (by omega)⟩
    obtain ⟨kept_locks, kept_schema⟩ := no_conflict accepted (Nat.lt_succ_of_le later) there
    have same := ih before
    rcases fenced k a b before there with unchanged | ⟨absent, creates⟩ | ⟨lock, one, deleted⟩
    · exact unchanged.trans same
    · rcases relocks.deletes with ⟨_, created⟩ | ⟨own, own_lock, _⟩
      · exact absurd created (kept_schema creates)
      · rw [same] at absent
        simp [IndexTables.locks, absent] at own_lock
    · rcases relocks.deletes with ⟨absent, _⟩ | ⟨own, own_lock, own_deleted⟩
      · rw [same] at one
        simp [IndexTables.locks, absent] at one
      · rw [same, own_lock] at one
        obtain rfl := List.singleton_inj.mp one
        exact absurd own_deleted (kept_locks own deleted)

/-- At most one row for an index, and its segments table stands beside it. -/
structure EntryWell (entry : IndexEntry) : Prop where
  one : entry.rows.length ≤ 1
  stored : entry.rows ≠ [] → entry.postings ≠ none

def Generated (host : LakeHost) (lake : Lake) (plan : Plan) : Prop :=
  ∃ origin written call, origin.snapshots <+: lake.snapshots ∧ origin.expired ⊆ lake.expired ∧
    plan.expandedAt < origin.snapshots.length ∧
    expandCall host origin plan.expandedAt written call = .ok plan.statements

structure Sound (host : LakeHost) (run : LakeRun) : Prop where
  fenced : Fenced run.lake
  held : ∀ (k : Nat) (s : Snapshot), run.lake.snapshots[k]? = some s → s.index.registry ≠ none →
    ∃ lock, s.index.locks = [lock]
  entries : ∀ (k : Nat) (s : Snapshot), run.lake.snapshots[k]? = some s →
    ∀ indexRef, EntryWell (s.index.entry indexRef)
  planned : ∀ plan ∈ run.pending, Generated host run.lake plan

/-- A commit of another client on top of the latest snapshot. -/
structure CommittedBy (lake : Lake) (changes : List TableChange) (latest b : Snapshot) : Prop where
  index : b.index = latest.index
  tables : changeTables lake.snapshots.length ⟨latest.table, latest.nextTableId, []⟩ changes =
    some ⟨b.table, b.nextTableId, b.touched⟩
  version : latest.schemaVersion ≤ b.schemaVersion
  raised : changes.any TableChange.ofSchema = true → latest.schemaVersion < b.schemaVersion
  named : ∀ tableId ∈ b.touched, b.names tableId = true
  numbered : ∀ table ∈ b.table, table.nextRowId ≤ lakeProvisionalRowid

/-- The commit of a script that was expanded in `origin` at one snapshot and
    executed at another. -/
structure MaintainedBy (host : LakeHost) (lake origin : Lake) (expanded snapshot : Nat)
    (s latest b : Snapshot) : Prop where
  here : lake.snapshots[snapshot]? = some s
  order : expanded ≤ snapshot
  earlier : origin.snapshots <+: lake.snapshots
  forgotten : origin.expired ⊆ lake.expired
  inside : expanded < origin.snapshots.length
  unchanged : ∀ (k : Nat) (a : Snapshot), snapshot ≤ k → lake.snapshots[k]? = some a → a.index = s.index
  changes : ∀ indexRef, b.index.entry indexRef = s.index.entry indexRef ∨
    EntryChange host origin lake expanded snapshot s indexRef (s.index.entry indexRef)
      (b.index.entry indexRef)
  table : b.table = latest.table
  nextTableId : b.nextTableId = latest.nextTableId
  untouched : b.touched = []
  version : latest.schemaVersion ≤ b.schemaVersion
  raised : (∃ indexRef, (s.index.entry indexRef).postings = none ∧
    (b.index.entry indexRef).postings ≠ none) → latest.schemaVersion < b.schemaVersion
  relocked : ∃ lock, b.index.locks = [lock]

inductive LakeChange (host : LakeHost) (run next : LakeRun) (event : LakeEvent) : Prop
  | quiet (same : next.lake.snapshots = run.lake.snapshots)
  | committed (latest b : Snapshot) (last : run.lake.snapshots.getLast? = some latest)
      (append : next.lake = run.lake.append b) (by_client : CommittedBy run.lake event.changes latest b)
  | maintained (origin : Lake) (expanded snapshot : Nat) (s latest b : Snapshot)
      (last : run.lake.snapshots.getLast? = some latest) (append : next.lake = run.lake.append b)
      (by_script : MaintainedBy host run.lake origin expanded snapshot s latest b)

theorem generated_later {host : LakeHost} {a b : Lake} (longer : a.snapshots <+: b.snapshots)
    (forgotten : a.expired ⊆ b.expired) {plan : Plan} (generated : Generated host a plan) :
    Generated host b plan := by
  obtain ⟨origin, written, call, earlier, gone, inside, expansion⟩ := generated
  exact ⟨origin, written, call, earlier.trans longer, fun k listed => forgotten (gone listed), inside, expansion⟩

/-- A snapshot of a longer history is one of the shorter, or the new one. -/
theorem append_cases {lake : Lake} {b s : Snapshot} {k : Nat} (here : (lake.append b).snapshots[k]? = some s) :
    lake.snapshots[k]? = some s ∨ k = lake.snapshots.length ∧ s = b := by
  by_cases old : k < lake.snapshots.length
  · left
    rw [← here]
    exact (List.getElem?_append_left old).symm
  · right
    obtain ⟨inside, _⟩ := List.getElem?_eq_some_iff.mp here
    have at_end : k = lake.snapshots.length := by
      simp only [Lake.append, List.length_append, List.length_singleton] at inside
      omega
    subst at_end
    have found : (lake.snapshots ++ [b])[lake.snapshots.length]? = some b := by simp
    exact ⟨rfl, Option.some.inj (here.symm.trans found)⟩

/-- Two snapshots in a row of a longer history are two of the shorter, or its last
    and the new one. -/
theorem append_pair {lake : Lake} {latest b x y : Snapshot} (last : lake.snapshots.getLast? = some latest)
    {k : Nat} (here : (lake.append b).snapshots[k]? = some x)
    (next : (lake.append b).snapshots[k + 1]? = some y) :
    lake.snapshots[k]? = some x ∧ lake.snapshots[k + 1]? = some y ∨
      k + 1 = lake.snapshots.length ∧ x = latest ∧ y = b := by
  rcases append_cases next with after | ⟨newest, rfl⟩
  · obtain ⟨inside, _⟩ := List.getElem?_eq_some_iff.mp after
    refine Or.inl ⟨?_, after⟩
    rw [← here]
    exact (List.getElem?_append_left (by omega)).symm
  · rcases append_cases here with before | ⟨impossible, _⟩
    · rw [List.getLast?_eq_getElem?, ← newest, Nat.add_sub_cancel, before] at last
      exact Or.inr ⟨newest, Option.some.inj last, rfl⟩
    · omega

theorem fenced_append {lake : Lake} {latest b : Snapshot} (fenced : Fenced lake)
    (last : lake.snapshots.getLast? = some latest)
    (own : b.index = latest.index ∨ latest.index.registry = none ∧ b.createsSchema = true ∨
      ∃ lock, latest.index.locks = [lock] ∧ lock ∈ b.deletedLocks) : Fenced (lake.append b) := by
  intro k x y here next
  rcases append_pair last here next with ⟨before, after⟩ | ⟨_, rfl, rfl⟩
  · exact fenced k x y before after
  · exact own

theorem changed_well {host : LakeHost} {origin lake : Lake} {expanded snapshot : Nat} {s : Snapshot}
    {indexRef : String} {before after : IndexEntry} (well : EntryWell before)
    (change : EntryChange host origin lake expanded snapshot s indexRef before after) : EntryWell after := by
  have had_row {index : LakeIndex} (checked : RowChecked index before) : before.rows ≠ [] := by
    intro empty
    simp [RowChecked, empty] at checked
  cases change with
  | refreshed index planned named checked behind rows appended =>
    refine ⟨by simp [rows], fun _ => ?_⟩
    rcases appended with ⟨_, same⟩ | ⟨_, _, _, _, _, _, _, _, filled⟩
    · rw [same]
      exact well.stored (had_row checked)
    · simp [filled]
  | compacted index purge planned named checked rows repacked =>
    obtain ⟨_, _, _, _, _, _, _, _, _, _, filled⟩ := repacked
    exact ⟨by simp [rows], fun _ => by simp [filled]⟩
  | created columnName options hi partitions tableId rows valid absent identified read inserted packed =>
    have no_row : before.rows = [] := by
      by_contra some_row
      exact well.stored some_row absent
    exact ⟨by simp [inserted, no_row], fun _ => by simp [packed]⟩
  | dropped rows postings => exact ⟨by simp [rows], fun some_row => absurd rows some_row⟩

theorem refs_distinct {tables : IndexTables} (well : ∀ indexRef, EntryWell (tables.entry indexRef)) :
    (tables.rows.map LakeRegistryRow.indexRef).Nodup := by
  rw [List.nodup_iff_count_le_one]
  intro indexRef
  rw [List.count_eq_countP, List.countP_map, List.countP_eq_length_filter]
  exact (well indexRef).one

/-- Without a write of the schema no segments table appears. -/
theorem postings_kept {writes : List LakeWrite} (other : writes.any LakeWrite.ofSchema = false)
    {tables : IndexTables} {indexRef : String} (absent : tables.postings indexRef = none) :
    (applyWrites writes tables).postings indexRef = none := by
  induction writes generalizing tables with
  | nil => exact absent
  | cons write rest ih =>
    simp only [List.any_cons, Bool.or_eq_false_iff] at other
    refine ih other.2 ?_
    have updated (ref : String) (f : List PostingRow → List PostingRow) :
        (tables.withPostings ref f).postings indexRef = none := by
      by_cases same : indexRef = ref
      · subst same
        exact lookup_map_own.trans (by rw [show tables.segments.lookup indexRef = none from absent]; rfl)
      · exact (lookup_map_other same).trans absent
    cases write with
    | createRegistry => exact absent
    | deleteLocks rowids => exact absent
    | insertLock rowid => exact absent
    | deleteRows rows => exact absent
    | insertRow row => exact absent
    | createSegments ref => simp [LakeWrite.ofSchema] at other
    | dropSegments ref => simp [LakeWrite.ofSchema] at other
    | deletePostings ref rows => exact updated ref _
    | insertPostings ref rows => exact updated ref _

end History

section Steps
variable {host : LakeHost}

theorem commitChanges_by {lake after : Lake} {changes : List TableChange} {nameShared : Bool}
    {record : CommitRecord} (run : commitChanges lake changes nameShared record = some after) :
    ∃ latest b, lake.snapshots.getLast? = some latest ∧ after = lake.append b ∧
      CommittedBy lake changes latest b := by
  simp only [commitChanges, Option.bind_eq_bind, Option.bind_eq_some_iff] at run
  obtain ⟨latest, last, state, changed, run⟩ := run
  split at run
  next accepted =>
    obtain ⟨raised, named, numbered⟩ := accepted
    refine ⟨latest, _, last, (Option.some.inj run).symm, rfl, changed, Nat.le_add_right _ _, ?_, ?_, numbered⟩
    · intro of_schema
      have := raised of_schema
      simp only
      omega
    · intro tableId listed
      simpa [Snapshot.names] using named tableId listed
  next => cases run

theorem prefix_at {a b : Lake} (longer : a.snapshots <+: b.snapshots) {k : Nat} {s : Snapshot}
    (here : a.snapshots[k]? = some s) : b.snapshots[k]? = some s := by
  obtain ⟨more, same⟩ := longer
  obtain ⟨inside, _⟩ := List.getElem?_eq_some_iff.mp here
  rw [← same, List.getElem?_append_left inside]
  exact here

theorem earlier_at {a b : Lake} (longer : a.snapshots <+: b.snapshots) {k : Nat} (inside : k < a.snapshots.length)
    {s : Snapshot} (here : b.snapshots[k]? = some s) : a.snapshots[k]? = some s := by
  obtain ⟨more, same⟩ := longer
  rw [← same, List.getElem?_append_left inside] at here
  exact here

theorem last_at {lake : Lake} {latest : Snapshot} (last : lake.snapshots.getLast? = some latest) :
    0 < lake.snapshots.length ∧ lake.snapshots[lake.snapshots.length - 1]? = some latest := by
  rw [List.getLast?_eq_getElem?] at last
  obtain ⟨inside, _⟩ := List.getElem?_eq_some_iff.mp last
  exact ⟨by omega, last⟩

theorem sound_append {run : LakeRun} {latest b : Snapshot} {pending : List Plan} (sound : Sound host run)
    (last : run.lake.snapshots.getLast? = some latest)
    (fence : b.index = latest.index ∨ latest.index.registry = none ∧ b.createsSchema = true ∨
      ∃ lock, latest.index.locks = [lock] ∧ lock ∈ b.deletedLocks)
    (locked : b.index.registry ≠ none → ∃ lock, b.index.locks = [lock])
    (well : ∀ indexRef, EntryWell (b.index.entry indexRef)) (fewer : pending ⊆ run.pending) :
    Sound host ⟨run.lake.append b, pending⟩ := by
  refine ⟨fenced_append sound.fenced last fence, ?_, ?_, ?_⟩
  · intro k s here
    rcases append_cases here with before | ⟨_, rfl⟩
    · exact sound.held k s before
    · exact locked
  · intro k s here
    rcases append_cases here with before | ⟨_, rfl⟩
    · exact sound.entries k s before
    · exact well
  · intro plan waiting
    exact @generated_later host run.lake (run.lake.append b) (List.prefix_append _ _) (List.Subset.refl _) plan
      (sound.planned plan (fewer waiting))

theorem executed_by {lake : Lake} {plan : Plan} {snapshot : Nat} {record : CommitRecord} {pending : List Plan}
    (sound : Sound host ⟨lake, pending⟩) (generated : Generated host lake plan)
    (order : plan.expandedAt ≤ snapshot) (inside : snapshot < lake.snapshots.length)
    (raised : raises host lake plan snapshot record) :
    executePlan host lake plan snapshot record = lake ∨
      ∃ origin s latest b, lake.snapshots.getLast? = some latest ∧
        executePlan host lake plan snapshot record = lake.append b ∧
        MaintainedBy host lake origin plan.expandedAt snapshot s latest b ∧
        (∃ t, runScript host lake snapshot lake.snapshots.length plan.statements = .ok t ∧ b.index = t.view) ∧
        (b.index = latest.index ∨ latest.index.registry = none ∧ b.createsSchema = true ∨
          ∃ lock, latest.index.locks = [lock] ∧ lock ∈ b.deletedLocks) := by
  obtain ⟨s, here⟩ : ∃ s, lake.snapshots[snapshot]? = some s := ⟨_, List.getElem?_eq_getElem inside⟩
  simp only [executePlan, raises] at raised ⊢
  split at raised
  next => exact Or.inl rfl
  next t script =>
    have ran := script
    simp only [runScript, here] at ran
    simp only [commitWrites]
    split
    · exact Or.inl rfl
    next latest last =>
      split
      · exact Or.inl rfl
      next refused =>
        right
        obtain ⟨some_write, accepted⟩ := not_or.mp refused
        rw [Bool.not_eq_true] at accepted
        obtain ⟨origin, written, call, earlier, forgotten, within, expansion⟩ := generated
        obtain ⟨view_eq, nothing | relocks⟩ :=
          locked_script (expanded_locked expansion) (sound.held snapshot s here) ran
        · exact absurd nothing some_write
        have unchanged (k : Nat) (a : Snapshot) (later : snapshot ≤ k) (there : lake.snapshots[k]? = some a) :
            a.index = s.index := index_unchanged sound.fenced here relocks accepted later there
        have latest_eq : latest.index = s.index :=
          unchanged _ latest (by omega) (last_at last).2
        have distinct (a : Snapshot) (there : origin.snapshots[plan.expandedAt]? = some a) :
            (a.index.rows.map LakeRegistryRow.indexRef).Nodup := by
          exact refs_distinct (sound.entries plan.expandedAt a (prefix_at earlier there))
        refine ⟨origin, s, latest, _, last, rfl, ⟨here, order, earlier, forgotten, within, unchanged, ?_, rfl, rfl,
          rfl, Nat.le_add_right _ _, ?_, ?_⟩, ⟨t, script, ?_⟩, ?_⟩
        · simp only [latest_eq, ← view_eq]
          exact script_changes expansion distinct ran
        · rintro ⟨indexRef, absent, appears⟩
          have of_schema : t.writes.any LakeWrite.ofSchema = true := by
            by_contra other
            simp only [latest_eq] at appears
            exact appears (postings_kept (Bool.eq_false_iff.mpr other) absent)
          have := raised of_schema
          simp only
          omega
        · simp only [latest_eq, ← view_eq]
          exact ⟨_, relocks.lock⟩
        · simp only [latest_eq, ← view_eq]
        · rw [latest_eq]
          rcases relocks.deletes with ⟨absent, creates⟩ | held
          · exact Or.inr (Or.inl ⟨absent, decide_eq_true creates⟩)
          · exact Or.inr (Or.inr held)

/-- The execution of a waiting plan: the plan is gone, and the lake is as it was or has
    the script's result on top of the tables that the script read. -/
theorem execute_cases {run next : LakeRun} {position snapshot : Nat} {record : CommitRecord}
    (sound : Sound host run) (step : lakeStep host run (.execute position snapshot record) = some next) :
    ∃ plan, run.pending[position]? = some plan ∧ next.pending = run.pending.eraseIdx position ∧
      (next.lake = run.lake ∨ ∃ origin s latest b, run.lake.snapshots.getLast? = some latest ∧
        next.lake = run.lake.append b ∧ MaintainedBy host run.lake origin plan.expandedAt snapshot s latest b ∧
        (∃ t, runScript host run.lake snapshot run.lake.snapshots.length plan.statements = .ok t ∧
          b.index = t.view) ∧
        (b.index = latest.index ∨ latest.index.registry = none ∧ b.createsSchema = true ∨
          ∃ lock, latest.index.locks = [lock] ∧ lock ∈ b.deletedLocks)) := by
  simp only [lakeStep] at step
  split at step
  next => cases step
  next plan waiting =>
    split at step
    next accepted =>
      obtain ⟨order, inside, raised⟩ := accepted
      obtain rfl := Option.some.inj step
      have planned := sound.planned plan (List.mem_of_getElem? waiting)
      exact ⟨plan, waiting, rfl,
        @executed_by host run.lake plan snapshot record run.pending sound planned order inside raised⟩
    next => cases step

/-- One event: its change of the snapshots, and what holds of every state still does. -/
theorem lake_change {run next : LakeRun} {event : LakeEvent} (sound : Sound host run)
    (step : lakeStep host run event = some next) : LakeChange host run next event ∧ Sound host next := by
  cases event with
  | commit changes nameShared record =>
    obtain ⟨after, committed, rfl⟩ := Option.map_eq_some_iff.mp step
    obtain ⟨latest, b, last, rfl, by_client⟩ := commitChanges_by committed
    obtain ⟨_, there⟩ := last_at last
    refine ⟨.committed latest b last rfl by_client, ?_⟩
    refine sound_append sound last (Or.inl by_client.index) ?_ ?_ (List.Subset.refl _)
    · rw [by_client.index]
      exact sound.held _ latest there
    · rw [by_client.index]
      exact sound.entries _ latest there
  | expire snapshots =>
    simp only [lakeStep] at step
    split at step
    next => cases step
    next =>
      obtain rfl := Option.some.inj step
      exact ⟨.quiet rfl, sound.fenced, sound.held, sound.entries, fun plan waiting =>
        @generated_later host run.lake { run.lake with expired := run.lake.expired ++ snapshots }
          (List.prefix_refl _) (List.subset_append_left _ _) plan (sound.planned plan waiting)⟩
  | expand snapshot written call =>
    simp only [lakeStep] at step
    split at step
    next inside =>
      split at step
      next statements expansion =>
        obtain rfl := Option.some.inj step
        refine ⟨.quiet rfl, sound.fenced, sound.held, sound.entries, fun plan waiting => ?_⟩
        rcases List.mem_append.mp waiting with before | new
        · exact sound.planned plan before
        · obtain rfl := List.mem_singleton.mp new
          exact ⟨run.lake, written, call, List.prefix_refl _, List.Subset.refl _, inside, expansion⟩
      next => cases step
    next => cases step
  | execute position snapshot record =>
    obtain ⟨plan, _, left, outcome⟩ := execute_cases sound step
    have fewer : next.pending ⊆ run.pending := by
      rw [left]
      exact List.eraseIdx_subset
    obtain ⟨lake, pending⟩ := next
    rcases outcome with same | ⟨origin, s, latest, b, last, append, by_script, _, fence⟩
    · obtain rfl : lake = run.lake := same
      exact ⟨.quiet rfl, sound.fenced, sound.held, sound.entries,
        fun other waiting => sound.planned other (fewer waiting)⟩
    · obtain rfl : lake = run.lake.append b := append
      refine ⟨.maintained origin plan.expandedAt snapshot s latest b last rfl by_script, ?_⟩
      refine sound_append sound last fence (fun _ => by_script.relocked) ?_ fewer
      intro indexRef
      have well := sound.entries snapshot s by_script.here indexRef
      rcases by_script.changes indexRef with kept | change
      · exact kept ▸ well
      · exact changed_well well change

theorem sound_start : Sound host emptyLake := by
  refine ⟨?_, ?_, ?_, by simp [emptyLake]⟩
  · intro k a b _ next
    exact absurd (emptyLake_only next).1 (Nat.succ_ne_zero k)
  · intro k s here present
    obtain ⟨_, rfl⟩ := emptyLake_only here
    exact absurd rfl present
  · intro k s here indexRef
    obtain ⟨_, rfl⟩ := emptyLake_only here
    exact ⟨Nat.zero_le _, fun some_row => absurd rfl some_row⟩

/-- What holds at first and is kept by the change of every event holds throughout. -/
theorem lake_invariant {inv : LakeRun → Prop} {allowed : LakeEvent → Prop}
    (preserves : ∀ run next event, Sound host run → inv run → allowed event →
      lakeStep host run event = some next → LakeChange host run next event → inv next)
    {events : List LakeEvent} {run : LakeRun} (each : ∀ e ∈ events, allowed e)
    (reached : exec (lakeStep host) emptyLake events = some run) (start : inv emptyLake) :
    Sound host run ∧ inv run := by
  refine @exec_invariant_along _ _ (lakeStep host) (fun _ event => allowed event)
    (fun run => Sound host run ∧ inv run) ?_ emptyLake run events
    (along_of_forall (fun e listed _ => each e listed) emptyLake) reached ⟨sound_start, start⟩
  intro run event next held permitted step
  obtain ⟨change, sound⟩ := lake_change held.1 step
  exact ⟨sound, preserves run next event held.1 held.2 permitted step change⟩

end Steps
end NgramLake
