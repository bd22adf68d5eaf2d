import NgramIndex.RowIdGuard

/- What a guard persists in its index storage options, how it is read back, and
   the one reader of a guard's state, bound or not. -/
namespace NgramRowIdGuard

def guardVersion : Int := 1

def duckdbVersion : String := "v2.0.0"

def duckdbSourceCommit : String := "d54cbbe3df17e8e5ce68312f483b4155836112aa"

def duckdbSourceId : String := "d54cbbe3"

def hostRuntimeMismatchReason : String :=
  s!"the host runtime does not match pinned DuckDB {duckdbVersion} commit {duckdbSourceCommit}"

def requirePinnedRuntime : String :=
  s!"ngram rowid guard requires host DuckDB {duckdbVersion} built from commit {duckdbSourceCommit}"

def ngramRowidGuardType : String := "NGRAM_ROWID_GUARD"

/-- The storage information of an index as its guard uses it. An option that is
    missing, NULL or of another type is none; an information without allocators
    is not valid to the host. -/
structure IndexStorageInfo where
  allocatorInfos : Nat
  buffers : Nat
  version : Option Int
  source : Option String
  token : Option String
  maxSeen : Option Int
  unsafeReuse : Option Bool
  checkpoint : Option Nat
  protection : Option Bool
  deriving DecidableEq, Repr

structure StoredGuardState where
  token : String := ""
  maxSeen : Int := -1
  unsafeReuse : Bool := true
  protectionCompatible : Bool := false
  checkpointIteration : Option Nat := none
  deriving DecidableEq, Repr

/-- Reading stops at the first missing option, with the fields read so far. -/
def readStoredGuardState (runtimeCompatible : Bool) (storage : IndexStorageInfo) :
    StoredGuardState :=
  if storage.allocatorInfos = 0 then {} else
  match storage.token with
  | none => {}
  | some token =>
    match storage.maxSeen with
    | none => { token }
    | some maxSeen =>
      match storage.unsafeReuse, storage.version, storage.source, storage.protection with
      | some unsafeReuse, some version, some source, some protection =>
        if !runtimeCompatible || version != guardVersion || source != duckdbSourceId || !protection then
          { token, maxSeen }
        else if token = "" then { token, maxSeen }
        else
          match storage.checkpoint with
          | none => { token, maxSeen }
          | some checkpoint =>
            { token, maxSeen, unsafeReuse, protectionCompatible := true,
              checkpointIteration := some checkpoint }
      | _, _, _, _ => { token, maxSeen }

def RowIdGuard.serialize (g : RowIdGuard) (maxSeen : Int) (unsafeReuse : Bool) (checkpoint : Nat)
    (protection : Bool) : IndexStorageInfo where
  allocatorInfos := 1
  buffers := 0
  version := some guardVersion
  source := some duckdbSourceId
  token := some g.token
  maxSeen := some maxSeen
  unsafeReuse := some unsafeReuse
  checkpoint := some checkpoint
  protection := some protection

/-- The live guard afterwards, and what the checkpoint writes for it. The header
    write that follows raises the iteration by one, so the seal is the next one. -/
def RowIdGuard.serializeToDisk (g : RowIdGuard) (runtimeCompatible : Bool) (db : AttachedDatabase) :
    RowIdGuard × IndexStorageInfo :=
  let compatible := g.protectionCompatible && runtimeCompatible
  let current := if compatible then db.checkpointIteration else 0
  let live := g.sealToDisk runtimeCompatible db
  (live, live.serialize live.maxSeen (if compatible then live.unsafeReuse else true)
    (if compatible then current + 1 else 0) compatible)

def RowIdGuard.serializeToWAL (g : RowIdGuard) (runtimeCompatible : Bool) (db : AttachedDatabase) :
    RowIdGuard × IndexStorageInfo :=
  let compatible := g.protectionCompatible && runtimeCompatible
  let current := if compatible then db.checkpointIteration else 0
  let live := g.sealToDisk runtimeCompatible db
  let result := live.serialize live.maxSeen (if compatible then live.unsafeReuse else true)
    current compatible
  (live, { result with buffers := result.buffers + 1 })

/-- Binding carries the persisted seal as pending. -/
def guardCreateInstance (runtimeCompatible : Bool) (storage : IndexStorageInfo) : RowIdGuard :=
  let stored := readStoredGuardState runtimeCompatible storage
  { token := stored.token
    maxSeen := stored.maxSeen
    unsafeReuse := stored.unsafeReuse
    protectionCompatible := stored.protectionCompatible
    checkpointIteration := stored.checkpointIteration
    advanceIteration := none }

structure RowIdGuardState where
  token : String
  maxSeen : Int
  unsafeReuse : Bool
  protectionCompatible : Bool
  columnIds : List Nat
  deriving DecidableEq, Repr

def RowIdGuard.getState (g : RowIdGuard) (columnIds : List Nat) (current : Option Nat) :
    RowIdGuard × RowIdGuardState :=
  let live := match current with
    | none => g
    | some iteration => g.applyCheckpointSeal iteration
  (live, ⟨live.token, live.maxSeen, live.unsafeReuse, live.protectionCompatible, columnIds⟩)

/-- An installed guard: bound, or unbound with the appends replayed against it. -/
inductive Binding where
  | bound (guard : RowIdGuard)
  | unbound (storage : IndexStorageInfo) (replays : List RowIds)
  deriving DecidableEq, Repr

/-- The state of an installed guard. The unbound reader compares the seal and
    leaves it, the bound one consumes it. -/
def Binding.read (runtimeCompatible : Bool) (columnIds : List Nat) (iteration : Option Nat) :
    Binding → Binding × RowIdGuardState
  | .bound guard =>
      let (live, state) := guard.getState columnIds iteration
      (.bound live, state)
  | .unbound storage replays =>
      let stored := readStoredGuardState runtimeCompatible storage
      let moved := iteration.isSome && stored.checkpointIteration != iteration
      (.unbound storage replays,
        ⟨stored.token, stored.maxSeen, stored.unsafeReuse || moved || !replays.isEmpty,
          stored.protectionCompatible, columnIds⟩)

/-- One index of a table; a binding in progress leaves nothing to read. -/
structure IndexEntry where
  name : String
  indexType : String
  columnIds : List Nat
  binding : Option Binding
  deriving DecidableEq, Repr

/-- The state of the guard of that name on the table, with what reading did to
    it, or why it cannot be read. The column is its storage position, if the
    table still has it. -/
def readGuardState (runtimeCompatible : Bool) (indexes : List IndexEntry) (column : Option Nat)
    (guardName : String) (iteration : Option Nat) : Except String (Binding × RowIdGuardState) :=
  if guardName = "" then .error "the index does not record a valid rowid guard"
  else
    match indexes.find? fun entry => entry.name == guardName with
    | none => .error "the recorded rowid guard is missing"
    | some entry =>
      match entry.binding with
      | none => .error "the recorded rowid guard is in an uncertain bind state"
      | some binding =>
        if entry.indexType = ngramRowidGuardType ∧ ∃ c ∈ column, c ∈ entry.columnIds then
          .ok (binding.read runtimeCompatible entry.columnIds iteration)
        else .error "the recorded rowid guard has the wrong type or column dependency"

/-- Why the guard of that name and token cannot stand for the rows up to the mark. A seal
    that this read consumes belongs to the guard in memory, not to the transaction. -/
def exactGuardReason (runtimeCompatible : Bool) (indexes : List IndexEntry) (column : Option Nat)
    (guardName guardToken : String) (hwmRowid : Int) (iteration : Nat) : Option String :=
  if !runtimeCompatible then some hostRuntimeMismatchReason
  else if guardToken = "" then some "the index does not record a valid rowid guard"
  else
    match readGuardState true indexes column guardName (some iteration) with
    | .error reason => some reason
    | .ok (_, state) =>
      if state.token ≠ guardToken then some "the recorded rowid guard was dropped and re-created"
      else if !state.protectionCompatible then
        some "the recorded rowid guard is incompatible with this extension build"
      else if state.maxSeen < hwmRowid then
        some "the rowid guard has not observed the index high-water mark"
      else if state.unsafeReuse then
        some "the rowid guard cannot exclude reuse of rowids already covered by the ngram index"
      else none

/-- An entry of a schema's index catalog: its type, and whether it is an index of the table. -/
structure CatalogIndex where
  indexType : String
  ofTable : Bool
  deriving DecidableEq, Repr

/-- Why an installed guard is not the recorded incarnation. An unbound one is bound
    first and read again. -/
def incarnationReason (runtimeCompatible : Bool) (bindRefusal : Option String) (guardToken : String) :
    Binding → Option String
  | .bound guard =>
      if guard.token ≠ guardToken then some "the recorded rowid guard was dropped and re-created" else none
  | .unbound storage _ =>
      match storage.token with
      | none => some "the unbound rowid guard does not persist an incarnation token"
      | some token =>
        if token ≠ guardToken then some "the recorded rowid guard was dropped and re-created"
        else
          match bindRefusal with
          | some refusal => some refusal
          | none =>
            if (guardCreateInstance runtimeCompatible storage).token ≠ guardToken then
              some "the recorded rowid guard was dropped and re-created"
            else none

/-- Why the guard cannot be dropped; one that is missing altogether can be. -/
def guardDropReason (runtimeCompatible : Bool) (cataloged : Option CatalogIndex) (indexes : List IndexEntry)
    (bindRefusal : Option String) (guardName guardToken : String) : Option String :=
  if guardName = "" ∨ guardToken = "" then
    some "the index does not record a valid rowid guard name and token"
  else if cataloged.any fun index => index.indexType != ngramRowidGuardType || !index.ofTable then
    some "an index with the recorded guard name belongs to a different table or type"
  else
    match indexes.find? fun entry => entry.name == guardName with
    | none =>
      if cataloged.isSome then some "the recorded rowid guard is cataloged but missing from table storage"
      else none
    | some entry =>
      if cataloged = none then
        some "the recorded rowid guard exists in table storage but not in the index catalog"
      else
        match entry.binding with
        | none => some "the recorded rowid guard is being bound; retry the drop"
        | some binding =>
          if entry.indexType ≠ ngramRowidGuardType then some "the recorded rowid guard has the wrong type"
          else incarnationReason runtimeCompatible bindRefusal guardToken binding

theorem objection_none {p : Prop} [Decidable p] {reason : String} {others : Option String} :
    (if p then some reason else others) = none ↔ ¬ p ∧ others = none := by
  by_cases holds : p <;> simp [holds]

/-- A guard that stands for its rows was read as the recorded incarnation, safe up to the mark. -/
theorem exactGuardReason_none {compatible : Bool} {indexes : List IndexEntry} {column : Option Nat}
    {guardName guardToken : String} {hwmRowid : Int} {iteration : Nat}
    (usable : exactGuardReason compatible indexes column guardName guardToken hwmRowid iteration = none) :
    compatible = true ∧ guardToken ≠ "" ∧ ∃ after state,
      readGuardState true indexes column guardName (some iteration) = .ok (after, state) ∧
        state.token = guardToken ∧ state.protectionCompatible = true ∧ hwmRowid ≤ state.maxSeen ∧
        state.unsafeReuse = false := by
  obtain ⟨pinned, usable⟩ := objection_none.mp usable
  obtain ⟨named, usable⟩ := objection_none.mp usable
  refine ⟨by simpa using pinned, named, ?_⟩
  split at usable
  · cases usable
  next after state read =>
    obtain ⟨same, usable⟩ := objection_none.mp usable
    obtain ⟨protection, usable⟩ := objection_none.mp usable
    obtain ⟨seen, usable⟩ := objection_none.mp usable
    obtain ⟨unlatched, _⟩ := objection_none.mp usable
    exact ⟨after, state, read, not_not.mp same, by simpa using protection, Int.not_lt.mp seen,
      by simpa using unlatched⟩

/-- A stored guard is trusted as a whole, or quarantined. -/
theorem readStored_cases (compatible : Bool) (storage : IndexStorageInfo) :
    ((readStoredGuardState compatible storage).unsafeReuse = true ∧
      (readStoredGuardState compatible storage).checkpointIteration = none) ∨
    ∃ token maxSeen unsafeReuse mark, compatible = true ∧ storage.checkpoint = some mark ∧
      token ≠ "" ∧ storage.token = some token ∧ storage.unsafeReuse = some unsafeReuse ∧
      readStoredGuardState compatible storage = ⟨token, maxSeen, unsafeReuse, true, some mark⟩ := by
  unfold readStoredGuardState
  split
  · exact Or.inl ⟨rfl, rfl⟩
  split
  · exact Or.inl ⟨rfl, rfl⟩
  split
  · exact Or.inl ⟨rfl, rfl⟩
  split
  · split
    · exact Or.inl ⟨rfl, rfl⟩
    split
    · exact Or.inl ⟨rfl, rfl⟩
    split
    · exact Or.inl ⟨rfl, rfl⟩
    · right
      simp_all
  · exact Or.inl ⟨rfl, rfl⟩

/-- The token is read whether or not the rest can be trusted. -/
theorem readStored_token (compatible : Bool) (storage : IndexStorageInfo) :
    (readStoredGuardState compatible storage).token =
      if storage.allocatorInfos = 0 then "" else storage.token.getD "" := by
  unfold readStoredGuardState
  split
  · rfl
  split
  next missing => simp [missing]
  next token present =>
    rw [present, Option.getD_some]
    split
    · rfl
    split
    · split
      · rfl
      split
      · rfl
      split <;> rfl
    · rfl

theorem readStored_serialized (g : RowIdGuard) {maxSeen : Int} {unsafeReuse : Bool} {mark : Nat}
    (named : g.token ≠ "") :
    readStoredGuardState true (g.serialize maxSeen unsafeReuse mark true) =
      ⟨g.token, maxSeen, unsafeReuse, true, some mark⟩ := by
  simp [readStoredGuardState, RowIdGuard.serialize, named]

theorem unsafe_readStored {storage : IndexStorageInfo} (compatible : Bool)
    (marked : storage.unsafeReuse = some true) :
    (readStoredGuardState compatible storage).unsafeReuse = true := by
  rcases readStored_cases compatible storage with ⟨distrusted, _⟩ |
    ⟨token, maxSeen, unsafeReuse, mark, _, _, _, _, stored, eq⟩
  · exact distrusted
  · obtain rfl : unsafeReuse = true := by simpa [marked] using stored.symm
    rw [eq]

/-- A trusted guard writes its latch under the next seal; any other is written unsafe. -/
theorem serializeToDisk_cases (g : RowIdGuard) (compatible : Bool) (db : AttachedDatabase) :
    (g.protectionCompatible = true ∧ compatible = true ∧
      g.serializeToDisk compatible db =
        let live := g.applyCheckpointSeal db.checkpointIteration
        (live, live.serialize live.maxSeen live.unsafeReuse (db.checkpointIteration + 1) true)) ∨
    ((g.protectionCompatible && compatible) = false ∧
      g.serializeToDisk compatible db = (g, g.serialize g.maxSeen true 0 false)) := by
  by_cases trusted : (g.protectionCompatible && compatible) = true
  · obtain ⟨protection, pinned⟩ := Bool.and_eq_true_iff.mp trusted
    exact Or.inl ⟨protection, pinned, by
      simp [RowIdGuard.serializeToDisk, RowIdGuard.sealToDisk, protection, pinned]⟩
  · right
    rw [Bool.not_eq_true] at trusted
    exact ⟨trusted, by simp [RowIdGuard.serializeToDisk, RowIdGuard.sealToDisk, trusted]⟩

/-- Applying the seal keeps all but the latch, which it may only set. -/
theorem applySeal_latch (g : RowIdGuard) (current : Nat) :
    (g.applyCheckpointSeal current).unsafeReuse =
      (g.unsafeReuse || g.checkpointIteration.any (· != current)) := by
  cases sealed : g.checkpointIteration <;> simp [RowIdGuard.applyCheckpointSeal, sealed]

theorem applySeal_spent (g : RowIdGuard) (current : Nat) :
    (g.applyCheckpointSeal current).checkpointIteration = none := by
  cases sealed : g.checkpointIteration <;> simp [RowIdGuard.applyCheckpointSeal, sealed]

theorem applySeal_keeps (g : RowIdGuard) (current : Nat) :
    (g.applyCheckpointSeal current).token = g.token ∧
      (g.applyCheckpointSeal current).protectionCompatible = g.protectionCompatible ∧
      (g.applyCheckpointSeal current).maxSeen = g.maxSeen := by
  cases sealed : g.checkpointIteration <;> simp [RowIdGuard.applyCheckpointSeal, sealed]

/-- A guard without a pending seal is logged as it is, under the current seal. -/
theorem serializeToWAL_fresh {g : RowIdGuard} (db : AttachedDatabase)
    (protection : g.protectionCompatible = true) (unsealed : g.checkpointIteration = none) :
    g.serializeToWAL true db =
      (g, { g.serialize g.maxSeen g.unsafeReuse db.checkpointIteration true with buffers := 1 }) := by
  have same : g.applyCheckpointSeal db.checkpointIteration = g := by
    rw [RowIdGuard.applyCheckpointSeal, unsealed]
  simp [RowIdGuard.serializeToWAL, RowIdGuard.sealToDisk, protection, same, RowIdGuard.serialize]

theorem appends_keep (db : AttachedDatabase) (chunks : List RowIds) (g : RowIdGuard) :
    (chunks.foldl (fun g rows => g.append db rows) g).token = g.token ∧
      (chunks.foldl (fun g rows => g.append db rows) g).protectionCompatible = g.protectionCompatible ∧
      (chunks.foldl (fun g rows => g.append db rows) g).checkpointIteration = g.checkpointIteration := by
  induction chunks generalizing g with
  | nil => exact ⟨rfl, rfl, rfl⟩
  | cons rows rest ih =>
    obtain ⟨token, protection, pending⟩ := ih (g.append db rows)
    obtain ⟨token', protection', pending'⟩ := append_keeps g db rows
    exact ⟨token.trans token', protection.trans protection', pending.trans pending'⟩

theorem appends_keep_latched (db : AttachedDatabase) (chunks : List RowIds) {g : RowIdGuard}
    (latched : g.unsafeReuse = true) :
    (chunks.foldl (fun g rows => g.append db rows) g).unsafeReuse = true := by
  induction chunks generalizing g with
  | nil => exact latched
  | cons rows rest ih => exact ih (append_keeps_latched db rows latched)

theorem appends_latch (db : AttachedDatabase) (chunks : List RowIds) {g : RowIdGuard}
    (latched : (chunks.foldl (fun g rows => g.append db rows) g).unsafeReuse = true) :
    g.unsafeReuse = true ∨ ∃ before rows after, chunks = before ++ rows :: after ∧
      ∃ r ∈ rows.ids, r ≤ (before.foldl (fun g rows => g.append db rows) g).maxSeen := by
  induction chunks generalizing g with
  | nil => exact Or.inl latched
  | cons rows rest ih =>
    rcases ih latched with here | ⟨before, chunk, after, eq, low⟩
    · rcases append_latches here with was | ⟨_, low⟩
      · exact Or.inl was
      · exact Or.inr ⟨[], rows, rest, rfl, low⟩
    · exact Or.inr ⟨rows :: before, chunk, after, by rw [eq, List.cons_append], low⟩

theorem appends_here {db : AttachedDatabase} {a : Nat} (readable : observableCheckpointIteration db = some a)
    (chunks : List RowIds) {g : RowIdGuard} (advanced : g.advanceIteration = some a) :
    (chunks.foldl (fun g rows => g.append db rows) g).unsafeReuse = g.unsafeReuse := by
  induction chunks generalizing g with
  | nil => rfl
  | cons rows rest ih =>
    have still : (g.append db rows).advanceIteration = some a := by
      rcases append_advanceIteration g db rows with eq | eq
      · rw [eq, advanced]
      · rw [eq, readable]
    have same : (g.append db rows).unsafeReuse = g.unsafeReuse := by
      cases before : g.unsafeReuse with
      | true => exact append_keeps_latched db rows before
      | false =>
        by_contra latched
        rcases append_latches (Bool.not_eq_false _ ▸ latched) with was | ⟨suspect, _⟩
        · simp [before] at was
        · simp [RowIdGuard.suspects, readable, advanced] at suspect
    exact (ih still).trans same

end NgramRowIdGuard
