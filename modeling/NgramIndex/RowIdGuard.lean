import Mathlib.Data.List.Nodup
import NgramIndex.Run

/- The rowid guard of one indexed table and the host events it observes.
   A guard holds no postings: it only remembers the greatest appended rowid,
   the header iteration of the append that reached it, and the reuse latch. -/
namespace NgramRowIdGuard
open LabelledRun

structure AttachedDatabase where
  inMemory : Bool
  activeCheckpoint : Bool
  iteration : Nat
  deriving DecidableEq, Repr

/-- The header iteration as an append may read it. An in-memory database has
    no header, and an active checkpoint may be writing the counter. -/
def observableCheckpointIteration (db : AttachedDatabase) : Option Nat :=
  if db.inMemory then none
  else if db.activeCheckpoint then none
  else some db.iteration

structure RowIdGuard where
  token : String
  maxSeen : Int
  unsafeReuse : Bool
  protectionCompatible : Bool
  checkpointIteration : Option Nat
  advanceIteration : Option Nat
  deriving DecidableEq, Repr

/-- Guard creation reads the rowid baseline under the table's append lock. -/
def createRowIdGuard (db : AttachedDatabase) (nextRowId : Nat) (token : String) : RowIdGuard where
  token := token
  maxSeen := if nextRowId = 0 then -1 else nextRowId - 1
  unsafeReuse := false
  protectionCompatible := true
  checkpointIteration := none
  advanceIteration := observableCheckpointIteration db

def RowIdGuard.latch (g : RowIdGuard) (db : AttachedDatabase) (first : Int) : RowIdGuard :=
  if first ≤ g.maxSeen then
    let current := observableCheckpointIteration db
    if g.advanceIteration.isNone ∨ current.isNone ∨ current ≠ g.advanceIteration then
      { g with unsafeReuse := true }
    else g
  else g

def RowIdGuard.advance (g : RowIdGuard) (db : AttachedDatabase) (last : Int) : RowIdGuard :=
  if last > g.maxSeen then
    { g with maxSeen := last, advanceIteration := observableCheckpointIteration db }
  else g

def RowIdGuard.observe (g : RowIdGuard) (db : AttachedDatabase) (first last : Int) : RowIdGuard :=
  (g.latch db first).advance db last

/-- A rowid vector: a sequence, or any other vector read entry by entry. -/
inductive RowIds where
  | sequence (start increment : Int) (size : Nat)
  | flat (ids : List Int)
  deriving DecidableEq, Repr

def RowIds.ids : RowIds → List Int
  | .sequence start increment size => (List.range size).map fun i => start + increment * i
  | .flat ids => ids

def RowIdGuard.appendFlat (g : RowIdGuard) (db : AttachedDatabase) : List Int → RowIdGuard
  | [] => g
  | first :: rest => g.observe db (rest.foldl min first) (rest.foldl max first)

def RowIdGuard.append (g : RowIdGuard) (db : AttachedDatabase) (rows : RowIds) : RowIdGuard :=
  match rows with
  | .sequence start increment size =>
      if size = 0 then g
      else if increment = 1 then g.observe db start (start + ((size - 1 : Nat) : Int))
      else g.appendFlat db (RowIds.sequence start increment size).ids
  | .flat ids => g.appendFlat db ids

def RowIdGuard.applyCheckpointSeal (g : RowIdGuard) (current : Nat) : RowIdGuard :=
  match g.checkpointIteration with
  | none => g
  | some stored =>
      { g with unsafeReuse := g.unsafeReuse || stored != current, checkpointIteration := none }

/-- The header checkpoint iteration; an in-memory database has none. -/
def AttachedDatabase.checkpointIteration (db : AttachedDatabase) : Nat :=
  if db.inMemory then 0 else db.iteration

/-- What serializing a guard does to the live one. -/
def RowIdGuard.sealToDisk (g : RowIdGuard) (runtimeCompatible : Bool) (db : AttachedDatabase) :
    RowIdGuard :=
  if g.protectionCompatible && runtimeCompatible then
    g.applyCheckpointSeal db.checkpointIteration
  else g

/-- The latch condition: no checkpoint can be excluded since max_seen advanced. -/
def RowIdGuard.suspects (g : RowIdGuard) (db : AttachedDatabase) : Prop :=
  g.advanceIteration = none ∨ observableCheckpointIteration db = none ∨
    observableCheckpointIteration db ≠ g.advanceIteration

theorem latch_cases (g : RowIdGuard) (db : AttachedDatabase) (first : Int) :
    (first ≤ g.maxSeen ∧ g.suspects db ∧ g.latch db first = { g with unsafeReuse := true }) ∨
      ((g.maxSeen < first ∨ ¬ g.suspects db) ∧ g.latch db first = g) := by
  by_cases seen : first ≤ g.maxSeen
  · by_cases suspect : g.suspects db
    · left
      refine ⟨seen, suspect, ?_⟩
      simp only [RowIdGuard.suspects] at suspect
      simp [RowIdGuard.latch, seen, Option.isNone_iff_eq_none, suspect]
    · right
      refine ⟨Or.inr suspect, ?_⟩
      simp only [RowIdGuard.suspects] at suspect
      simp [RowIdGuard.latch, Option.isNone_iff_eq_none, suspect]
  · right
    exact ⟨Or.inl (by omega), by simp [RowIdGuard.latch, seen]⟩

@[simp] theorem latch_maxSeen (g : RowIdGuard) (db : AttachedDatabase) (first : Int) :
    (g.latch db first).maxSeen = g.maxSeen := by
  rcases latch_cases g db first with ⟨_, _, eq⟩ | ⟨_, eq⟩ <;> simp [eq]

@[simp] theorem latch_advanceIteration (g : RowIdGuard) (db : AttachedDatabase) (first : Int) :
    (g.latch db first).advanceIteration = g.advanceIteration := by
  rcases latch_cases g db first with ⟨_, _, eq⟩ | ⟨_, eq⟩ <;> simp [eq]

@[simp] theorem latch_checkpointIteration (g : RowIdGuard) (db : AttachedDatabase) (first : Int) :
    (g.latch db first).checkpointIteration = g.checkpointIteration := by
  rcases latch_cases g db first with ⟨_, _, eq⟩ | ⟨_, eq⟩ <;> simp [eq]

theorem latch_keeps_latched (g : RowIdGuard) (db : AttachedDatabase) (first : Int)
    (latched : g.unsafeReuse = true) : (g.latch db first).unsafeReuse = true := by
  rcases latch_cases g db first with ⟨_, _, eq⟩ | ⟨_, eq⟩ <;> simp [eq, latched]

@[simp] theorem advance_unsafeReuse (g : RowIdGuard) (db : AttachedDatabase) (last : Int) :
    (g.advance db last).unsafeReuse = g.unsafeReuse := by
  simp only [RowIdGuard.advance]
  split <;> rfl

@[simp] theorem advance_checkpointIteration (g : RowIdGuard) (db : AttachedDatabase) (last : Int) :
    (g.advance db last).checkpointIteration = g.checkpointIteration := by
  simp only [RowIdGuard.advance]
  split <;> rfl

@[simp] theorem advance_maxSeen (g : RowIdGuard) (db : AttachedDatabase) (last : Int) :
    (g.advance db last).maxSeen = max g.maxSeen last := by
  simp only [RowIdGuard.advance]
  split
  · simp only
    omega
  · omega

theorem advance_advanceIteration (g : RowIdGuard) (db : AttachedDatabase) (last : Int) :
    (g.advance db last).advanceIteration =
      if last > g.maxSeen then observableCheckpointIteration db else g.advanceIteration := by
  simp only [RowIdGuard.advance]
  split <;> rfl

/-- The vector of one chunk: the next size rowids from start on. -/
def RowIds.contiguousFrom (rows : RowIds) (start : Nat) : Prop :=
  rows.ids = (List.range' start rows.ids.length).map Int.ofNat

instance (rows : RowIds) (start : Nat) : Decidable (rows.contiguousFrom start) :=
  inferInstanceAs (Decidable (_ = _))

theorem foldl_min_range (start count : Nat) (low : Int) (small : low ≤ start) :
    ((List.range' start count).map Int.ofNat).foldl min low = low := by
  induction count generalizing start with
  | zero => rfl
  | succ count ih =>
    have kept : min low (Int.ofNat start) = low := Int.min_eq_left small
    simp only [List.range'_succ, List.map_cons, List.foldl_cons, kept]
    exact ih (start + 1) (by push_cast; omega)

theorem foldl_max_range (start count : Nat) :
    ((List.range' (start + 1) count).map Int.ofNat).foldl max (start : Int) = start + count := by
  induction count generalizing start with
  | zero => simp
  | succ count ih =>
    have taken : max (start : Int) (Int.ofNat (start + 1)) = ((start + 1 : Nat) : Int) :=
      Int.max_eq_right (by simp only [Int.ofNat_eq_natCast]; omega)
    simp only [List.range'_succ, List.map_cons, List.foldl_cons, taken, ih (start + 1)]
    push_cast
    omega

theorem appendFlat_range (g : RowIdGuard) (db : AttachedDatabase) (start count : Nat) :
    g.appendFlat db ((List.range' start (count + 1)).map Int.ofNat) =
      g.observe db start (start + count) := by
  simp only [List.range'_succ, List.map_cons, RowIdGuard.appendFlat]
  have low := foldl_min_range (start + 1) count start (by push_cast; omega)
  have high := foldl_max_range start count
  simp only [Int.ofNat_eq_natCast] at low high ⊢
  rw [low, high]

@[simp] theorem sequence_ids_length (start increment : Int) (size : Nat) :
    (RowIds.sequence start increment size).ids.length = size := by
  simp [RowIds.ids]

/-- Both vector forms of a contiguous chunk reach the same observation. -/
theorem append_contiguous (g : RowIdGuard) (db : AttachedDatabase) (rows : RowIds) (start : Nat)
    (contiguous : rows.contiguousFrom start) : g.append db rows =
      if rows.ids.length = 0 then g
      else g.observe db start (start + ((rows.ids.length - 1 : Nat) : Int)) := by
  rcases Nat.eq_zero_or_pos rows.ids.length with none_left | some_left
  · have empty : rows.ids = [] := List.eq_nil_of_length_eq_zero none_left
    cases rows with
    | sequence first increment size =>
      rw [sequence_ids_length] at none_left
      simp [RowIdGuard.append, none_left]
    | flat ids =>
      simp only [RowIds.ids] at empty
      simp [RowIdGuard.append, RowIds.ids, empty, RowIdGuard.appendFlat]
  · obtain ⟨count, length_eq⟩ : ∃ count, rows.ids.length = count + 1 :=
      ⟨rows.ids.length - 1, by omega⟩
    rw [RowIds.contiguousFrom, length_eq] at contiguous
    simp only [length_eq, Nat.add_sub_cancel, Nat.succ_ne_zero, if_false]
    cases rows with
    | sequence first increment size =>
      rw [sequence_ids_length] at length_eq
      subst length_eq
      simp only [RowIdGuard.append, Nat.succ_ne_zero, if_false, Nat.add_sub_cancel]
      split
      · have head : (RowIds.sequence first increment (count + 1)).ids.head? = some first := by
          simp [RowIds.ids, List.range_succ_eq_map]
        rw [contiguous] at head
        simp only [List.range'_succ, List.map_cons, List.head?_cons, Option.some.injEq] at head
        rw [← head]
        rfl
      · rw [contiguous]
        exact appendFlat_range g db start count
    | flat ids =>
      simp only [RowIds.ids] at contiguous
      simp only [RowIdGuard.append]
      rw [contiguous]
      exact appendFlat_range g db start count

theorem foldl_min_mem (first : Int) (rest : List Int) : rest.foldl min first ∈ first :: rest := by
  induction rest generalizing first with
  | nil => simp
  | cons next rest ih =>
    have found := ih (min first next)
    simp only [List.foldl_cons, List.mem_cons] at found ⊢
    rcases found with least | later
    · have either : min first next = first ∨ min first next = next := by omega
      rcases either with kept | taken
      · exact Or.inl (least.trans kept)
      · exact Or.inr (Or.inl (least.trans taken))
    · exact Or.inr (Or.inr later)

/-- An append observes nothing or a range that begins at one of its rowids. -/
theorem append_cases (g : RowIdGuard) (db : AttachedDatabase) (rows : RowIds) :
    g.append db rows = g ∨ ∃ first last, first ∈ rows.ids ∧ g.append db rows = g.observe db first last := by
  have flat : ∀ ids : List Int, g.appendFlat db ids = g ∨
      ∃ first last, first ∈ ids ∧ g.appendFlat db ids = g.observe db first last := by
    intro ids
    cases ids with
    | nil => exact Or.inl rfl
    | cons first rest => exact Or.inr ⟨_, _, foldl_min_mem first rest, rfl⟩
  cases rows with
  | flat ids => exact flat ids
  | sequence start increment size =>
    simp only [RowIdGuard.append]
    split
    · exact Or.inl rfl
    next nonempty =>
      split
      · refine Or.inr ⟨start, _, ?_, rfl⟩
        obtain ⟨rest, rfl⟩ := Nat.exists_eq_succ_of_ne_zero nonempty
        simp [RowIds.ids, List.range_succ_eq_map]
      · exact flat _

/-- What an append leaves as it is: the identity, the compatibility and the seal. -/
theorem append_keeps (g : RowIdGuard) (db : AttachedDatabase) (rows : RowIds) :
    (g.append db rows).token = g.token ∧
      (g.append db rows).protectionCompatible = g.protectionCompatible ∧
      (g.append db rows).checkpointIteration = g.checkpointIteration := by
  rcases append_cases g db rows with eq | ⟨first, last, _, eq⟩
  · simp [eq]
  · rw [eq, RowIdGuard.observe, RowIdGuard.advance]
    rcases latch_cases g db first with ⟨_, _, latched⟩ | ⟨_, latched⟩ <;>
      rw [latched] <;> split <;> simp

theorem append_keeps_latched {g : RowIdGuard} (db : AttachedDatabase) (rows : RowIds)
    (latched : g.unsafeReuse = true) : (g.append db rows).unsafeReuse = true := by
  rcases append_cases g db rows with eq | ⟨first, last, _, eq⟩
  · rw [eq, latched]
  · rw [eq, RowIdGuard.observe, advance_unsafeReuse]
    exact latch_keeps_latched g db first latched

/-- An append latches only at a rowid at or below max_seen, under suspicion. -/
theorem append_latches {g : RowIdGuard} {db : AttachedDatabase} {rows : RowIds}
    (latched : (g.append db rows).unsafeReuse = true) :
    g.unsafeReuse = true ∨ g.suspects db ∧ ∃ r ∈ rows.ids, r ≤ g.maxSeen := by
  rcases append_cases g db rows with eq | ⟨first, last, present, eq⟩
  · exact Or.inl (eq ▸ latched)
  · rcases latch_cases g db first with ⟨low, suspect, _⟩ | ⟨_, same⟩
    · exact Or.inr ⟨suspect, first, present, low⟩
    · rw [eq, RowIdGuard.observe, advance_unsafeReuse, same] at latched
      exact Or.inl latched

theorem append_advanceIteration (g : RowIdGuard) (db : AttachedDatabase) (rows : RowIds) :
    (g.append db rows).advanceIteration = g.advanceIteration ∨
      (g.append db rows).advanceIteration = observableCheckpointIteration db := by
  rcases append_cases g db rows with eq | ⟨first, last, _, eq⟩
  · exact Or.inl (by rw [eq])
  · rw [eq, RowIdGuard.observe, advance_advanceIteration]
    split
    · exact Or.inr rfl
    · exact Or.inl (latch_advanceIteration g db first)

/-- One indexed table with its guard. The list committed has one entry for each
    row committed since the guard exists, the rows it found included; appending
    is the end of the rows flushed so far by the append now in its commit. -/
structure GuardedTable where
  db : AttachedDatabase
  guard : RowIdGuard
  nextRowId : Nat
  live : List Nat
  committed : List Nat
  appending : Option Nat
  deriving DecidableEq, Repr

def GuardedTable.inFlight (t : GuardedTable) : List Nat :=
  match t.appending with
  | none => []
  | some stop => List.range' t.nextRowId (stop - t.nextRowId)

/-- Every rowid given to a committed row or to a row of the append in commit. -/
def GuardedTable.issued (t : GuardedTable) : List Nat := t.committed ++ t.inFlight

def guardCreated (db : AttachedDatabase) (nextRowId : Nat) (rows : List Nat) (token : String) :
    GuardedTable where
  db := db
  guard := createRowIdGuard db nextRowId token
  nextRowId := nextRowId
  live := rows
  committed := rows
  appending := none

/-- The host events around one table. A checkpoint is active between its begin
    and its finish; reclaim hands back the rowids from the given one on, under
    the exclusive vacuum lock that an append in commit holds shared. -/
inductive TableEvent where
  | beginAppend
  | chunk (rows : RowIds)
  | commitAppend
  | failAppend
  | delete (rows : List Nat)
  | beginCheckpoint
  | reclaim (nextRowId : Nat)
  | finishCheckpoint (runtimeCompatible : Bool)
  deriving DecidableEq, Repr

def TableEvent.isCheckpoint : TableEvent → Bool
  | .beginCheckpoint | .reclaim _ | .finishCheckpoint _ => true
  | _ => false

def GuardedTable.flushed (t : GuardedTable) (rows : RowIds) (start : Nat) : GuardedTable :=
  { t with
    guard := t.guard.append t.db rows
    appending := some (start + rows.ids.length) }

def GuardedTable.committedTo (t : GuardedTable) (stop : Nat) : GuardedTable :=
  { t with
    nextRowId := stop
    live := t.live ++ t.inFlight
    committed := t.issued
    appending := none }

def GuardedTable.checkpointed (t : GuardedTable) (runtimeCompatible : Bool) : GuardedTable :=
  { t with
    db := { t.db with
      activeCheckpoint := false
      iteration := if t.db.inMemory then t.db.iteration else t.db.iteration + 1 }
    guard := t.guard.sealToDisk runtimeCompatible t.db }

def tableStep (t : GuardedTable) : TableEvent → Option GuardedTable
  | .beginAppend =>
      if t.appending = none then some { t with appending := some t.nextRowId } else none
  | .chunk rows =>
      match t.appending with
      | none => none
      | some start => if rows.contiguousFrom start then some (t.flushed rows start) else none
  | .commitAppend => t.appending.map t.committedTo
  | .failAppend => t.appending.map fun _ => { t with appending := none }
  | .delete rows => some { t with live := t.live.filter fun r => r ∉ rows }
  | .beginCheckpoint =>
      if t.db.activeCheckpoint then none
      else some { t with db := { t.db with activeCheckpoint := true } }
  | .reclaim nextRowId =>
      if t.db.activeCheckpoint ∧ t.appending = none ∧ nextRowId ≤ t.nextRowId ∧
          ∀ r ∈ t.live, r < nextRowId then
        some { t with nextRowId := nextRowId }
      else none
  | .finishCheckpoint runtimeCompatible =>
      if t.db.activeCheckpoint then some (t.checkpointed runtimeCompatible) else none

theorem tableStep_cases {t u : GuardedTable} {e : TableEvent} (step : tableStep t e = some u) :
    (e = .beginAppend ∧ t.appending = none ∧ u = { t with appending := some t.nextRowId }) ∨
    (∃ rows start, e = .chunk rows ∧ t.appending = some start ∧ rows.contiguousFrom start ∧
      u = t.flushed rows start) ∨
    (∃ stop, e = .commitAppend ∧ t.appending = some stop ∧ u = t.committedTo stop) ∨
    (e = .failAppend ∧ u = { t with appending := none }) ∨
    (∃ rows, e = .delete rows ∧ u = { t with live := t.live.filter fun r => r ∉ rows }) ∨
    (e = .beginCheckpoint ∧ u = { t with db := { t.db with activeCheckpoint := true } }) ∨
    (∃ next, e = .reclaim next ∧ t.db.activeCheckpoint ∧ t.appending = none ∧
      next ≤ t.nextRowId ∧ u = { t with nextRowId := next }) ∨
    (∃ compatible, e = .finishCheckpoint compatible ∧ t.db.activeCheckpoint ∧
      u = t.checkpointed compatible) := by
  cases e with
  | beginAppend =>
    simp only [tableStep, Option.ite_none_right_eq_some, Option.some.injEq] at step
    exact Or.inl ⟨rfl, step.1, step.2.symm⟩
  | chunk rows =>
    simp only [tableStep] at step
    cases open_append : t.appending with
    | none => simp [open_append] at step
    | some start =>
      simp only [open_append, Option.ite_none_right_eq_some, Option.some.injEq] at step
      exact Or.inr (Or.inl ⟨rows, start, rfl, rfl, step.1, step.2.symm⟩)
  | commitAppend =>
    simp only [tableStep, Option.map_eq_some_iff] at step
    obtain ⟨stop, open_append, eq⟩ := step
    exact Or.inr (Or.inr (Or.inl ⟨stop, rfl, open_append, eq.symm⟩))
  | failAppend =>
    simp only [tableStep, Option.map_eq_some_iff] at step
    obtain ⟨_, _, eq⟩ := step
    simp [eq.symm]
  | delete rows =>
    simp only [tableStep, Option.some.injEq] at step
    simp [step.symm]
  | beginCheckpoint =>
    simp only [tableStep, Option.ite_none_left_eq_some, Option.some.injEq] at step
    simp [step.2.symm]
  | reclaim next =>
    simp only [tableStep, Option.ite_none_right_eq_some, Option.some.injEq] at step
    obtain ⟨⟨active, idle, back, _⟩, eq⟩ := step
    simp [eq.symm, active, idle, back]
  | finishCheckpoint compatible =>
    simp only [tableStep, Option.ite_none_right_eq_some, Option.some.injEq] at step
    simp [step.1, step.2.symm]

structure Watched (t : GuardedTable) : Prop where
  live_seal : t.guard.checkpointIteration = none
  committed_seen : ∀ r ∈ t.committed, (r : Int) ≤ t.guard.maxSeen
  next_seen : (t.nextRowId : Int) ≤ t.guard.maxSeen + 1
  flight_seen : ∀ stop, t.appending = some stop →
    t.nextRowId ≤ stop ∧ (stop : Int) ≤ t.guard.maxSeen + 1
  past : ∀ a, t.guard.advanceIteration = some a → a ≤ t.db.iteration
  distinct : t.guard.unsafeReuse = false → t.issued.Nodup
  -- A rowid that was handed back can only be met again under suspicion.
  reclaimed : t.guard.unsafeReuse = false → (∃ r ∈ t.committed, t.nextRowId ≤ r) →
    t.guard.suspects t.db ∧ t.inFlight = []

theorem issued_idle {t : GuardedTable} (idle : t.appending = none) : t.issued = t.committed := by
  simp [GuardedTable.issued, GuardedTable.inFlight, idle]

theorem observable_readable {db : AttachedDatabase} {a : Nat}
    (readable : observableCheckpointIteration db = some a) :
    db.inMemory = false ∧ db.activeCheckpoint = false ∧ db.iteration = a := by
  simp only [observableCheckpointIteration] at readable
  split at readable
  · simp at readable
  · split at readable
    · simp at readable
    · simp_all

theorem observable_le {db : AttachedDatabase} {a : Nat}
    (readable : observableCheckpointIteration db = some a) : a ≤ db.iteration :=
  Nat.le_of_eq (observable_readable readable).2.2.symm

theorem observable_active {db : AttachedDatabase} (active : db.activeCheckpoint = true) :
    observableCheckpointIteration db = none := by
  simp [observableCheckpointIteration, active]

theorem seal_noop {g : RowIdGuard} (compatible : Bool) (db : AttachedDatabase)
    (live : g.checkpointIteration = none) : g.sealToDisk compatible db = g := by
  simp only [RowIdGuard.sealToDisk, RowIdGuard.applyCheckpointSeal, live, ite_self]

theorem created_watched (db : AttachedDatabase) {nextRowId : Nat} {rows : List Nat}
    (token : String) (distinct : rows.Nodup) (below : ∀ r ∈ rows, r < nextRowId) :
    Watched (guardCreated db nextRowId rows token) where
  live_seal := rfl
  committed_seen := by
    intro r present
    have small : r < nextRowId := below r present
    simp only [guardCreated, createRowIdGuard]
    split <;> omega
  next_seen := by
    simp only [guardCreated, createRowIdGuard]
    split <;> omega
  flight_seen := by simp [guardCreated]
  past := fun a known => observable_le known
  distinct := by
    intro _
    rw [issued_idle rfl]
    exact distinct
  reclaimed := by
    rintro _ ⟨r, present, reached⟩
    have small : r < nextRowId := below r present
    simp only [guardCreated] at reached
    omega

theorem commit_step {t : GuardedTable} {stop : Nat} (watched : Watched t)
    (open_append : t.appending = some stop) : Watched (t.committedTo stop) := by
  obtain ⟨forward, seen⟩ := watched.flight_seen stop open_append
  have flight : t.inFlight = List.range' t.nextRowId (stop - t.nextRowId) := by
    simp [GuardedTable.inFlight, open_append]
  refine ⟨watched.live_seal, ?_, seen, by simp [GuardedTable.committedTo], watched.past, ?_, ?_⟩
  · intro r present
    rcases List.mem_append.mp present with old | fresh
    · exact watched.committed_seen r old
    · simp only [flight, List.mem_range'_1] at fresh
      simp only [GuardedTable.committedTo]
      omega
  · intro trusted
    rw [issued_idle rfl]
    exact watched.distinct trusted
  · rintro trusted ⟨r, present, reached⟩
    simp only [GuardedTable.committedTo] at reached
    rcases List.mem_append.mp present with old | fresh
    · exact ⟨(watched.reclaimed trusted ⟨r, old, by omega⟩).1, rfl⟩
    · simp only [flight, List.mem_range'_1] at fresh
      omega

theorem flushed_nothing {t : GuardedTable} {rows : RowIds} {start : Nat}
    (open_append : t.appending = some start) (contiguous : rows.contiguousFrom start)
    (empty : rows.ids.length = 0) : t.flushed rows start = t := by
  simp only [GuardedTable.flushed, append_contiguous t.guard t.db rows start contiguous, empty,
    if_true, Nat.add_zero, ← open_append]

theorem flushed_guard {t : GuardedTable} {rows : RowIds} {start : Nat}
    (contiguous : rows.contiguousFrom start) (nonempty : 0 < rows.ids.length) :
    (t.flushed rows start).guard =
      t.guard.observe t.db start (start + ((rows.ids.length - 1 : Nat) : Int)) := by
  simp only [GuardedTable.flushed, append_contiguous t.guard t.db rows start contiguous,
    Nat.ne_of_gt nonempty, if_false]

/-- A first chunk below max_seen after a reclaim always latches, so an unlatched
    chunk proves that nothing was handed back. -/
theorem unlatched_chunk_fresh {t : GuardedTable} {rows : RowIds} {start : Nat}
    (watched : Watched t) (open_append : t.appending = some start)
    (contiguous : rows.contiguousFrom start) (nonempty : 0 < rows.ids.length)
    (trusted : (t.flushed rows start).guard.unsafeReuse = false) :
    t.guard.unsafeReuse = false ∧ ∀ r ∈ t.committed, r < t.nextRowId := by
  rw [flushed_guard contiguous nonempty] at trusted
  simp only [RowIdGuard.observe, advance_unsafeReuse] at trusted
  have before : t.guard.unsafeReuse = false := by
    cases latched : t.guard.unsafeReuse with
    | false => rfl
    | true => simp [latch_keeps_latched t.guard t.db start latched] at trusted
  refine ⟨before, ?_⟩
  intro r present
  by_contra handed_back
  have reached : t.nextRowId ≤ r := by omega
  obtain ⟨suspect, idle⟩ := watched.reclaimed before ⟨r, present, reached⟩
  have at_start : start = t.nextRowId := by
    have forward := (watched.flight_seen start open_append).1
    simp only [GuardedTable.inFlight, open_append, List.range'_eq_nil_iff] at idle
    omega
  rcases latch_cases t.guard t.db start with ⟨_, _, eq⟩ | ⟨kept, _⟩
  · simp [eq] at trusted
  · have seen := watched.committed_seen r present
    rcases kept with above | unsuspected
    · omega
    · exact unsuspected suspect

theorem chunk_step {t : GuardedTable} {rows : RowIds} {start : Nat} (watched : Watched t)
    (open_append : t.appending = some start) (contiguous : rows.contiguousFrom start) :
    Watched (t.flushed rows start) := by
  rcases Nat.eq_zero_or_pos rows.ids.length with empty | nonempty
  · rw [flushed_nothing open_append contiguous empty]
    exact watched
  obtain ⟨forward, seen⟩ := watched.flight_seen start open_append
  have guard_eq := flushed_guard (t := t) contiguous nonempty
  have maxSeen_eq : (t.flushed rows start).guard.maxSeen =
      max t.guard.maxSeen (start + ((rows.ids.length - 1 : Nat) : Int)) := by
    simp [guard_eq, RowIdGuard.observe]
  refine ⟨?_, ?_, ?_, ?_, ?_, ?_, ?_⟩
  · simp [guard_eq, RowIdGuard.observe, watched.live_seal]
  · intro r present
    have old := watched.committed_seen r present
    omega
  · have old := watched.next_seen
    have same : (t.flushed rows start).nextRowId = t.nextRowId := rfl
    omega
  · intro stop flushed_to
    simp only [GuardedTable.flushed, Option.some.injEq] at flushed_to
    have same : (t.flushed rows start).nextRowId = t.nextRowId := rfl
    omega
  · intro a known
    rw [guard_eq, RowIdGuard.observe, advance_advanceIteration] at known
    split at known
    · exact observable_le known
    · exact watched.past a (by simpa using known)
  · intro trusted
    obtain ⟨before, fresh⟩ := unlatched_chunk_fresh watched open_append contiguous nonempty trusted
    have old : t.committed.Nodup := (List.nodup_append.mp (watched.distinct before)).1
    refine List.nodup_append.mpr ⟨old, ?_, ?_⟩
    · simp [GuardedTable.inFlight, GuardedTable.flushed, List.nodup_range']
    · intro a present b flying
      have small := fresh a present
      simp only [GuardedTable.inFlight, GuardedTable.flushed, List.mem_range'_1] at flying
      omega
  · rintro trusted ⟨r, present, reached⟩
    obtain ⟨_, fresh⟩ := unlatched_chunk_fresh watched open_append contiguous nonempty trusted
    have small : r < t.nextRowId := fresh r present
    have same : (t.flushed rows start).nextRowId = t.nextRowId := rfl
    omega

theorem step_watched (t : GuardedTable) (e : TableEvent) (u : GuardedTable) (watched : Watched t)
    (step : tableStep t e = some u) : Watched u := by
  rcases tableStep_cases step with ⟨_, idle, rfl⟩ | ⟨rows, start, _, open_append, contiguous, rfl⟩ |
    ⟨stop, _, open_append, rfl⟩ | ⟨_, rfl⟩ | ⟨rows, _, rfl⟩ | ⟨_, rfl⟩ |
    ⟨next, _, active, idle, back, rfl⟩ | ⟨compatible, _, active, rfl⟩
  · have issued_eq := issued_idle idle
    refine ⟨watched.live_seal, watched.committed_seen, watched.next_seen, ?_, watched.past, ?_, ?_⟩
    · intro stop begun
      obtain rfl : t.nextRowId = stop := by simpa using begun
      exact ⟨Nat.le_refl _, watched.next_seen⟩
    · intro trusted
      simpa [GuardedTable.issued, GuardedTable.inFlight, idle] using watched.distinct trusted
    · intro trusted handed_back
      exact ⟨(watched.reclaimed trusted handed_back).1, by simp [GuardedTable.inFlight]⟩
  · exact chunk_step watched open_append contiguous
  · exact commit_step watched open_append
  · refine ⟨watched.live_seal, watched.committed_seen, watched.next_seen, by simp, watched.past,
      ?_, ?_⟩
    · intro trusted
      rw [issued_idle rfl]
      exact (List.nodup_append.mp (watched.distinct trusted)).1
    · intro trusted handed_back
      exact ⟨(watched.reclaimed trusted handed_back).1, rfl⟩
  · exact ⟨watched.live_seal, watched.committed_seen, watched.next_seen, watched.flight_seen,
      watched.past, watched.distinct, watched.reclaimed⟩
  · refine ⟨watched.live_seal, watched.committed_seen, watched.next_seen, watched.flight_seen,
      watched.past, watched.distinct, ?_⟩
    intro trusted handed_back
    exact ⟨Or.inr (Or.inl (observable_active rfl)), (watched.reclaimed trusted handed_back).2⟩
  · refine ⟨watched.live_seal, watched.committed_seen, ?_, by simp [idle], watched.past, ?_, ?_⟩
    · have old := watched.next_seen
      simp only
      omega
    · intro trusted
      simpa [GuardedTable.issued, GuardedTable.inFlight, idle] using watched.distinct trusted
    · intro _ _
      exact ⟨Or.inr (Or.inl (observable_active active)), by simp [GuardedTable.inFlight, idle]⟩
  · have guard_eq : (t.checkpointed compatible).guard = t.guard :=
      seal_noop compatible t.db watched.live_seal
    refine ⟨?_, ?_, ?_, ?_, ?_, ?_, ?_⟩
    · rw [guard_eq]
      exact watched.live_seal
    · rw [guard_eq]
      exact watched.committed_seen
    · rw [guard_eq]
      exact watched.next_seen
    · rw [guard_eq]
      exact watched.flight_seen
    · intro a known
      rw [guard_eq] at known
      have old := watched.past a known
      simp only [GuardedTable.checkpointed]
      split <;> omega
    · rw [guard_eq]
      exact watched.distinct
    · rw [guard_eq]
      intro trusted handed_back
      refine ⟨?_, (watched.reclaimed trusted handed_back).2⟩
      -- The header write moves the iteration past every recorded advance.
      cases memory : t.db.inMemory with
      | true =>
        refine Or.inr (Or.inl ?_)
        simp [observableCheckpointIteration, GuardedTable.checkpointed, memory]
      | false =>
        cases advanced : t.guard.advanceIteration with
        | none => exact Or.inl advanced
        | some a =>
          have old := watched.past a advanced
          refine Or.inr (Or.inr ?_)
          simp only [observableCheckpointIteration, GuardedTable.checkpointed, memory, advanced,
            Bool.false_eq_true, if_false, ne_eq, Option.some.injEq]
          omega

theorem run_watched {t u : GuardedTable} {events : List TableEvent} (watched : Watched t)
    (run : exec tableStep t events = some u) : Watched u :=
  exec_invariant step_watched run watched

theorem flushed_keeps_latched {t : GuardedTable} {rows : RowIds} {start : Nat}
    (open_append : t.appending = some start) (contiguous : rows.contiguousFrom start)
    (latched : t.guard.unsafeReuse = true) : (t.flushed rows start).guard.unsafeReuse = true := by
  rcases Nat.eq_zero_or_pos rows.ids.length with empty | nonempty
  · rw [flushed_nothing open_append contiguous empty]
    exact latched
  · rw [flushed_guard contiguous nonempty, RowIdGuard.observe, advance_unsafeReuse]
    exact latch_keeps_latched t.guard t.db start latched

theorem seal_keeps_latched {g : RowIdGuard} (compatible : Bool) (db : AttachedDatabase)
    (latched : g.unsafeReuse = true) : (g.sealToDisk compatible db).unsafeReuse = true := by
  simp only [RowIdGuard.sealToDisk, RowIdGuard.applyCheckpointSeal]
  split
  · split <;> simp [latched]
  · exact latched

theorem step_keeps_latched (t : GuardedTable) (e : TableEvent) (u : GuardedTable)
    (step : tableStep t e = some u) :
    t.guard.unsafeReuse = true → u.guard.unsafeReuse = true := by
  intro latched
  rcases tableStep_cases step with ⟨_, _, rfl⟩ | ⟨rows, start, _, open_append, contiguous, rfl⟩ |
    ⟨stop, _, _, rfl⟩ | ⟨_, rfl⟩ | ⟨rows, _, rfl⟩ | ⟨_, rfl⟩ | ⟨next, _, _, _, _, rfl⟩ |
    ⟨compatible, _, _, rfl⟩
  · exact latched
  · exact flushed_keeps_latched open_append contiguous latched
  · exact latched
  · exact latched
  · exact latched
  · exact latched
  · exact latched
  · exact seal_keeps_latched compatible t.db latched

theorem run_keeps_latched {t u : GuardedTable} {events : List TableEvent}
    (run : exec tableStep t events = some u) :
    t.guard.unsafeReuse = true → u.guard.unsafeReuse = true :=
  @exec_related _ _ tableStep
    (fun a b => a.guard.unsafeReuse = true → b.guard.unsafeReuse = true)
    (fun _ latched => latched) (fun _ _ _ first next latched => next (first latched))
    step_keeps_latched t u events run

/-- The iteration is readable and is the one of the last advance of max_seen. -/
def GuardedTable.advancedHere (t : GuardedTable) : Prop :=
  ∃ a, observableCheckpointIteration t.db = some a ∧ t.guard.advanceIteration = some a

theorem advancedHere_unsuspected {t : GuardedTable} (here : t.advancedHere) :
    ¬ t.guard.suspects t.db := by
  obtain ⟨a, readable, advanced⟩ := here
  simp [RowIdGuard.suspects, readable, advanced]

theorem flushed_retry {t : GuardedTable} {rows : RowIds} {start : Nat}
    (open_append : t.appending = some start) (contiguous : rows.contiguousFrom start)
    (here : t.advancedHere) : (t.flushed rows start).advancedHere ∧
      (t.flushed rows start).guard.unsafeReuse = t.guard.unsafeReuse := by
  rcases Nat.eq_zero_or_pos rows.ids.length with empty | nonempty
  · rw [flushed_nothing open_append contiguous empty]
    exact ⟨here, rfl⟩
  have unlatched : t.guard.latch t.db start = t.guard := by
    rcases latch_cases t.guard t.db start with ⟨_, suspect, _⟩ | ⟨_, eq⟩
    · exact absurd suspect (advancedHere_unsuspected here)
    · exact eq
  have guard_eq := flushed_guard (t := t) contiguous nonempty
  rw [RowIdGuard.observe, unlatched] at guard_eq
  obtain ⟨a, readable, advanced⟩ := here
  refine ⟨⟨a, readable, ?_⟩, by rw [guard_eq, advance_unsafeReuse]⟩
  rw [guard_eq, advance_advanceIteration]
  split
  · exact readable
  · exact advanced

theorem retry_step (t : GuardedTable) (e : TableEvent) (u : GuardedTable)
    (here : t.advancedHere) (between : e.isCheckpoint = false) (step : tableStep t e = some u) :
    u.advancedHere ∧ u.guard.unsafeReuse = t.guard.unsafeReuse := by
  rcases tableStep_cases step with ⟨_, _, rfl⟩ | ⟨rows, start, _, open_append, contiguous, rfl⟩ |
    ⟨stop, _, _, rfl⟩ | ⟨_, rfl⟩ | ⟨rows, _, rfl⟩ | ⟨rfl, _⟩ | ⟨next, rfl, _⟩ | ⟨compatible, rfl, _⟩
  · exact ⟨here, rfl⟩
  · exact flushed_retry open_append contiguous here
  · exact ⟨here, rfl⟩
  · exact ⟨here, rfl⟩
  · exact ⟨here, rfl⟩
  · simp [TableEvent.isCheckpoint] at between
  · simp [TableEvent.isCheckpoint] at between
  · simp [TableEvent.isCheckpoint] at between

theorem retry_run {t u : GuardedTable} {events : List TableEvent} (here : t.advancedHere)
    (between : ∀ e ∈ events, e.isCheckpoint = false) (run : exec tableStep t events = some u) :
    u.guard.unsafeReuse = t.guard.unsafeReuse := by
  induction events generalizing t with
  | nil =>
    obtain rfl : t = u := by simpa using run
    rfl
  | cons e rest ih =>
    obtain ⟨s, first, tail⟩ := exec_cons_iff.mp run
    obtain ⟨still, same⟩ := retry_step t e s here (between e (by simp)) first
    rw [← same]
    exact ih still (fun later present => between later (by simp [present])) tail

/-- A chunk that raises max_seen while the iteration is readable records it. -/
theorem raised_advancedHere {t u : GuardedTable} {rows : RowIds}
    (step : tableStep t (.chunk rows) = some u) (raised : t.guard.maxSeen < u.guard.maxSeen)
    {a : Nat} (readable : observableCheckpointIteration u.db = some a) : u.advancedHere := by
  rcases tableStep_cases step with ⟨h, _⟩ | ⟨given, start, _, open_append, contiguous, rfl⟩ |
    ⟨_, h, _⟩ | ⟨h, _⟩ | ⟨_, h, _⟩ | ⟨h, _⟩ | ⟨_, h, _⟩ | ⟨_, h, _⟩ <;> try simp at h
  rcases Nat.eq_zero_or_pos given.ids.length with empty | nonempty
  · rw [flushed_nothing open_append contiguous empty] at raised
    omega
  refine ⟨a, readable, ?_⟩
  rw [flushed_guard contiguous nonempty] at raised ⊢
  simp only [RowIdGuard.observe, advance_maxSeen, latch_maxSeen] at raised
  rw [RowIdGuard.observe, advance_advanceIteration, latch_maxSeen, if_pos (by omega)]
  exact readable

theorem guard_latches_every_reuse (db : AttachedDatabase) (token : String) {nextRowId : Nat}
    {rows : List Nat} {events : List TableEvent} {t : GuardedTable} (distinct : rows.Nodup)
    (below : ∀ r ∈ rows, r < nextRowId)
    (run : exec tableStep (guardCreated db nextRowId rows token) events = some t) :
    (t.guard.unsafeReuse = false → t.issued.Nodup) ∧
    (∀ r ∈ t.committed, (r : Int) ≤ t.guard.maxSeen) ∧
    (∀ later u, exec tableStep t later = some u →
      t.guard.unsafeReuse = true → u.guard.unsafeReuse = true) ∧
    -- A retry with no checkpoint since max_seen advanced, at creation or by a chunk.
    (∀ a, observableCheckpointIteration db = some a →
      (∀ e ∈ events, e.isCheckpoint = false) → t.guard.unsafeReuse = false) ∧
    (∀ chunk u later v a, tableStep t (.chunk chunk) = some u →
      t.guard.maxSeen < u.guard.maxSeen → observableCheckpointIteration u.db = some a →
      (∀ e ∈ later, e.isCheckpoint = false) → exec tableStep u later = some v →
      v.guard.unsafeReuse = u.guard.unsafeReuse) := by
  have watched := run_watched (created_watched db token distinct below) run
  refine ⟨watched.distinct, watched.committed_seen, ?_, ?_, ?_⟩
  · intro later u more
    exact run_keeps_latched more
  · intro a readable between
    exact retry_run ⟨a, readable, readable⟩ between run
  · intro chunk u later v a step raised readable between more
    exact retry_run (raised_advancedHere step raised readable) between more

def rejectedCommit : List TableEvent :=
  [.beginAppend, .chunk (.sequence 3 1 2), .chunk (.flat [5, 6, 7, 8]), .failAppend,
    .beginAppend, .chunk (.sequence 3 1 6), .commitAppend]

def rejectedCommitEnd : GuardedTable where
  db := ⟨false, false, 7⟩
  guard := ⟨"guard", 8, false, true, none, some 7⟩
  nextRowId := 9
  live := [0, 2, 3, 4, 5, 6, 7, 8]
  committed := [0, 2, 3, 4, 5, 6, 7, 8]
  appending := none

theorem rejected_commit_retried :
    exec tableStep (guardCreated ⟨false, false, 7⟩ 3 [0, 2] "guard") rejectedCommit =
      some rejectedCommitEnd ∧
    (rejectedCommitEnd.guard.unsafeReuse = false → rejectedCommitEnd.issued.Nodup) :=
  ⟨by decide, (@guard_latches_every_reuse ⟨false, false, 7⟩ "guard" 3 [0, 2] rejectedCommit
    rejectedCommitEnd (by decide) (by decide) (by decide)).1⟩

/-- After a vacuum handed the deleted tail back, the same append latches. -/
example : (exec tableStep (guardCreated ⟨false, false, 7⟩ 5 [0, 4] "guard")
    [.delete [4], .beginCheckpoint, .reclaim 1, .finishCheckpoint true, .beginAppend,
      .chunk (.sequence 1 1 4), .commitAppend]).map (fun t => t.guard.unsafeReuse) = some true := by
  decide

end NgramRowIdGuard
