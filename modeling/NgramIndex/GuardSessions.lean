import NgramIndex.GuardState

/- A file database over its sessions, as far as one guard sees it. A session may
   lack the extension or run on another host; what outlives it is the header,
   the guard's information in the last checkpoint and the log written since. -/
namespace NgramGuardSessions
open LabelledRun NgramRowIdGuard

inductive WalRecord where
  | createIndex (storage : IndexStorageInfo)
  | append (rows : RowIds)
  deriving DecidableEq, Repr

structure GuardFile where
  iteration : Nat
  checkpointed : Option IndexStorageInfo
  wal : List WalRecord
  deriving DecidableEq, Repr

/-- The extension of the session is none where it is not loaded, else whether
    the host is the pinned one. -/
structure GuardDatabase where
  file : GuardFile
  extension : Option Bool
  guard : Option Binding
  deriving DecidableEq, Repr

def GuardFile.attached (file : GuardFile) (activeCheckpoint : Bool) : AttachedDatabase :=
  ⟨false, activeCheckpoint, file.iteration⟩

/-- Replay installs every index unbound and buffers the later appends. -/
def replayRecord (guard : Option (IndexStorageInfo × List RowIds)) :
    WalRecord → Option (IndexStorageInfo × List RowIds)
  | .createIndex storage => some (storage, [])
  | .append rows => guard.map fun (storage, replays) => (storage, replays ++ [rows])

/-- The guard that the next session finds in the file. -/
def GuardFile.recovered (file : GuardFile) : Option (IndexStorageInfo × List RowIds) :=
  file.wal.foldl replayRecord (file.checkpointed.map fun storage => (storage, []))

def bufferAppend (db : AttachedDatabase) (rows : RowIds) : Binding → Binding
  | .bound guard => .bound (guard.append db rows)
  | .unbound storage replays => .unbound storage (replays ++ [rows])

/-- An append that is rolled back was seen by a bound guard and by nothing else. -/
def observeRejected (db : AttachedDatabase) (rows : RowIds) : Binding → Binding
  | .bound guard => .bound (guard.append db rows)
  | .unbound storage replays => .unbound storage replays

/-- What can happen to the file and its guard. A create commits the new guard to
    the log with the chunks it observed before; a rejected append was observed
    and rolled back; a copied checkpoint finds the guard unbound, and the replays
    buffered against it stay in memory or are lost. -/
inductive SessionEvent where
  | reopen (extension : Option Bool)
  | hostMismatch
  | create (token : String) (nextRowId : Nat) (observed : List RowIds)
  | bind (activeCheckpoint : Bool)
  | append (rows : RowIds) (activeCheckpoint rejected : Bool)
  | read
  | checkpoint
  | copyCheckpoint (lost : Bool)
  deriving DecidableEq, Repr

def bindGuard (compatible : Bool) (db : AttachedDatabase) (storage : IndexStorageInfo)
    (replays : List RowIds) : RowIdGuard :=
  replays.foldl (fun g rows => g.append db rows) (guardCreateInstance compatible storage)

def GuardFile.logged (file : GuardFile) (record : WalRecord) : GuardFile :=
  { file with wal := file.wal ++ [record] }

/-- The header write of a checkpoint raises the iteration exactly once. -/
def GuardFile.written (file : GuardFile) (storage : Option IndexStorageInfo) : GuardFile :=
  ⟨file.iteration + 1, storage, []⟩

def GuardDatabase.created (d : GuardDatabase) (token : String) (nextRowId : Nat)
    (observed : List RowIds) : GuardDatabase :=
  let db := d.file.attached false
  let fresh := observed.foldl (fun g rows => g.append db rows) (createRowIdGuard db nextRowId token)
  let (live, storage) := fresh.serializeToWAL true db
  { d with file := d.file.logged (.createIndex storage), guard := some (.bound live) }

def GuardDatabase.serialized (d : GuardDatabase) (compatible : Bool) (g : RowIdGuard) :
    GuardDatabase :=
  let (live, storage) := g.serializeToDisk compatible (d.file.attached true)
  { d with file := d.file.written (some storage), guard := some (.bound live) }

def sessionStep (d : GuardDatabase) : SessionEvent → Option GuardDatabase
  | .reopen extension =>
      some ⟨d.file, extension, d.file.recovered.map fun (storage, replays) => .unbound storage replays⟩
  | .hostMismatch => d.extension.map fun _ => { d with extension := some false }
  | .create token nextRowId observed =>
      if d.guard = none ∧ d.extension = some true ∧ token ≠ "" then
        some (d.created token nextRowId observed)
      else none
  | .bind activeCheckpoint =>
      match d.extension, d.guard with
      | some compatible, some (.unbound storage replays) =>
          some { d with guard := some (.bound
            (bindGuard compatible (d.file.attached activeCheckpoint) storage replays)) }
      | _, _ => none
  | .append rows activeCheckpoint rejected =>
      match d.guard with
      | none => some d
      | some binding =>
          if rejected then
            some { d with
              guard := some (observeRejected (d.file.attached activeCheckpoint) rows binding) }
          else
            some { d with
              file := d.file.logged (.append rows)
              guard := some (bufferAppend (d.file.attached activeCheckpoint) rows binding) }
  | .read =>
      match d.extension, d.guard with
      | some true, some binding =>
          some { d with guard := some (binding.read true [] (some d.file.iteration)).1 }
      | _, _ => none
  | .checkpoint =>
      match d.guard with
      | none => some { d with file := d.file.written none }
      | some (.bound g) => d.extension.map fun compatible => d.serialized compatible g
      | some (.unbound _ _) => none
  | .copyCheckpoint lost =>
      match d.guard with
      | some (.unbound storage replays) =>
          some { d with
            file := d.file.written (some storage)
            guard := some (.unbound storage (if lost then [] else replays)) }
      | _ => none

/-- A file that holds no guard yet, before its first session with the extension. -/
def emptyFile (iteration : Nat) : GuardDatabase := ⟨⟨iteration, none, []⟩, none, none⟩

theorem recovered_logged (file : GuardFile) (record : WalRecord) :
    (file.logged record).recovered = replayRecord file.recovered record := by
  simp [GuardFile.recovered, GuardFile.logged, List.foldl_append]

@[simp] theorem logged_iteration (file : GuardFile) (record : WalRecord) :
    (file.logged record).iteration = file.iteration := rfl

@[simp] theorem recovered_written (file : GuardFile) (storage : Option IndexStorageInfo) :
    (file.written storage).recovered = storage.map fun storage => (storage, []) := rfl

@[simp] theorem written_iteration (file : GuardFile) (storage : Option IndexStorageInfo) :
    (file.written storage).iteration = file.iteration + 1 := rfl

@[simp] theorem attached_checkpointIteration (file : GuardFile) (active : Bool) :
    (file.attached active).checkpointIteration = file.iteration := rfl

/-- A predicate of an installed guard in a session at one header iteration, read
    of the session's guard and of the one that the next session finds. -/
structure Holds (P : Option Bool → Nat → Binding → Prop) (d : GuardDatabase) : Prop where
  live : ∀ b, d.guard = some b → P d.extension d.file.iteration b
  durable : ∀ storage replays, d.file.recovered = some (storage, replays) →
    P d.extension d.file.iteration (.unbound storage replays)

structure Kept (P : Option Bool → Nat → Binding → Prop) (d : GuardDatabase) (e : SessionEvent) : Prop where
  reopen : ∀ extension storage replays, e = .reopen extension →
    P d.extension d.file.iteration (.unbound storage replays) →
    P extension d.file.iteration (.unbound storage replays)
  hostMismatch : ∀ b, e = .hostMismatch → P d.extension d.file.iteration b →
    P (some false) d.file.iteration b
  create : ∀ token nextRowId observed, e = .create token nextRowId observed → d.guard = none →
    d.extension = some true → token ≠ "" → Holds P (d.created token nextRowId observed)
  bind : ∀ active compatible storage replays, e = .bind active → d.extension = some compatible →
    d.guard = some (.unbound storage replays) →
    P d.extension d.file.iteration (.unbound storage replays) →
    P d.extension d.file.iteration
      (.bound (bindGuard compatible (d.file.attached active) storage replays))
  observe : ∀ rows active rejected g, e = .append rows active rejected → d.guard = some (.bound g) →
    P d.extension d.file.iteration (.bound g) →
    P d.extension d.file.iteration (.bound (g.append (d.file.attached active) rows))
  buffer : ∀ storage replays later, P d.extension d.file.iteration (.unbound storage replays) →
    P d.extension d.file.iteration (.unbound storage later)
  read : ∀ g, d.extension = some true → d.guard = some (.bound g) → P d.extension d.file.iteration (.bound g) →
    P d.extension d.file.iteration (.bound (g.applyCheckpointSeal d.file.iteration))
  serialize : ∀ g compatible, e = .checkpoint → d.extension = some compatible →
    d.guard = some (.bound g) → P d.extension d.file.iteration (.bound g) →
    Holds P (d.serialized compatible g)
  copy : ∀ lost storage replays later, e = .copyCheckpoint lost →
    P d.extension d.file.iteration (.unbound storage replays) →
    P d.extension (d.file.iteration + 1) (.unbound storage later)

theorem recovered_append {P : Option Bool → Nat → Binding → Prop} {d : GuardDatabase}
    {e : SessionEvent} (rows : RowIds) (holds : Holds P d) (kept : Kept P d e) (storage : IndexStorageInfo)
    (replays : List RowIds) (found : (d.file.logged (.append rows)).recovered = some (storage, replays)) :
    P d.extension d.file.iteration (.unbound storage replays) := by
  rw [recovered_logged, replayRecord, Option.map_eq_some_iff] at found
  obtain ⟨⟨older, before⟩, recovered, eq⟩ := found
  obtain ⟨rfl, rfl⟩ : older = storage ∧ before ++ [rows] = replays := by simpa using eq
  exact kept.buffer _ _ _ (holds.durable _ _ recovered)

theorem step_holds {P : Option Bool → Nat → Binding → Prop} {d t : GuardDatabase} {e : SessionEvent}
    (step : sessionStep d e = some t) (holds : Holds P d) (kept : Kept P d e) : Holds P t := by
  cases e with
  | reopen extension =>
    obtain rfl := Option.some.inj step
    refine ⟨?_, fun storage replays found => kept.reopen _ _ _ rfl (holds.durable _ _ found)⟩
    intro b installed
    obtain ⟨⟨storage, replays⟩, found, rfl⟩ := Option.map_eq_some_iff.mp installed
    exact kept.reopen _ _ _ rfl (holds.durable _ _ found)
  | hostMismatch =>
    obtain ⟨_, _, rfl⟩ := Option.map_eq_some_iff.mp step
    exact ⟨fun b installed => kept.hostMismatch _ rfl (holds.live b installed),
      fun _ _ found => kept.hostMismatch _ rfl (holds.durable _ _ found)⟩
  | create token nextRowId observed =>
    simp only [sessionStep, Option.ite_none_right_eq_some, Option.some.injEq] at step
    obtain ⟨⟨absent, pinned, named⟩, rfl⟩ := step
    exact kept.create _ _ _ rfl absent pinned named
  | bind active =>
    simp only [sessionStep] at step
    split at step
    next compatible storage replays loaded installed =>
      obtain rfl := Option.some.inj step
      refine ⟨?_, holds.durable⟩
      rintro b ⟨⟩
      exact kept.bind _ _ _ _ rfl loaded installed (holds.live _ installed)
    next => cases step
  | append rows active rejected =>
    simp only [sessionStep] at step
    split at step
    next =>
      obtain rfl := Option.some.inj step
      exact holds
    next binding installed =>
      have before := holds.live _ installed
      split at step
      · obtain rfl := Option.some.inj step
        refine ⟨?_, holds.durable⟩
        rintro b ⟨⟩
        cases binding with
        | bound g => exact kept.observe _ _ _ _ rfl installed before
        | unbound storage replays => exact before
      · obtain rfl := Option.some.inj step
        refine ⟨?_, recovered_append rows holds kept⟩
        rintro b ⟨⟩
        cases binding with
        | bound g => exact kept.observe _ _ _ _ rfl installed before
        | unbound storage replays => exact kept.buffer _ _ _ before
  | read =>
    simp only [sessionStep] at step
    split at step
    next binding pinned installed =>
      obtain rfl := Option.some.inj step
      have before := holds.live _ installed
      refine ⟨?_, holds.durable⟩
      rintro b ⟨⟩
      cases binding with
      | bound g => exact kept.read g pinned installed before
      | unbound storage replays => exact before
    next => cases step
  | checkpoint =>
    simp only [sessionStep] at step
    split at step
    next absent =>
      obtain rfl := Option.some.inj step
      exact ⟨by simp [absent], by simp⟩
    next g installed =>
      obtain ⟨compatible, loaded, rfl⟩ := Option.map_eq_some_iff.mp step
      exact kept.serialize g compatible rfl loaded installed (holds.live _ installed)
    next => cases step
  | copyCheckpoint lost =>
    simp only [sessionStep] at step
    split at step
    next storage replays installed =>
      obtain rfl := Option.some.inj step
      have copied := fun later => kept.copy lost _ _ later rfl (holds.live _ installed)
      refine ⟨?_, ?_⟩
      · rintro b ⟨⟩
        exact copied _
      · rintro written later ⟨⟩
        exact copied _
    next => cases step

/-- A guard whose seal, stored or pending, is not ahead of the header. -/
def behind (iteration : Nat) : Binding → Prop
  | .bound g => ∀ mark, g.checkpointIteration = some mark → mark ≤ iteration
  | .unbound storage _ => ∀ mark, storage.checkpoint = some mark → mark ≤ iteration

def distrusted (iteration : Nat) : Binding → Prop
  | .bound g => g.unsafeReuse = true ∨ ∃ mark, g.checkpointIteration = some mark ∧ mark < iteration
  | .unbound storage _ => ∀ compatible,
      (readStoredGuardState compatible storage).unsafeReuse = true ∨
        ∃ mark, (readStoredGuardState compatible storage).checkpointIteration = some mark ∧
          mark < iteration

theorem bindGuard_pending (compatible : Bool) (db : AttachedDatabase) (storage : IndexStorageInfo)
    (replays : List RowIds) : (bindGuard compatible db storage replays).checkpointIteration =
      (readStoredGuardState compatible storage).checkpointIteration :=
  (appends_keep db replays (guardCreateInstance compatible storage)).2.2

theorem stored_mark {compatible : Bool} {storage : IndexStorageInfo} {mark : Nat}
    (sealed : (readStoredGuardState compatible storage).checkpointIteration = some mark) :
    storage.checkpoint = some mark := by
  rcases readStored_cases compatible storage with ⟨_, unsealed⟩ |
    ⟨_, _, _, stored, _, written, _, _, _, eq⟩
  · simp [unsealed] at sealed
  · rw [eq] at sealed
    rw [written, Option.some.inj sealed]

/-- A new guard trusts the chunks it observed; its log record is sealed by the
    current iteration and no seal is pending. -/
theorem holds_created {P : Option Bool → Nat → Binding → Prop} {d : GuardDatabase} {token : String}
    {nextRowId : Nat} {observed : List RowIds}
    (each : ∀ g : RowIdGuard, g.token = token → g.protectionCompatible = true →
      g.unsafeReuse = false → g.checkpointIteration = none →
      P d.extension d.file.iteration (.bound g) ∧
      P d.extension d.file.iteration
        (.unbound { g.serialize g.maxSeen false d.file.iteration true with buffers := 1 } [])) :
    Holds P (d.created token nextRowId observed) := by
  let db := d.file.attached false
  let fresh := observed.foldl (fun g rows => g.append db rows) (createRowIdGuard db nextRowId token)
  obtain ⟨named, protection, unsealed⟩ := appends_keep db observed (createRowIdGuard db nextRowId token)
  have safe : fresh.unsafeReuse = false :=
    @appends_here db d.file.iteration rfl observed (createRowIdGuard db nextRowId token) rfl
  have written := serializeToWAL_fresh db protection unsealed
  have shape : d.created token nextRowId observed =
      { d with
        file := d.file.logged (.createIndex (fresh.serializeToWAL true db).2)
        guard := some (.bound (fresh.serializeToWAL true db).1) } := rfl
  obtain ⟨live, durable⟩ := each fresh named protection safe unsealed
  rw [shape, written]
  refine ⟨?_, ?_⟩
  · rintro b ⟨⟩
    exact live
  · intro storage replays found
    rw [recovered_logged] at found
    obtain ⟨rfl, rfl⟩ := Prod.mk.inj (Option.some.inj found)
    rw [safe]
    exact durable

/-- A trusted guard spends its seal and is written under the next one; any other
    is written unsafe and left as it is. -/
theorem holds_serialized {P : Option Bool → Nat → Binding → Prop} {d : GuardDatabase}
    {compatible : Bool} {g : RowIdGuard}
    (trusted : g.protectionCompatible = true → compatible = true →
      let live := g.applyCheckpointSeal d.file.iteration
      P d.extension (d.file.iteration + 1) (.bound live) ∧
      P d.extension (d.file.iteration + 1)
        (.unbound (live.serialize live.maxSeen live.unsafeReuse (d.file.iteration + 1) true) []))
    (refused : (g.protectionCompatible && compatible) = false →
      P d.extension (d.file.iteration + 1) (.bound g) ∧
      P d.extension (d.file.iteration + 1) (.unbound (g.serialize g.maxSeen true 0 false) [])) :
    Holds P (d.serialized compatible g) := by
  have both : P d.extension (d.file.iteration + 1)
        (.bound (g.serializeToDisk compatible (d.file.attached true)).1) ∧
      P d.extension (d.file.iteration + 1)
        (.unbound (g.serializeToDisk compatible (d.file.attached true)).2 []) := by
    rcases serializeToDisk_cases g compatible (d.file.attached true) with ⟨protection, pinned, eq⟩ |
      ⟨untrusted, eq⟩
    · rw [eq]
      exact trusted protection pinned
    · rw [eq]
      exact refused untrusted
  refine ⟨?_, ?_⟩
  · rintro b ⟨⟩
    exact both.1
  · rintro storage replays ⟨⟩
    exact both.2

theorem behind_kept (d : GuardDatabase) (e : SessionEvent) : Kept (fun _ => behind) d e where
  reopen _ _ _ _ low := low
  hostMismatch _ _ low := low
  create token nextRowId observed _ _ _ _ := by
    refine holds_created fun g _ _ _ unsealed => ⟨?_, ?_⟩
    · intro mark pending
      simp [unsealed] at pending
    · rintro mark ⟨⟩
      exact Nat.le_refl _
  bind active compatible storage replays _ _ _ low := by
    intro mark pending
    rw [bindGuard_pending] at pending
    exact low mark (stored_mark pending)
  observe rows active rejected g _ _ low := by
    intro mark pending
    exact low mark ((append_keeps g _ rows).2.2 ▸ pending)
  buffer _ _ _ low := by exact low
  read g _ _ low := by
    intro mark pending
    simp [applySeal_spent] at pending
  serialize g compatible _ _ _ low := by
    refine holds_serialized (fun _ _ => ⟨?_, ?_⟩) fun _ => ⟨?_, ?_⟩
    · intro mark pending
      simp [applySeal_spent] at pending
    · rintro mark ⟨⟩
      exact Nat.le_refl _
    · intro mark pending
      exact Nat.le_succ_of_le (low mark pending)
    · rintro mark ⟨⟩
      exact Nat.zero_le _
  copy _ _ _ _ _ low := by
    intro mark stored
    exact Nat.le_succ_of_le (low mark stored)

theorem step_installed {d t : GuardDatabase} {e : SessionEvent} (step : sessionStep d e = some t)
    (installed : d.guard ≠ none) (found : d.file.recovered ≠ none) :
    t.guard ≠ none ∧ t.file.recovered ≠ none := by
  cases e with
  | reopen extension =>
    obtain rfl := Option.some.inj step
    exact ⟨by simpa using found, found⟩
  | hostMismatch =>
    obtain ⟨_, _, rfl⟩ := Option.map_eq_some_iff.mp step
    exact ⟨installed, found⟩
  | create token nextRowId observed => simp [sessionStep, installed] at step
  | bind active =>
    simp only [sessionStep] at step
    split at step
    · obtain rfl := Option.some.inj step
      exact ⟨by simp, found⟩
    · cases step
  | append rows active rejected =>
    simp only [sessionStep] at step
    split at step
    · contradiction
    split at step
    · obtain rfl := Option.some.inj step
      exact ⟨by simp, found⟩
    · obtain rfl := Option.some.inj step
      refine ⟨by simp, ?_⟩
      rw [recovered_logged]
      simpa [replayRecord] using found
  | read =>
    simp only [sessionStep] at step
    split at step
    · obtain rfl := Option.some.inj step
      exact ⟨by simp, found⟩
    · cases step
  | checkpoint =>
    simp only [sessionStep] at step
    split at step
    · contradiction
    · obtain ⟨_, _, rfl⟩ := Option.map_eq_some_iff.mp step
      exact ⟨by simp [GuardDatabase.serialized], by simp [GuardDatabase.serialized]⟩
    · cases step
  | copyCheckpoint lost =>
    simp only [sessionStep] at step
    split at step
    · obtain rfl := Option.some.inj step
      exact ⟨by simp, by simp⟩
    · cases step

theorem unsafe_distrusted {iteration : Nat} {storage : IndexStorageInfo} {replays : List RowIds}
    (marked : storage.unsafeReuse = some true) : distrusted iteration (.unbound storage replays) :=
  fun compatible => Or.inl (unsafe_readStored compatible marked)

theorem seal_distrusted {g : RowIdGuard} {iteration : Nat} (suspect : distrusted iteration (.bound g)) :
    (g.applyCheckpointSeal iteration).unsafeReuse = true := by
  rw [applySeal_latch]
  rcases suspect with latched | ⟨mark, pending, low⟩
  · simp [latched]
  · have moved : mark ≠ iteration := Nat.ne_of_lt low
    simp [pending, moved]

theorem distrusted_kept {d : GuardDatabase} (e : SessionEvent) (installed : d.guard ≠ none) :
    Kept (fun _ => distrusted) d e where
  reopen _ _ _ _ suspect := suspect
  hostMismatch _ _ suspect := suspect
  create _ _ _ _ absent := absurd absent installed
  bind active compatible storage replays _ _ _ suspect := by
    rcases suspect compatible with unsafe_stored | ⟨mark, sealed, low⟩
    · exact Or.inl (appends_keep_latched _ replays unsafe_stored)
    · exact Or.inr ⟨mark, (bindGuard_pending _ _ _ _).trans sealed, low⟩
  observe rows active rejected g _ _ suspect := by
    rcases suspect with latched | ⟨mark, pending, low⟩
    · exact Or.inl (append_keeps_latched _ rows latched)
    · exact Or.inr ⟨mark, (append_keeps g _ rows).2.2.trans pending, low⟩
  buffer _ _ _ suspect := by exact suspect
  read g _ _ suspect := Or.inl (seal_distrusted suspect)
  serialize g compatible _ _ _ suspect := by
    have latched := seal_distrusted suspect
    refine holds_serialized (fun _ _ => ⟨Or.inl latched, ?_⟩) fun _ => ⟨?_, unsafe_distrusted rfl⟩
    · exact unsafe_distrusted (by simp [RowIdGuard.serialize, latched])
    · rcases suspect with latched | ⟨mark, pending, low⟩
      · exact Or.inl latched
      · exact Or.inr ⟨mark, pending, Nat.lt_succ_of_lt low⟩
  copy _ _ _ _ _ suspect := by
    intro compatible
    rcases suspect compatible with unsafe_stored | ⟨mark, sealed, low⟩
    · exact Or.inl unsafe_stored
    · exact Or.inr ⟨mark, sealed, Nat.lt_succ_of_lt low⟩

/-- A copied checkpoint leaves the seal behind the header it raises. -/
theorem behind_copied {iteration : Nat} {storage : IndexStorageInfo} {replays later : List RowIds}
    (low : behind iteration (.unbound storage replays)) :
    distrusted (iteration + 1) (.unbound storage later) := by
  intro compatible
  rcases readStored_cases compatible storage with ⟨unsafe_stored, _⟩ |
    ⟨_, _, _, mark, _, written, _, _, _, eq⟩
  · exact Or.inl unsafe_stored
  · exact Or.inr ⟨mark, by rw [eq], Nat.lt_succ_of_le (low mark written)⟩

/-- The latch of an installed guard, as the pinned host knows it before any
    comparison with the header. -/
def latched : Binding → Bool
  | .bound g => g.unsafeReuse
  | .unbound storage _ => (readStoredGuardState true storage).unsafeReuse

def pendingReplays : Binding → Bool
  | .bound _ => false
  | .unbound _ replays => !replays.isEmpty

/-- Whatever seal the pinned host may still compare is that of the header. -/
def matched (extension : Option Bool) (iteration : Nat) : Binding → Prop
  | .bound g => extension = some true →
      (∀ mark, g.checkpointIteration = some mark → mark = iteration) ∧
      (g.protectionCompatible = false → g.unsafeReuse = true ∧ g.checkpointIteration = none)
  | .unbound storage _ => ∀ mark,
      (readStoredGuardState true storage).checkpointIteration = some mark → mark = iteration

def SessionEvent.otherHost : SessionEvent → Bool
  | .reopen (some false) | .hostMismatch => true
  | _ => false

def SessionEvent.copied : SessionEvent → Bool
  | .copyCheckpoint _ => true
  | _ => false

/-- The event shows a bound guard a rowid at or below its maximum. -/
def GuardDatabase.reuses (d : GuardDatabase) : SessionEvent → Prop
  | .append rows _ _ => ∃ g, d.guard = some (.bound g) ∧ ∃ r ∈ rows.ids, r ≤ g.maxSeen
  | .bind activeCheckpoint => ∃ compatible storage replays before rows after,
      d.extension = some compatible ∧ d.guard = some (.unbound storage replays) ∧
      replays = before ++ rows :: after ∧ ∃ r ∈ rows.ids,
        r ≤ (bindGuard compatible (d.file.attached activeCheckpoint) storage before).maxSeen
  | _ => False

theorem quarantine_unsealed (compatible : Bool) (storage : IndexStorageInfo) :
    (readStoredGuardState compatible storage).protectionCompatible = false →
      (readStoredGuardState compatible storage).unsafeReuse = true ∧
      (readStoredGuardState compatible storage).checkpointIteration = none := by
  intro untrusted
  rcases readStored_cases compatible storage with both | ⟨_, _, _, _, _, _, _, _, _, eq⟩
  · exact both
  · simp [eq] at untrusted

theorem matched_kept {d : GuardDatabase} {e : SessionEvent} (sealed : e.copied = false) :
    Kept matched d e where
  reopen _ _ _ _ same := same
  hostMismatch b _ same := by
    cases b with
    | bound g => simp [matched]
    | unbound storage replays => exact same
  create token nextRowId observed _ _ _ _ := by
    refine holds_created fun g _ protection _ unsealed => ⟨fun _ => ⟨?_, ?_⟩, ?_⟩
    · simp [unsealed]
    · simp [protection]
    · intro mark stored
      exact (Option.some.inj (stored_mark stored)).symm
  bind active compatible storage replays _ loaded _ same := by
    intro pinned
    obtain rfl : compatible = true := Option.some.inj (loaded.symm.trans pinned)
    obtain ⟨_, protection, pending⟩ := appends_keep (d.file.attached active) replays
      (guardCreateInstance true storage)
    refine ⟨?_, ?_⟩
    · intro mark sealed
      exact same mark (pending.symm.trans sealed)
    · intro untrusted
      obtain ⟨latched, unsealed⟩ := quarantine_unsealed true storage (protection.symm.trans untrusted)
      exact ⟨appends_keep_latched _ replays latched, pending.trans unsealed⟩
  observe rows active rejected g _ _ same := by
    intro pinned
    obtain ⟨marks, quarantine⟩ := same pinned
    obtain ⟨_, protection, pending⟩ := append_keeps g (d.file.attached active) rows
    refine ⟨?_, ?_⟩
    · intro mark sealed
      exact marks mark (pending.symm.trans sealed)
    · intro untrusted
      obtain ⟨latched, unsealed⟩ := quarantine (protection.symm.trans untrusted)
      exact ⟨append_keeps_latched _ rows latched, pending.trans unsealed⟩
  buffer _ _ _ same := by exact same
  read g pinned _ same := by
    intro _
    obtain ⟨_, quarantine⟩ := same pinned
    refine ⟨by simp [applySeal_spent], fun untrusted => ⟨?_, applySeal_spent _ _⟩⟩
    rw [(applySeal_keeps g _).2.1] at untrusted
    simp [applySeal_latch, (quarantine untrusted).1]
  serialize g compatible _ loaded _ same := by
    refine holds_serialized (fun protection _ => ⟨fun _ => ⟨?_, ?_⟩, ?_⟩) fun untrusted => ⟨?_, ?_⟩
    · simp [applySeal_spent]
    · simp [(applySeal_keeps g _).2.1, protection]
    · intro mark stored
      exact (Option.some.inj (stored_mark stored)).symm
    · intro pinned
      obtain rfl : compatible = true := Option.some.inj (loaded.symm.trans pinned)
      rw [Bool.and_true] at untrusted
      obtain ⟨latched, unsealed⟩ := (same pinned).2 untrusted
      exact ⟨by simp [unsealed], fun _ => ⟨latched, unsealed⟩⟩
    · intro mark stored
      simp [readStoredGuardState, RowIdGuard.serialize] at stored
  copy lost _ _ _ copied := by simp [copied, SessionEvent.copied] at sealed

theorem seal_matched {extension : Option Bool} {g : RowIdGuard} {iteration : Nat}
    (same : matched extension iteration (.bound g)) (pinned : extension = some true) :
    (g.applyCheckpointSeal iteration).unsafeReuse = g.unsafeReuse := by
  rw [applySeal_latch]
  cases pending : g.checkpointIteration with
  | none => simp
  | some mark => simp [(same pinned).1 mark pending]

/-- A guard of the pinned host whose latch is open. -/
def clean (extension : Option Bool) : Binding → Prop
  | .bound g => extension ≠ some false ∧ g.unsafeReuse = false ∧ g.protectionCompatible = true ∧
      g.token ≠ ""
  | .unbound storage _ => extension ≠ some false ∧
      (readStoredGuardState true storage).unsafeReuse = false

theorem clean_kept {d : GuardDatabase} {e : SessionEvent} (same : Holds matched d)
    (host : e.otherHost = false) (fresh : ¬ d.reuses e) : Kept (fun x _ => clean x) d e where
  reopen extension _ _ opened open_latch := by
    refine ⟨?_, open_latch.2⟩
    rintro rfl
    simp [opened, SessionEvent.otherHost] at host
  hostMismatch _ mismatch := by simp [mismatch, SessionEvent.otherHost] at host
  create token nextRowId observed _ _ pinned named := by
    refine holds_created fun g token_eq protection open_latch _ => ⟨?_, ?_⟩
    · exact ⟨by simp [pinned], open_latch, protection, token_eq ▸ named⟩
    · refine ⟨by simp [pinned], ?_⟩
      have stored := @readStored_serialized g g.maxSeen false d.file.iteration (token_eq ▸ named)
      exact congrArg StoredGuardState.unsafeReuse stored
  bind active compatible storage replays bound loaded installed open_latch := by
    obtain ⟨pinned, open_stored⟩ := open_latch
    obtain rfl : compatible = true := by
      cases compatible with
      | true => rfl
      | false => exact absurd loaded pinned
    obtain ⟨token_eq, protection, _⟩ := appends_keep (d.file.attached active) replays
      (guardCreateInstance true storage)
    rcases readStored_cases true storage with ⟨unsafe_stored, _⟩ |
      ⟨token, maxSeen, _, _, _, _, named, _, _, eq⟩
    · simp [open_stored] at unsafe_stored
    refine ⟨pinned, ?_, ?_, ?_⟩
    · by_contra latched
      rcases appends_latch _ replays (Bool.not_eq_false _ ▸ latched) with was |
        ⟨before, rows, after, split, low⟩
      · simp [guardCreateInstance, open_stored] at was
      · subst bound
        exact fresh ⟨true, storage, replays, before, rows, after, loaded, installed, split, low⟩
    · exact protection.trans (by simp [guardCreateInstance, eq])
    · rw [bindGuard, token_eq]
      simpa [guardCreateInstance, eq] using named
  observe rows active rejected g appended installed open_latch := by
    obtain ⟨pinned, open_guard, trusted, named⟩ := open_latch
    obtain ⟨token_eq, protection, _⟩ := append_keeps g (d.file.attached active) rows
    refine ⟨pinned, ?_, protection.trans trusted, token_eq ▸ named⟩
    by_contra latched
    rcases append_latches (Bool.not_eq_false _ ▸ latched) with was | ⟨_, low⟩
    · simp [open_guard] at was
    · subst appended
      exact fresh ⟨g, installed, low⟩
  buffer _ _ _ open_latch := by exact open_latch
  read g pinned installed open_latch := by
    obtain ⟨_, open_guard, trusted, named⟩ := open_latch
    obtain ⟨token_eq, protection, _⟩ := applySeal_keeps g d.file.iteration
    refine ⟨by simp [pinned], ?_, protection.trans trusted, token_eq ▸ named⟩
    exact (seal_matched (same.live _ installed) pinned).trans open_guard
  serialize g compatible _ loaded installed open_latch := by
    obtain ⟨pinned, open_guard, trusted, named⟩ := open_latch
    obtain ⟨token_eq, protection, _⟩ := applySeal_keeps g d.file.iteration
    obtain rfl : compatible = true := by
      cases compatible with
      | true => rfl
      | false => exact absurd loaded pinned
    have still := (seal_matched (same.live _ installed) loaded).trans open_guard
    refine holds_serialized (fun _ _ => ⟨?_, ?_⟩) fun untrusted => ?_
    · exact ⟨pinned, still, protection.trans trusted, token_eq ▸ named⟩
    · refine ⟨pinned, ?_⟩
      rw [readStored_serialized _ (token_eq ▸ named)]
      exact still
    · simp [trusted] at untrusted
  copy _ _ _ _ _ open_latch := by exact open_latch

theorem empty_holds (P : Option Bool → Nat → Binding → Prop) (iteration : Nat) :
    Holds P (emptyFile iteration) :=
  ⟨by simp [emptyFile], by simp [emptyFile, GuardFile.recovered]⟩

theorem run_behind {iteration : Nat} {events : List SessionEvent} {d : GuardDatabase}
    (run : exec sessionStep (emptyFile iteration) events = some d) : Holds (fun _ => behind) d :=
  exec_invariant (fun s e _ holds step => step_holds step holds (behind_kept s e)) run
    (empty_holds _ iteration)

theorem run_distrusted {d t u : GuardDatabase} {lost : Bool} {later : List SessionEvent}
    (low : Holds (fun _ => behind) d) (step : sessionStep d (.copyCheckpoint lost) = some t)
    (run : exec sessionStep t later = some u) :
    u.guard ≠ none ∧ Holds (fun _ => distrusted) u := by
  have start : (t.guard ≠ none ∧ t.file.recovered ≠ none) ∧ Holds (fun _ => distrusted) t := by
    simp only [sessionStep] at step
    split at step
    next storage replays installed =>
      obtain rfl := Option.some.inj step
      have suspect := fun later => @behind_copied _ _ _ later (low.live _ installed)
      refine ⟨⟨by simp, by simp⟩, ?_, ?_⟩
      · rintro b ⟨⟩
        exact suspect _
      · rintro written replayed ⟨⟩
        exact suspect _
    next => cases step
  have last := @exec_invariant _ _ sessionStep
    (fun s => (s.guard ≠ none ∧ s.file.recovered ≠ none) ∧ Holds (fun _ => distrusted) s)
    (fun s e _ both next => ⟨step_installed next both.1.1 both.1.2,
      step_holds next both.2 (distrusted_kept e both.1.1)⟩) _ _ _ run start
  exact ⟨last.1.1, last.2⟩

theorem run_matched {iteration : Nat} {events : List SessionEvent} {d : GuardDatabase}
    (sealed : ∀ e ∈ events, e.copied = false)
    (run : exec sessionStep (emptyFile iteration) events = some d) : Holds matched d :=
  exec_invariant_along (fun _ _ _ holds own step => step_holds step holds (matched_kept own))
    (along_of_forall (fun e listed _ => sealed e listed) _) run (empty_holds _ iteration)

/-- Without a copied checkpoint only a reused rowid or another host latches. -/
theorem run_clean {iteration : Nat} {events : List SessionEvent} {d : GuardDatabase}
    (sealed : ∀ e ∈ events, e.copied = false)
    (run : exec sessionStep (emptyFile iteration) events = some d) :
    Holds (fun x _ => clean x) d ∨ ∃ before e after s, events = before ++ e :: after ∧
      exec sessionStep (emptyFile iteration) before = some s ∧ (s.reuses e ∨ e.otherHost = true) := by
  let lawful (s : GuardDatabase) (e : SessionEvent) : Prop :=
    (e.copied = false ∧ ¬ s.reuses e) ∧ e.otherHost = false
  rcases @along_or_breaks _ _ _ lawful _ _ _ run with along | ⟨before, e, after, s, split, reached, breaks⟩
  · have both := @exec_invariant_along _ _ sessionStep lawful
      (fun s => Holds matched s ∧ Holds (fun x _ => clean x) s)
      (fun _ _ _ both own step => ⟨step_holds step both.1 (matched_kept own.1.1),
        step_holds step both.2 (clean_kept both.1 own.2 own.1.2)⟩) _ _ _
      along run ⟨empty_holds _ iteration, empty_holds _ iteration⟩
    exact Or.inl both.2
  · have own := sealed e (by simp [split])
    refine Or.inr ⟨before, e, after, s, split, reached, ?_⟩
    by_cases reused : s.reuses e
    · exact Or.inl reused
    · right
      by_contra host
      exact breaks ⟨⟨own, reused⟩, by simpa using host⟩

def GuardDatabase.installedAs (d : GuardDatabase) (indexes : List IndexEntry) (guardName : String) :
    Prop :=
  ∃ entry, (indexes.find? fun entry => entry.name == guardName) = some entry ∧
    entry.binding = d.guard

def GuardDatabase.covers (d : GuardDatabase) (indexes : List IndexEntry) (column : Option Nat)
    (guardName : String) : Prop :=
  guardName ≠ "" ∧ ∃ entry, (indexes.find? fun entry => entry.name == guardName) = some entry ∧
    entry.binding = d.guard ∧ entry.indexType = ngramRowidGuardType ∧ ∃ c ∈ column, c ∈ entry.columnIds

/-- A read of the installed guard reports that unsafe_reuse, and where the guard
    covers the column the read is answered. -/
def GuardDatabase.reads (d : GuardDatabase) (compatible : Bool) (indexes : List IndexEntry)
    (column : Option Nat) (guardName : String) (iteration : Option Nat) (unsafeReuse : Bool) : Prop :=
  (d.installedAs indexes guardName → ∀ after state,
    readGuardState compatible indexes column guardName iteration = .ok (after, state) →
      state.unsafeReuse = unsafeReuse) ∧
  (d.covers indexes column guardName → ∃ after state,
    readGuardState compatible indexes column guardName iteration = .ok (after, state) ∧
      state.unsafeReuse = unsafeReuse)

theorem read_installed {d : GuardDatabase} {compatible : Bool} {indexes : List IndexEntry}
    {column iteration : Option Nat} {guardName : String} {after : Binding} {state : RowIdGuardState}
    (installed : d.installedAs indexes guardName)
    (read : readGuardState compatible indexes column guardName iteration = .ok (after, state)) :
    ∃ b columnIds, d.guard = some b ∧ (b.read compatible columnIds iteration).2 = state := by
  obtain ⟨entry, found, same⟩ := installed
  simp only [readGuardState, found] at read
  split at read
  · cases read
  split at read
  · cases read
  next binding present =>
    split at read
    · refine ⟨binding, entry.columnIds, same ▸ present, ?_⟩
      rw [Except.ok.inj read]
    · cases read

theorem read_covering {d : GuardDatabase} {b : Binding} {indexes : List IndexEntry}
    {column : Option Nat} {guardName : String} (compatible : Bool) (iteration : Option Nat)
    (present : d.guard = some b) (covering : d.covers indexes column guardName) :
    ∃ columnIds, readGuardState compatible indexes column guardName iteration =
      .ok (b.read compatible columnIds iteration) := by
  obtain ⟨named, entry, found, same, typed, here⟩ := covering
  have binding : entry.binding = some b := same.trans present
  exact ⟨entry.columnIds, by rw [readGuardState, if_neg named, found]; simp only [binding, if_pos (And.intro typed here)]⟩

theorem reads_of_binding {d : GuardDatabase} {b : Binding} {compatible unsafeReuse : Bool}
    {indexes : List IndexEntry} {column iteration : Option Nat} {guardName : String}
    (present : d.guard = some b)
    (reported : ∀ columnIds, (b.read compatible columnIds iteration).2.unsafeReuse = unsafeReuse) :
    d.reads compatible indexes column guardName iteration unsafeReuse := by
  refine ⟨fun installed after state read => ?_, fun covering => ?_⟩
  · obtain ⟨c, columnIds, same, rfl⟩ := read_installed installed read
    obtain rfl := Option.some.inj (present.symm.trans same)
    exact reported columnIds
  · obtain ⟨columnIds, read⟩ := read_covering compatible iteration present covering
    exact ⟨_, _, read, reported columnIds⟩

theorem read_distrusted {b : Binding} {iteration : Nat} (suspect : distrusted iteration b)
    (compatible : Bool) (columnIds : List Nat) :
    (b.read compatible columnIds (some iteration)).2.unsafeReuse = true := by
  cases b with
  | bound g => exact seal_distrusted suspect
  | unbound storage replays =>
    rcases suspect compatible with unsafe_stored | ⟨mark, sealed, low⟩
    · simp [Binding.read, unsafe_stored]
    · have moved : mark ≠ iteration := Nat.ne_of_lt low
      simp [Binding.read, sealed, moved]

/-- Under a matching seal the pinned host reads the latch and nothing else, save
    that it refuses a guard with replays it has not seen. -/
theorem read_matched {b : Binding} {iteration : Nat} (same : matched (some true) iteration b)
    (columnIds : List Nat) : (b.read true columnIds (some iteration)).2.unsafeReuse =
      (latched b || pendingReplays b) := by
  cases b with
  | bound g =>
    simp only [pendingReplays, Bool.or_false]
    exact seal_matched same rfl
  | unbound storage replays =>
    rcases readStored_cases true storage with ⟨unsafe_stored, _⟩ |
      ⟨_, _, _, mark, _, _, _, _, _, eq⟩
    · simp [Binding.read, latched, unsafe_stored]
    · have here : mark = iteration := same mark (by rw [eq])
      simp [Binding.read, latched, pendingReplays, eq, here]

theorem serialized_unsafe {g : RowIdGuard} {file : GuardFile} (compatible active : Bool)
    (suspect : distrusted file.iteration (.bound g)) :
    (g.serializeToDisk compatible (file.attached active)).2.unsafeReuse = some true := by
  rcases serializeToDisk_cases g compatible (file.attached active) with ⟨_, _, eq⟩ | ⟨_, eq⟩
  · rw [eq]
    exact congrArg some (seal_distrusted suspect)
  · rw [eq]
    rfl

theorem serialized_matched {g : RowIdGuard} {file : GuardFile} (active : Bool)
    (same : matched (some true) file.iteration (.bound g)) :
    (g.serializeToDisk true (file.attached active)).2.unsafeReuse = some g.unsafeReuse := by
  rcases serializeToDisk_cases g true (file.attached active) with ⟨_, _, eq⟩ | ⟨untrusted, eq⟩
  · rw [eq]
    exact congrArg some (seal_matched same rfl)
  · rw [Bool.and_true] at untrusted
    rw [eq, ((same rfl).2 untrusted).1]
    rfl

theorem clean_unlatched {extension : Option Bool} {b : Binding} (open_latch : clean extension b) :
    latched b = false := by
  cases b with
  | bound g => exact open_latch.2.1
  | unbound storage replays => exact open_latch.2

theorem seal_sound_across_sessions {iteration : Nat} {events : List SessionEvent} {d : GuardDatabase}
    (run : exec sessionStep (emptyFile iteration) events = some d) :
    -- A checkpoint that the guard did not serialize itself is never forgotten.
    (∀ lost t later u, sessionStep d (.copyCheckpoint lost) = some t →
      exec sessionStep t later = some u → u.guard ≠ none ∧
      (∀ compatible indexes column guardName,
        u.reads compatible indexes column guardName (some u.file.iteration) true) ∧
      ∀ g compatible active, u.guard = some (.bound g) →
        (g.serializeToDisk compatible (u.file.attached active)).2.unsafeReuse = some true) ∧
    (∀ compatible indexes column guardName current storage replays,
      d.guard = some (.unbound storage replays) → replays ≠ [] →
      d.reads compatible indexes column guardName current true) ∧
    -- With every checkpoint serialized by the guard, the seal adds nothing to the latch.
    ((∀ e ∈ events, e.copied = false) →
      (d.extension = some true →
        (∀ b indexes column guardName, d.guard = some b →
          d.reads true indexes column guardName (some d.file.iteration) (latched b || pendingReplays b)) ∧
        ∀ g active, d.guard = some (.bound g) →
          (g.serializeToDisk true (d.file.attached active)).2.unsafeReuse = some g.unsafeReuse) ∧
      ∀ b, d.guard = some b → latched b = true →
        ∃ before e after s, events = before ++ e :: after ∧
          exec sessionStep (emptyFile iteration) before = some s ∧
          (s.reuses e ∨ e.otherHost = true)) := by
  refine ⟨?_, ?_, fun sealed => ⟨fun pinned => ⟨?_, ?_⟩, ?_⟩⟩
  · intro lost t later u step more
    obtain ⟨kept, suspect⟩ := run_distrusted (run_behind run) step more
    refine ⟨kept, ?_, ?_⟩
    · intro compatible indexes column guardName
      obtain ⟨b, present⟩ := Option.ne_none_iff_exists'.mp kept
      exact reads_of_binding present (read_distrusted (suspect.live b present) compatible)
    · intro g compatible active present
      exact serialized_unsafe compatible active (suspect.live _ present)
  · intro compatible indexes column guardName current storage replays unbound pending
    exact reads_of_binding unbound fun columnIds => by simp [Binding.read, pending]
  · intro b indexes column guardName present
    exact reads_of_binding present (read_matched (pinned ▸ (run_matched sealed run).live b present))
  · intro g active present
    exact serialized_matched active (pinned ▸ (run_matched sealed run).live _ present)
  · intro b present latch
    rcases run_clean sealed run with open_latch | cause
    · simp [clean_unlatched (open_latch.live b present)] at latch
    · exact cause

/-- A new guard, an append after its log record, a crash, and a session without
    the extension whose checkpoint loses the buffered append. -/
def crashedReplay : List SessionEvent :=
  [.reopen (some true), .create "token" 5 [], .append (.sequence 5 1 3) false false, .reopen none]

def loggedGuard : IndexStorageInfo :=
  ⟨1, 1, some 1, some duckdbSourceId, some "token", some 4, some false, some 7, some true⟩

def crashedReplayEnd : GuardDatabase where
  file := ⟨7, none, [.createIndex loggedGuard, .append (.sequence 5 1 3)]⟩
  extension := none
  guard := some (.unbound loggedGuard [.sequence 5 1 3])

def nextSession : List SessionEvent := [.reopen (some true), .bind false, .checkpoint, .reopen (some true)]

def rereadEnd : GuardDatabase where
  file := ⟨9, some { loggedGuard with unsafeReuse := some true, checkpoint := some 9, buffers := 0 }, []⟩
  extension := some true
  guard := some (.unbound
    { loggedGuard with unsafeReuse := some true, checkpoint := some 9, buffers := 0 } [])

def guardEntry (d : GuardDatabase) : IndexEntry := ⟨"guard", ngramRowidGuardType, [3], d.guard⟩

theorem lost_replay_distrusted :
    exec sessionStep (emptyFile 7) crashedReplay = some crashedReplayEnd ∧
    ∃ t, sessionStep crashedReplayEnd (.copyCheckpoint true) = some t ∧
      exec sessionStep t nextSession = some rereadEnd ∧
      ∃ after state, readGuardState true [guardEntry rereadEnd] (some 3) "guard" (some 9) =
        .ok (after, state) ∧ state.unsafeReuse = true := by
  have run : exec sessionStep (emptyFile 7) crashedReplay = some crashedReplayEnd := by decide
  have whole : exec sessionStep crashedReplayEnd (.copyCheckpoint true :: nextSession) = some rereadEnd := by
    decide
  obtain ⟨t, copied, later⟩ := exec_cons_iff.mp whole
  obtain ⟨_, read, _⟩ := (seal_sound_across_sessions run).1 true t nextSession rereadEnd copied later
  exact ⟨run, t, copied, later,
    (read true [guardEntry rereadEnd] (some 3) "guard").2
      ⟨by decide, guardEntry rereadEnd, rfl, rfl, rfl, 3, rfl, List.mem_singleton.mpr rfl⟩⟩

end NgramGuardSessions
