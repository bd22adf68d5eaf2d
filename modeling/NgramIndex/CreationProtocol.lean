import Mathlib.Logic.Relation
import NgramIndex.CreationContent

/- What the creation barrier protects, over every interleaving. Each step of the system is
   seen from one database at a time, where the keys of the two locks say who may act. -/
namespace NgramCreationBarrier
open LabelledRun StorageLock
variable {Conn Manager : Type}

section Keys

structure Local (Conn : Type) where
  db : Database Conn
  branch : Conn → Option DuckTransaction
  fence : Conn → Option (Option HeldCreation)

def Local.content (l : Local Conn) : Content Conn where
  store := l.db.toStore
  branch c := (l.branch c).map DuckTransaction.toChanges
  fence := l.fence

structure Keys (l : Local Conn) : Prop where
  write : ∀ c, c ∈ l.db.checkpointLock.shared ↔ ∃ b, l.branch c = some b ∧ b.writeLock = true
  exclusive : ∀ c, l.db.checkpointLock.exclusive = some c ↔ ∃ held, l.fence c = some (some held)
  vacuum : ∀ c, .transaction c ∈ l.db.vacuumLock.shared ↔ ∃ b, l.branch c = some b ∧ b.vacuumLock = true
  fence : ∀ c, .fence c ∈ l.db.vacuumLock.shared ↔ l.fence c ≠ none

variable {l k : Local Conn} {c : Conn} {b : DuckTransaction}

theorem content_at (at_c : l.branch c = some b) : l.content.branch c = some b.toChanges := by
  simp [Local.content, at_c]

/-- Only the owner of the barrier commits changes while it is held. -/
theorem commit_alone (keys : Keys l) (at_c : l.branch c = some b)
    (key : b.writeLock = true ∨ l.db.checkpointLock.exclusive = none) (d : Conn) (apart : d ≠ c)
    (held : HeldCreation) : l.fence d ≠ some (some held) := by
  intro held_d
  have out : l.db.checkpointLock.exclusive = some d := (keys.exclusive d).mpr ⟨held, held_d⟩
  rcases key with writes | unlocked
  · have shared : c ∈ l.db.checkpointLock.shared := (keys.write c).mpr ⟨b, at_c, writes⟩
    exact apart (Lock.shared_alone out shared).symm
  · rw [unlocked] at out
    cases out

theorem barrier_only (keys : Keys l) {d : Conn} {held : HeldCreation} (held_by : l.fence c = some (some held))
    (other : HeldCreation) (held_d : l.fence d = some (some other)) : d = c := by
  have out := (keys.exclusive c).mpr ⟨held, held_by⟩
  exact Option.some.inj (((keys.exclusive d).mpr ⟨other, held_d⟩).symm.trans out)

variable [DecidableEq Conn]

def Local.put (l : Local Conn) (c : Conn) (db : Database Conn) (b : DuckTransaction) : Local Conn :=
  ⟨db, Function.update l.branch c (some b), l.fence⟩

inductive LocalStep (l : Local Conn) : Local Conn → Prop where
  | attach {c : Conn} (idle : l.branch c = none) (bare : ∀ held, l.fence c ≠ some (some held)) :
      LocalStep l (l.put c { l.db with toStore := l.db.started } ⟨l.db.startTransaction, false, false⟩)
  | takeWrite {c : Conn} {b : DuckTransaction} {lock : Lock Conn} (at_c : l.branch c = some b)
      (granted : l.db.checkpointLock.getShared c = some lock) :
      LocalStep l (l.put c { l.db with checkpointLock := lock } { b with writeLock := true })
  | takeVacuum {c : Conn} {b : DuckTransaction} {lock : Lock (VacuumKey Conn)} (at_c : l.branch c = some b)
      (granted : l.db.vacuumLock.getShared (.transaction c) = some lock) :
      LocalStep l (l.put c { l.db with vacuumLock := lock } { b with vacuumLock := true })
  | fence {c : Conn} {lock : Lock (VacuumKey Conn)} (unfenced : l.fence c = none)
      (granted : l.db.vacuumLock.getShared (.fence c) = some lock) :
      LocalStep l ⟨{ l.db with vacuumLock := lock }, l.branch, Function.update l.fence c (some none)⟩
  | change {c : Conn} {b : DuckTransaction} {store : Store} {changes : Changes} (at_c : l.branch c = some b)
      (changed : ContentStep l.content ⟨store, Function.update l.content.branch c (some changes), l.fence⟩) :
      LocalStep l (l.put c { l.db with toStore := store } { b with toChanges := changes })
  | hold {c : Conn} {b : DuckTransaction} {lock : Lock Conn} {names : CreationNames} (at_c : l.branch c = some b)
      (fenced : l.fence c = some none) (granted : l.db.checkpointLock.tryUpgrade c = some lock)
      (current : l.db.lastCommit ≤ b.startTime) :
      LocalStep l ⟨{ l.db with checkpointLock := lock }, l.branch,
        Function.update l.fence c (some (some (heldCreation b.toChanges names)))⟩
  | finish {c : Conn} {b : DuckTransaction} {changes : Changes} {held : HeldCreation} (at_c : l.branch c = some b)
      (held_by : l.fence c = some (some held))
      (changed : ContentStep l.content
        ⟨l.db.toStore, Function.update l.content.branch c (some changes), Function.update l.fence c (some none)⟩) :
      LocalStep l ⟨{ l.db with checkpointLock := l.db.checkpointLock.releaseExclusive },
        Function.update l.branch c (some { b with toChanges := changes }), Function.update l.fence c (some none)⟩
  | commit {c : Conn} {b : DuckTransaction} (at_c : l.branch c = some b)
      (key : b.writeLock = true ∨ l.db.checkpointLock.exclusive = none)
      (main : ∀ w ∈ b.staged, l.db.isMainTable w.table = true) :
      LocalStep l ⟨{ l.db.dropKeys c with toStore := l.db.committed b.toChanges },
        Function.update l.branch c none, l.fence⟩
  | rollback {c : Conn} {b : DuckTransaction} (at_c : l.branch c = some b) :
      LocalStep l ⟨rollback l.db c b, Function.update l.branch c none, l.fence⟩
  | unfence {c : Conn} : LocalStep l ⟨releaseFence l.db c (l.fence c), l.branch, Function.update l.fence c none⟩

theorem content_put (l : Local Conn) (c : Conn) (db : Database Conn) (b : DuckTransaction) :
    (l.put c db b).content = ⟨db.toStore, Function.update l.content.branch c (some b.toChanges), l.fence⟩ := by
  simp only [Local.content, Local.put, Content.mk.injEq, true_and, and_true]
  funext d
  by_cases here : d = c
  · subst here
    simp
  · simp [here]

theorem content_left (l : Local Conn) (c : Conn) (db : Database Conn) :
    (⟨db, Function.update l.branch c none, l.fence⟩ : Local Conn).content =
      ⟨db.toStore, Function.update l.content.branch c none, l.fence⟩ := by
  simp only [Local.content, Content.mk.injEq, true_and, and_true]
  funext d
  by_cases here : d = c
  · subst here
    simp
  · simp [here]

theorem unchanged_branch (at_c : l.branch c = some b) :
    Function.update l.content.branch c (some b.toChanges) = l.content.branch := by
  rw [← content_at at_c, Function.update_eq_self]

theorem local_content (keys : Keys l) (step : LocalStep l k) : ContentStep l.content k.content := by
  cases step with
  | @attach c idle bare =>
    rw [content_put]
    exact .attach (by simp [Local.content, idle]) bare
  | takeWrite at_c granted =>
    rw [content_put, unchanged_branch at_c]
    exact .same
  | takeVacuum at_c granted =>
    rw [content_put, unchanged_branch at_c]
    exact .same
  | fence unfenced granted => exact .fence fun held bare => by cases bare
  | change at_c changed =>
    rw [content_put]
    exact changed
  | hold at_c fenced granted current => exact .hold (content_at at_c) current
  | @finish c b changes held at_c held_by changed =>
    have moved := content_put l c l.db { b with toChanges := changes }
    simp only [Local.content, Local.put, Content.mk.injEq] at moved changed ⊢
    rw [moved.2.1]
    exact changed
  | commit at_c key main =>
    rw [content_left]
    exact .commit (content_at at_c) main (commit_alone keys at_c key)
  | rollback at_c =>
    rw [content_left]
    exact .rollback (content_at at_c)
  | unfence => exact .fence fun held bare => by cases bare

section Holders
variable {α : Type} {f : Conn → Option α} {a new : α} {p : α → Prop} {d : Conn}

theorem holder_kept (at_c : f c = some a) (same : p new ↔ p a) :
    (∃ x, Function.update f c (some new) d = some x ∧ p x) ↔ ∃ x, f d = some x ∧ p x := by
  by_cases here : d = c
  · subst here
    simp [at_c, same]
  · simp [here]

theorem holder_taken (holds : p new) :
    (∃ x, Function.update f c (some new) d = some x ∧ p x) ↔ d = c ∨ ∃ x, f d = some x ∧ p x := by
  by_cases here : d = c
  · subst here
    simp [holds]
  · simp [here]

theorem holder_absent (idle : f c = none) (lacks : ¬ p new) :
    (∃ x, Function.update f c (some new) d = some x ∧ p x) ↔ ∃ x, f d = some x ∧ p x := by
  by_cases here : d = c
  · subst here
    simp [idle, lacks]
  · simp [here]

theorem holder_left : (∃ x, Function.update f c none d = some x ∧ p x) ↔ d ≠ c ∧ ∃ x, f d = some x ∧ p x := by
  by_cases here : d = c <;> simp [here]

end Holders

theorem barrier_kept {f : Conn → Option (Option HeldCreation)} {d : Conn} {x : Option (Option HeldCreation)}
    (before : ∀ held, f c ≠ some (some held)) (after : ∀ held, x ≠ some (some held)) :
    (∃ held, Function.update f c x d = some (some held)) ↔ ∃ held, f d = some (some held) := by
  by_cases here : d = c
  · subst here
    simp [before, after]
  · simp [here]

/-- Where one connection owns the barrier, it is the only one that loses it. -/
theorem barrier_left {f : Conn → Option (Option HeldCreation)} {d : Conn} {x : Option (Option HeldCreation)}
    (only : ∀ held, f d = some (some held) → d = c) (after : ∀ held, x ≠ some (some held)) :
    ¬ ∃ held, Function.update f c x d = some (some held) := by
  rintro ⟨held, found⟩
  by_cases here : d = c
  · subst here
    rw [Function.update_self] at found
    exact after held found
  · rw [Function.update_of_ne here] at found
    exact here (only held found)

theorem fenced_kept {f : Conn → Option (Option HeldCreation)} {d : Conn} {x : Option (Option HeldCreation)}
    (same : x ≠ none ↔ f c ≠ none) : Function.update f c x d ≠ none ↔ f d ≠ none := by
  by_cases here : d = c
  · subst here
    simpa using same
  · simp [here]

theorem dropKeys_keys (keys : Keys l) (store : Store) :
    Keys ⟨{ l.db.dropKeys c with toStore := store }, Function.update l.branch c none, l.fence⟩ := by
  refine ⟨fun d => ?_, keys.exclusive, fun d => ?_, fun d => ?_⟩
  · refine Iff.trans ?_ holder_left.symm
    rw [← keys.write]
    exact Finset.mem_erase
  · refine Iff.trans ?_ holder_left.symm
    rw [← keys.vacuum]
    exact Finset.mem_erase.trans (by simp)
  · rw [← keys.fence]
    exact Finset.mem_erase.trans (by simp)

theorem unfence_keys (keys : Keys l) :
    Keys ⟨releaseFence l.db c (l.fence c), l.branch, Function.update l.fence c none⟩ := by
  cases fenced : l.fence c with
  | none =>
    have same : Function.update l.fence c none = l.fence := by rw [← fenced, Function.update_eq_self]
    rw [same]
    exact ⟨keys.write, keys.exclusive, keys.vacuum, keys.fence⟩
  | some barrier =>
    have dropped : ∀ d, VacuumKey.fence d ∈ (l.db.vacuumLock.releaseShared (.fence c)).shared ↔
        Function.update l.fence c none d ≠ none := by
      intro d
      refine Finset.mem_erase.trans ?_
      by_cases here : d = c
      · simp [here]
      · simpa [here] using keys.fence d
    have kept : ∀ d, VacuumKey.transaction d ∈ (l.db.vacuumLock.releaseShared (.fence c)).shared ↔
        ∃ b, l.branch d = some b ∧ b.vacuumLock = true := by
      intro d
      refine Finset.mem_erase.trans ?_
      simpa using keys.vacuum d
    cases barrier with
    | none =>
      exact ⟨keys.write, fun d => (keys.exclusive d).trans (barrier_kept (by simp [fenced]) (by simp)).symm, kept, dropped⟩
    | some held =>
      refine ⟨keys.write, fun d => ?_, kept, dropped⟩
      have nobody := barrier_left (x := none) (d := d) (barrier_only keys fenced) (by simp)
      simpa [releaseFence] using nobody

theorem local_keys (keys : Keys l) (step : LocalStep l k) : Keys k := by
  obtain ⟨write, exclusive, vacuum, fence⟩ := keys
  cases step with
  | attach idle bare =>
    exact ⟨fun d => (write d).trans (holder_absent idle (by simp)).symm, exclusive,
      fun d => (vacuum d).trans (holder_absent idle (by simp)).symm, fence⟩
  | @takeWrite c b lock at_c granted =>
    obtain ⟨unlocked, shared, still⟩ := Lock.getShared_spec granted
    refine ⟨fun d => ?_, fun d => ?_, fun d => (vacuum d).trans (holder_kept at_c (by rfl)).symm, fence⟩
    · refine Iff.trans ?_ (holder_taken (by rfl)).symm
      rw [← write, ← Finset.mem_insert, ← shared]
      rfl
    · rw [← unlocked] at still
      exact (Eq.congr_left still).trans (exclusive d)
  | @takeVacuum c b lock at_c granted =>
    obtain ⟨unlocked, shared, still⟩ := Lock.getShared_spec granted
    refine ⟨fun d => (write d).trans (holder_kept at_c (by rfl)).symm, exclusive, fun d => ?_, fun d => ?_⟩
    · refine Iff.trans ?_ (holder_taken (by rfl)).symm
      rw [← vacuum]
      change _ ∈ lock.shared ↔ _
      simp [shared]
    · refine Iff.trans ?_ (fence d)
      change _ ∈ lock.shared ↔ _
      simp [shared]
  | @fence c lock unfenced granted =>
    obtain ⟨unlocked, shared, still⟩ := Lock.getShared_spec granted
    refine ⟨write, fun d => (exclusive d).trans (barrier_kept (by simp [unfenced]) (by simp)).symm, fun d => ?_,
      fun d => ?_⟩
    · simpa [shared] using vacuum d
    · simp only [shared, Finset.mem_insert, fence]
      by_cases here : d = c <;> simp [here]
  | change at_c changed =>
    exact ⟨fun d => (write d).trans (holder_kept at_c (by rfl)).symm, exclusive,
      fun d => (vacuum d).trans (holder_kept at_c (by rfl)).symm, fence⟩
  | @hold c b lock names at_c fenced granted current =>
    obtain ⟨unlocked, only, shared, out⟩ := Lock.tryUpgrade_spec granted
    refine ⟨fun d => shared ▸ write d, fun d => ?_, vacuum, fun d => (fence d).trans (fenced_kept (by simp [fenced])).symm⟩
    have nobody : ¬ ∃ held, l.fence d = some (some held) := fun held => by
      have before := (exclusive d).mpr held
      rw [unlocked] at before
      cases before
    by_cases here : d = c
    · simp [out, here]
    · simpa [out, here, Ne.symm here] using nobody
  | @finish c b changes held at_c held_by changed =>
    refine ⟨fun d => (write d).trans (holder_kept at_c (by rfl)).symm, fun d => ?_,
      fun d => (vacuum d).trans (holder_kept at_c (by rfl)).symm, fun d => (fence d).trans (fenced_kept (by simp [held_by])).symm⟩
    have nobody := barrier_left (x := some none) (d := d) (barrier_only ⟨write, exclusive, vacuum, fence⟩ held_by) (by simp)
    simpa using nobody
  | commit at_c key main => exact dropKeys_keys ⟨write, exclusive, vacuum, fence⟩ _
  | rollback at_c => exact dropKeys_keys ⟨write, exclusive, vacuum, fence⟩ _
  | unfence => exact unfence_keys ⟨write, exclusive, vacuum, fence⟩

end Keys

section Fences
variable [DecidableEq Manager] {fences next : List (HeldFence Manager)} {m : Manager}

theorem fenceOf_cons (held : HeldFence Manager) (rest : List (HeldFence Manager)) (k : Manager) :
    fenceOf (held :: rest) k = if held.manager = k then some held.creation else fenceOf rest k := by
  by_cases here : held.manager = k <;> simp [fenceOf, here]

theorem fenced_iff : (fences.any fun held => held.manager = m) = true ↔ fenceOf fences m ≠ none := by
  induction fences with
  | nil => simp [fenceOf]
  | cons held rest ih =>
    rw [List.any_cons, Bool.or_eq_true, ih, fenceOf_cons]
    by_cases here : held.manager = m <;> simp [here]

theorem unfenced_managers (unfenced : fenceOf fences m = none) : m ∉ fences.map HeldFence.manager := by
  intro listed
  obtain ⟨held, inside, here⟩ := List.mem_map.mp listed
  have fenced := fenced_iff.mp (List.any_eq_true.mpr ⟨held, inside, decide_eq_true here⟩)
  exact fenced unfenced

theorem fenceOf_acquire (unfenced : fenceOf fences m = none) (k : Manager) :
    fenceOf (acquire m fences) k = if k = m then some none else fenceOf fences k := by
  have apart : ¬ (fences.any fun held => held.manager = m) = true := fun fenced => fenced_iff.mp fenced unfenced
  rw [acquire, if_neg apart]
  induction fences with
  | nil => simp [fenceOf, eq_comm]
  | cons held rest ih =>
    rw [fenceOf_cons] at unfenced
    split at unfenced
    · cases unfenced
    · rename_i other
      have apart_rest : ¬ (rest.any fun held => held.manager = m) = true := fun fenced =>
        fenced_iff.mp fenced unfenced
      rw [List.cons_append, fenceOf_cons, fenceOf_cons, ih unfenced apart_rest]
      by_cases here : held.manager = k
      · have apart_k : k ≠ m := fun same => other (here.trans same)
        simp [here, apart_k]
      · simp [here]

theorem acquire_distinct (distinct : (fences.map HeldFence.manager).Nodup) :
    ((acquire m fences).map HeldFence.manager).Nodup := by
  rw [acquire]
  split
  · exact distinct
  · rename_i apart
    have unfenced : fenceOf fences m = none := by_contra fun fenced => apart (fenced_iff.mpr fenced)
    rw [List.map_append]
    exact distinct.append (by simp) (by simpa using unfenced_managers unfenced)

theorem map_ok {α : Type} {x : Except String α} {f : α → α} {a : α} (ran : x.map f = .ok a) :
    ∃ b, x = .ok b ∧ a = f b := by
  cases x with
  | error reason => cases ran
  | ok b => exact ⟨b, rfl, (Except.ok.inj ran).symm⟩

theorem holdCreationBarrier_spec {creation : HeldCreation} (ran : holdCreationBarrier m creation fences = .ok next) :
    fenceOf fences m = some none ∧ next.map HeldFence.manager = fences.map HeldFence.manager ∧
      ∀ k, fenceOf next k = if k = m then some (some creation) else fenceOf fences k := by
  induction fences generalizing next with
  | nil => cases ran
  | cons held rest ih =>
    rw [holdCreationBarrier] at ran
    split at ran
    · rename_i other
      obtain ⟨moved, rest_ran, rfl⟩ := map_ok ran
      obtain ⟨bare, managers, after⟩ := ih rest_ran
      refine ⟨by rw [fenceOf_cons, if_neg other, bare], by simp [managers], fun k => ?_⟩
      rw [fenceOf_cons, fenceOf_cons, after]
      by_cases here : held.manager = k
      · have apart : k ≠ m := fun same => other (here.trans same)
        simp [here, apart]
      · simp [here]
    · rename_i same
      have here : held.manager = m := not_not.mp same
      split at ran
      · cases ran
      · rename_i bare
        cases ran
        have none_held : held.creation = none := by simpa using bare
        refine ⟨by rw [fenceOf_cons, if_pos here, none_held], rfl, fun k => ?_⟩
        rw [fenceOf_cons, fenceOf_cons]
        by_cases at_k : k = m
        · simp [here, at_k]
        · have apart : held.manager ≠ k := fun same => at_k (same.symm.trans here)
          simp [apart, at_k]

structure Finishes (isMainTable : DataTable → Bool) (transactionId : Nat) (currentTable : DataTable)
    (call : CreationNames) (held : HeldCreation) : Prop where
  owner : held.transactionId = transactionId
  named : held.names call = true
  altered : isMainTable held.table = false
  main : isMainTable currentTable = true
  replaced : held.table ≠ currentTable

theorem finishCreation_spec {isMainTable : DataTable → Bool} {transactionId : Nat} {currentTable : DataTable}
    {call : CreationNames} (distinct : (fences.map HeldFence.manager).Nodup)
    (ran : finishCreation isMainTable m transactionId currentTable call fences = .ok next) :
    next.map HeldFence.manager = fences.map HeldFence.manager ∧
      ∃ held, fenceOf fences m = some (some held) ∧ Finishes isMainTable transactionId currentTable call held ∧
        ∀ k, fenceOf next k = if k = m then some none else fenceOf fences k := by
  induction fences generalizing next with
  | nil => cases ran
  | cons fence rest ih =>
    obtain ⟨absent, distinct_rest⟩ := List.nodup_cons.mp distinct
    have later (moved : List (HeldFence Manager)) (rest_ran : finishCreation isMainTable m transactionId currentTable
        call rest = .ok moved) (same : next = fence :: moved) :
        next.map HeldFence.manager = (fence :: rest).map HeldFence.manager ∧
          ∃ held, fenceOf (fence :: rest) m = some (some held) ∧
            Finishes isMainTable transactionId currentTable call held ∧
            ∀ k, fenceOf next k = if k = m then some none else fenceOf (fence :: rest) k := by
      subst same
      obtain ⟨managers, held, found, finishes, after⟩ := ih distinct_rest rest_ran
      have other : fence.manager ≠ m := fun same => by
        have listed : m ∉ rest.map HeldFence.manager := same ▸ absent
        have fenced : (rest.any fun held => held.manager = m) = true := fenced_iff.mpr (by simp [found])
        obtain ⟨entry, inside, here⟩ := List.any_eq_true.mp fenced
        exact listed (List.mem_map.mpr ⟨entry, inside, of_decide_eq_true here⟩)
      refine ⟨by simp [managers], held, by rw [fenceOf_cons, if_neg other, found], finishes, fun k => ?_⟩
      rw [fenceOf_cons, fenceOf_cons, after]
      by_cases here : fence.manager = k
      · have apart : k ≠ m := fun same => other (here.trans same)
        simp [here, apart]
      · simp [here]
    rw [finishCreation] at ran
    split at ran
    · obtain ⟨moved, rest_ran, same⟩ := map_ok ran
      exact later moved rest_ran same
    · rename_i held barrier
      split at ran
      · obtain ⟨moved, rest_ran, same⟩ := map_ok ran
        exact later moved rest_ran same
      · rename_i same
        have here : fence.manager = m := not_not.mp same
        split at ran
        · cases ran
        · rename_i owner
          split at ran
          · cases ran
          · rename_i named
            split at ran
            · cases ran
            · rename_i replaced
              cases ran
              simp only [Bool.or_eq_true, Bool.not_eq_true', beq_iff_eq, not_or, Bool.not_eq_true,
                Bool.not_eq_false] at replaced
              refine ⟨rfl, held, by rw [fenceOf_cons, if_pos here, barrier],
                ⟨not_not.mp owner, by simpa using named, replaced.1.1, replaced.1.2, replaced.2⟩, fun k => ?_⟩
              rw [fenceOf_cons, fenceOf_cons]
              by_cases at_k : k = m
              · simp [here, at_k]
              · have apart : fence.manager ≠ k := fun same => at_k (same.symm.trans here)
                simp [apart, at_k]

theorem owns_iff (distinct : (fences.map HeldFence.manager).Nodup) :
    ownsCreationBarrier m fences = true ↔ ∃ held, fenceOf fences m = some (some held) := by
  induction fences with
  | nil => simp [ownsCreationBarrier, fenceOf]
  | cons fence rest ih =>
    obtain ⟨absent, distinct_rest⟩ := List.nodup_cons.mp distinct
    rw [fenceOf_cons]
    by_cases here : fence.manager = m
    · have elsewhere : ownsCreationBarrier m rest = false := by
        rw [ownsCreationBarrier, List.any_eq_false]
        intro held inside owned
        have same : held.manager = m := by simp at owned; exact owned.1
        exact absent (List.mem_map.mpr ⟨held, inside, same.trans here.symm⟩)
      rw [ownsCreationBarrier] at elsewhere
      simp [ownsCreationBarrier, here, elsewhere, Option.isSome_iff_exists]
    · have tail := ih distinct_rest
      rw [ownsCreationBarrier] at tail
      simp only [ownsCreationBarrier, List.any_cons, here, decide_false, Bool.false_and, Bool.false_or, if_false]
      exact tail

end Fences

section System
variable [DecidableEq Conn] [DecidableEq Manager]

abbrev Reach : Local Conn → Local Conn → Prop := Relation.ReflTransGen LocalStep

section Local
variable {l : Local Conn} {c : Conn} {b next : DuckTransaction} {db : Database Conn}

theorem put_self (at_c : l.branch c = some b) : l.put c l.db b = l := by
  rw [Local.put, ← at_c, Function.update_eq_self]

theorem put_at : (l.put c db b).branch c = some b := by simp [Local.put]

theorem put_put (later : Database Conn) : (l.put c db b).put c later next = l.put c later next := by
  rw [Local.put, Local.put, Local.put, Function.update_idem]

theorem setModifications_reach {insertData : Bool} (at_c : l.branch c = some b)
    (ran : setModifications l.db c b insertData = some (db, next)) :
    Reach l (l.put c db next) ∧ next.toChanges = b.toChanges ∧ db.toStore = l.db.toStore := by
  have held : Reach l (l.put c l.db b) := by rw [put_self at_c]
  cases insertData with
  | true =>
    rw [setModifications, if_pos rfl] at ran
    split at ran
    · cases ran
      exact ⟨held, rfl, rfl⟩
    · obtain ⟨lock, granted, same⟩ := Option.map_eq_some_iff.mp ran
      cases same
      exact ⟨.single (.takeVacuum at_c granted), rfl, rfl⟩
  | false =>
    rw [setModifications, if_neg Bool.false_ne_true] at ran
    split at ran
    · cases ran
      exact ⟨held, rfl, rfl⟩
    · obtain ⟨lock, granted, same⟩ := Option.map_eq_some_iff.mp ran
      cases same
      exact ⟨.single (.takeWrite at_c granted), rfl, rfl⟩

theorem change_reach {store : Store} {changes : Changes} (at_c : l.branch c = some b)
    (changed : ContentStep l.content ⟨store, Function.update l.content.branch c (some changes), l.fence⟩) :
    Reach l (l.put c { l.db with toStore := store } { b with toChanges := changes }) :=
  .single (.change at_c changed)

theorem keyed_reach {insertData : Bool} {later : Database Conn} {last : DuckTransaction} (at_c : l.branch c = some b)
    (ran : setModifications l.db c b insertData = some (db, next))
    (works : Reach (l.put c db next) ((l.put c db next).put c later last)) : Reach l (l.put c later last) := by
  rw [put_put] at works
  exact (setModifications_reach at_c ran).1.trans works

theorem work_reach {work : Work} {later : Database Conn} {last : DuckTransaction} (at_c : l.branch c = some b)
    (ran : work.run l.db c b = some (later, last)) : Reach l (l.put c later last) := by
  cases work with
  | attempt insertData => exact (setModifications_reach at_c ran).1
  | write kind table =>
    obtain ⟨⟨db, next⟩, keyed, ran⟩ := Option.bind_eq_some_iff.mp ran
    obtain ⟨main, same⟩ := Option.ite_none_right_eq_some.mp ran
    cases same
    exact keyed_reach at_c keyed (change_reach put_at (.write (content_at put_at)))
  | replaceStorage table =>
    obtain ⟨⟨db, next⟩, keyed, ran⟩ := Option.bind_eq_some_iff.mp ran
    obtain ⟨main, same⟩ := Option.ite_none_right_eq_some.mp ran
    cases same
    exact keyed_reach at_c keyed (change_reach put_at (.replace (content_at put_at) main))
  | createGuard table guardName =>
    obtain ⟨⟨db, next⟩, keyed, ran⟩ := Option.bind_eq_some_iff.mp ran
    obtain ⟨⟨main, fresh⟩, same⟩ := Option.ite_none_right_eq_some.mp ran
    cases same
    exact keyed_reach at_c keyed (change_reach put_at (.addGuard (content_at put_at) fresh))
  | dropGuard table guardName =>
    obtain ⟨⟨db, next⟩, keyed, ran⟩ := Option.bind_eq_some_iff.mp ran
    obtain ⟨known, same⟩ := Option.ite_none_right_eq_some.mp ran
    cases same
    exact keyed_reach at_c keyed (change_reach put_at (.dropGuard (content_at put_at)))

end Local

def System.localAt (s : System Conn Manager) (m : Manager) : Local Conn where
  db := s.databases m
  branch c := (s.sessions c).branches m
  fence c := fenceOf (s.sessions c).fences m

/-- What holds of each connection: its fences are of different databases, and it holds one
    only in a transaction that reached the database. -/
structure Seated (x : Session Manager) : Prop where
  distinct : (x.fences.map HeldFence.manager).Nodup
  branch_active : ∀ m, x.branches m ≠ none → x.active = true
  fence_active : ∀ m, fenceOf x.fences m ≠ none → x.active = true
  ending_active : x.ending = true → x.active = true
  fence_branch : x.ending = false → ∀ m, fenceOf x.fences m ≠ none → x.branches m ≠ none

/-- One connection's step in one database, which other databases and connections do not see. -/
structure Moved (s t : System Conn Manager) (c : Conn) (m : Manager) : Prop where
  here : Reach (s.localAt m) (t.localAt m)
  there : ∀ k, k ≠ m → t.localAt k = s.localAt k
  others : ∀ d, d ≠ c → t.sessions d = s.sessions d
  active : (t.sessions c).active = (s.sessions c).active
  ending : (t.sessions c).ending = (s.sessions c).ending
  distinct : ((s.sessions c).fences.map HeldFence.manager).Nodup → ((t.sessions c).fences.map HeldFence.manager).Nodup
  fenced : ∀ k, fenceOf (s.sessions c).fences k ≠ none → fenceOf (t.sessions c).fences k ≠ none

variable {s t u : System Conn Manager} {c : Conn} {m : Manager} {b next : DuckTransaction} {db : Database Conn}

theorem moved_trans (first : Moved s t c m) (second : Moved t u c m) : Moved s u c m where
  here := first.here.trans second.here
  there k apart := (second.there k apart).trans (first.there k apart)
  others d apart := (second.others d apart).trans (first.others d apart)
  active := second.active.trans first.active
  ending := second.ending.trans first.ending
  distinct := second.distinct ∘ first.distinct
  fenced k := second.fenced k ∘ first.fenced k

theorem localAt_setSession (s : System Conn Manager) (c : Conn) (x : Session Manager) (k : Manager) :
    (s.setSession c x).localAt k = ⟨s.databases k, Function.update (s.localAt k).branch c (x.branches k),
      Function.update (s.localAt k).fence c (fenceOf x.fences k)⟩ := by
  simp only [System.localAt, System.setSession, Local.mk.injEq, true_and]
  refine ⟨funext fun d => ?_, funext fun d => ?_⟩ <;> by_cases same : d = c
  · subst same
    simp
  · simp [same]
  · subst same
    simp
  · simp [same]

/-- A change of one connection and one database, seen from the database. -/
theorem localAt_here (s : System Conn Manager) (c : Conn) (m : Manager) (db : Database Conn) (x : Session Manager) :
    ((s.setDatabase m db).setSession c x).localAt m = ⟨db, Function.update (s.localAt m).branch c (x.branches m),
      Function.update (s.localAt m).fence c (fenceOf x.fences m)⟩ := by
  rw [localAt_setSession]
  simp [System.localAt, System.setDatabase]

/-- Another database sees nothing of it where the connection has the same part in it. -/
theorem localAt_there {k : Manager} (apart : k ≠ m) {x : Session Manager}
    (branch : x.branches k = (s.sessions c).branches k) (fence : fenceOf x.fences k = fenceOf (s.sessions c).fences k) :
    ((s.setDatabase m db).setSession c x).localAt k = s.localAt k := by
  have databases : (s.setDatabase m db).databases k = s.databases k := by simp [System.setDatabase, apart]
  rw [localAt_setSession, databases, branch, fence]
  have branch_self : Function.update (s.localAt k).branch c ((s.sessions c).branches k) = (s.localAt k).branch :=
    Function.update_eq_self c (s.localAt k).branch
  have fence_self : Function.update (s.localAt k).fence c (fenceOf (s.sessions c).fences k) = (s.localAt k).fence :=
    Function.update_eq_self c (s.localAt k).fence
  have same_branch : ((s.setDatabase m db).localAt k).branch = (s.localAt k).branch := rfl
  have same_fence : ((s.setDatabase m db).localAt k).fence = (s.localAt k).fence := rfl
  rw [same_branch, same_fence, branch_self, fence_self]
  rfl

/-- A statement's effect on a database, its transaction there and the connection's fences. -/
theorem fence_moved {fences : List (HeldFence Manager)} {fence : Option (Option HeldCreation)}
    (after : ∀ k, fenceOf fences k = if k = m then fence else fenceOf (s.sessions c).fences k)
    (distinct : ((s.sessions c).fences.map HeldFence.manager).Nodup → (fences.map HeldFence.manager).Nodup)
    (keeps : fenceOf (s.sessions c).fences m ≠ none → fence ≠ none)
    (works : Reach (s.localAt m) ⟨db, Function.update (s.localAt m).branch c (some b),
      Function.update (s.localAt m).fence c fence⟩) :
    Moved s ((s.put c m db b).setFences c fences) c m := by
  have both : (s.put c m db b).setFences c fences = (s.setDatabase m db).setSession c
      { s.sessions c with branches := Function.update (s.sessions c).branches m (some b), fences := fences } := by
    simp [System.put, System.setFences, System.setSession, System.setDatabase]
  rw [both]
  refine ⟨?_, fun k apart => localAt_there apart ?_ ?_, fun d apart => Function.update_of_ne apart _ _, ?_, ?_,
    fun before => ?_, fun k before => ?_⟩
  · rw [localAt_here, after, if_pos rfl]
    simpa using works
  · exact Function.update_of_ne apart _ _
  · rw [after, if_neg apart]
  · simp [System.setSession]
  · simp [System.setSession]
  · simpa [System.setSession] using distinct before
  · simp only [System.setSession, Function.update_self, after]
    split
    · rename_i same
      exact keeps (same ▸ before)
    · exact before

theorem put_fences (s : System Conn Manager) (c : Conn) (m : Manager) (db : Database Conn) (b : DuckTransaction) :
    (s.put c m db b).setFences c (s.sessions c).fences = s.put c m db b := by
  simp [System.put, System.setFences, System.setSession, System.setDatabase]

theorem put_moved (works : Reach (s.localAt m) ((s.localAt m).put c db b)) : Moved s (s.put c m db b) c m := by
  rw [← put_fences]
  refine fence_moved (s := s) (fun k => ?_) id id ?_
  · split
    · rename_i same
      rw [same]
    · rfl
  · have fence_self : Function.update (s.localAt m).fence c (fenceOf (s.sessions c).fences m) = (s.localAt m).fence :=
      Function.update_eq_self c (s.localAt m).fence
    rw [fence_self]
    exact works

theorem put_session (s : System Conn Manager) (c : Conn) (m : Manager) (db : Database Conn) (b : DuckTransaction) :
    ((s.put c m db b).sessions c).fences = (s.sessions c).fences ∧
      ((s.put c m db b).sessions c).branches m = some b := by
  simp [System.put, System.setSession]

omit [DecidableEq Manager] in
theorem setFences_branches (s : System Conn Manager) (c : Conn) (fences : List (HeldFence Manager)) :
    ((s.setFences c fences).sessions c).branches = (s.sessions c).branches := by
  simp [System.setFences, System.setSession]

theorem put_database (s : System Conn Manager) (c : Conn) (m : Manager) (db later : Database Conn) (b : DuckTransaction) :
    (s.put c m db b).setDatabase m later = s.put c m later b := by
  simp [System.put, System.setDatabase, System.setSession]

/-- The fence call leaves a fence of its database and takes no other key. -/
theorem acquireMaintenanceFence_spec (at_c : (s.sessions c).branches m = some b)
    (ran : acquireMaintenanceFence s c m b = some (t, next)) :
    Moved s t c m ∧ (t.sessions c).branches m = some next := by
  obtain ⟨⟨db, keyed⟩, taken, ran⟩ := Option.bind_eq_some_iff.mp ran
  obtain ⟨reach, same, _⟩ := setModifications_reach (l := s.localAt m) at_c taken
  dsimp only at ran
  split at ran
  · cases ran
    exact ⟨put_moved reach, (put_session s c m db next).2⟩
  · rename_i apart
    have unfenced : fenceOf (s.sessions c).fences m = none := by_contra fun fenced => apart (fenced_iff.mpr fenced)
    obtain ⟨lock, granted, eq⟩ := Option.map_eq_some_iff.mp ran
    cases eq
    refine ⟨fence_moved (fenceOf_acquire unfenced) acquire_distinct (by simp) (reach.trans (.single (.fence unfenced granted))), ?_⟩
    rw [setFences_branches]
    exact (put_session s c m _ next).2

/-- The barrier's key is out only where no other transaction held the checkpoint lock and
    nothing was committed since the snapshot. -/
theorem acquireCreationBarrier_spec {l : Local Conn} {answer : Except String (Lock Conn)} (at_c : l.branch c = some b)
    (ran : acquireCreationBarrier l.db c b = some (answer, db, next)) :
    Reach l (l.put c db next) ∧
      ∀ lock, answer = .ok lock → db.checkpointLock.tryUpgrade c = some lock ∧ db.lastCommit ≤ next.startTime := by
  rw [acquireCreationBarrier] at ran
  split at ran
  · cases ran
    exact ⟨by rw [put_self at_c], fun lock out => by cases out⟩
  · obtain ⟨⟨keyed, b'⟩, taken, same⟩ := Option.map_eq_some_iff.mp ran
    have reach := (setModifications_reach at_c taken).1
    dsimp only at same
    split at same
    · cases same
      exact ⟨reach, fun lock out => by cases out⟩
    · rename_i lock upgraded
      split at same
      · cases same
        exact ⟨reach, fun lock out => by cases out⟩
      · rename_i current
        cases same
        refine ⟨reach, fun other out => ?_⟩
        cases out
        exact ⟨upgraded, Nat.le_of_not_lt current⟩

theorem checkPreparedCreate_spec {names : CreationNames} {refusal : Option String} {answer : Except String Unit}
    (at_c : (s.sessions c).branches m = some b)
    (ran : checkPreparedCreate s c m b names refusal = some (answer, t)) :
    Moved s t c m ∧ (t.sessions c).branches m ≠ none := by
  obtain ⟨⟨barrier, db, next⟩, taken, same⟩ := Option.map_eq_some_iff.mp ran
  obtain ⟨reach, granted⟩ := acquireCreationBarrier_spec (l := s.localAt m) at_c taken
  obtain ⟨fences_same, branch⟩ := put_session s c m db next
  have refused : Moved s (s.put c m db next) c m ∧ ((s.put c m db next).sessions c).branches m ≠ none :=
    ⟨put_moved reach, by simp [branch]⟩
  dsimp only at same
  split at same
  · cases same
    exact refused
  · cases same
    exact refused
  · rename_i lock
    split at same
    · cases same
      exact refused
    · rename_i fences held
      cases same
      rw [fences_same] at held
      obtain ⟨fenced, managers, after⟩ := holdCreationBarrier_spec held
      obtain ⟨upgraded, current⟩ := granted lock rfl
      rw [put_database]
      refine ⟨fence_moved after (fun distinct => managers ▸ distinct) (by simp) (reach.trans (.single ?_)), ?_⟩
      · exact .hold (l := (s.localAt m).put c db next) put_at fenced upgraded current
      · rw [setFences_branches]
        simp [(put_session s c m _ next).2]

theorem maintenanceGuard_spec {call : GuardCall} {answer : Except String Unit}
    (at_c : (s.sessions c).branches m = some b) (ran : maintenanceGuard s c m b call = some (answer, t)) :
    Moved s t c m ∧ (t.sessions c).branches m ≠ none := by
  cases call with
  | check =>
    obtain ⟨⟨fenced, next⟩, acquired, same⟩ := Option.map_eq_some_iff.mp ran
    cases same
    obtain ⟨moved, branch⟩ := acquireMaintenanceFence_spec at_c acquired
    exact ⟨moved, by simp [branch]⟩
  | create names refusal =>
    obtain ⟨⟨fenced, next⟩, acquired, ran⟩ := Option.bind_eq_some_iff.mp ran
    obtain ⟨moved, branch⟩ := acquireMaintenanceFence_spec at_c acquired
    obtain ⟨later, still⟩ := checkPreparedCreate_spec branch ran
    exact ⟨moved_trans moved later, still⟩

theorem creationFinish_spec {call : CreationNames} (at_c : (s.sessions c).branches m = some b)
    (distinct : ((s.sessions c).fences.map HeldFence.manager).Nodup) :
    Moved s (creationFinish s c m b call).2 c m ∧ ((creationFinish s c m b call).2.sessions c).branches m ≠ none := by
  have refused : Moved s s c m ∧ (s.sessions c).branches m ≠ none :=
    ⟨⟨.refl, fun _ _ => rfl, fun _ _ => rfl, rfl, rfl, id, fun _ => id⟩, by simp [at_c]⟩
  rw [creationFinish]
  dsimp only
  split
  · exact refused
  · rename_i known
    split
    · exact refused
    · rename_i fences finished
      obtain ⟨managers, held, held_by, finishes, after⟩ := finishCreation_spec distinct finished
      refine ⟨fence_moved after (fun distinct => managers ▸ distinct) (by simp) (.single ?_), ?_⟩
      · exact .finish at_c held_by (.finish (content_at at_c) held_by finishes.named finishes.replaced (not_not.mp known))
      · rw [setFences_branches]
        simp [(put_session s c m _ _).2]

theorem reach_kept {l k : Local Conn} (reach : Reach l k) (keys : Keys l) (sound : Sound l.content) :
    Keys k ∧ Sound k.content ∧ k.db.vacuums = l.db.vacuums := by
  induction reach with
  | refl => exact ⟨keys, sound, rfl⟩
  | tail _ step ih =>
    obtain ⟨keys, sound, quiet⟩ := ih
    have changed := local_content keys step
    exact ⟨local_keys keys step, content_step sound changed, (content_vacuums changed).trans quiet⟩

structure Linked (s : System Conn Manager) : Prop where
  keys : ∀ m, Keys (s.localAt m)
  sound : ∀ m, Sound (s.localAt m).content
  seated : ∀ c, Seated (s.sessions c)

/-- What a step of the connection owes: each database sees legal steps only, and the other
    connections see none. -/
structure Steps (s t : System Conn Manager) (c : Conn) : Prop where
  reach : ∀ m, Reach (s.localAt m) (t.localAt m)
  others : ∀ d, d ≠ c → t.sessions d = s.sessions d
  seated : Seated (t.sessions c)

theorem steps_linked (linked : Linked s) (steps : Steps s t c) :
    Linked t ∧ ∀ m, (t.databases m).vacuums = (s.databases m).vacuums := by
  have kept := fun m => reach_kept (steps.reach m) (linked.keys m) (linked.sound m)
  refine ⟨⟨fun m => (kept m).1, fun m => (kept m).2.1, fun d => ?_⟩, fun m => (kept m).2.2⟩
  by_cases here : d = c
  · exact here ▸ steps.seated
  · exact (steps.others d here).symm ▸ linked.seated d

theorem moved_steps (linked : Linked s) (active : (s.sessions c).active = true) (moved : Moved s t c m)
    (branch : (t.sessions c).branches m ≠ none) : Steps s t c where
  reach k := by
    by_cases here : k = m
    · exact here ▸ moved.here
    · rw [moved.there k here]
  others := moved.others
  seated := by
    have seated := linked.seated c
    have now : (t.sessions c).active = true := moved.active.trans active
    refine ⟨moved.distinct seated.distinct, fun _ _ => now, fun _ _ => now, fun _ => now, fun open_still k fenced => ?_⟩
    by_cases here : k = m
    · exact here ▸ branch
    · have same := moved.there k here
      have branch_same : (t.sessions c).branches k = (s.sessions c).branches k := congrFun (congrArg Local.branch same) c
      have fence_same : fenceOf (t.sessions c).fences k = fenceOf (s.sessions c).fences k :=
        congrFun (congrArg Local.fence same) c
      rw [branch_same]
      rw [fence_same] at fenced
      exact seated.fence_branch (moved.ending.symm.trans open_still) k fenced

omit [DecidableEq Conn] [DecidableEq Manager] in
theorem openBranch_spec (taken : s.openBranch c m = some b) :
    (s.sessions c).ending = false ∧ (s.sessions c).branches m = some b := by
  rw [System.openBranch, Option.ite_none_left_eq_some] at taken
  exact ⟨by simpa using taken.1, taken.2⟩

omit [DecidableEq Conn] in
theorem branch_active (linked : Linked s) (at_c : (s.sessions c).branches m = some b) : (s.sessions c).active = true :=
  (linked.seated c).branch_active m (by simp [at_c])

/-- The end of a transaction in one database leaves its fences. -/
theorem leave_steps (linked : Linked s) (at_c : (s.sessions c).branches m = some b)
    (leaves : Reach (s.localAt m) ⟨db, Function.update (s.localAt m).branch c none, (s.localAt m).fence⟩) :
    Steps s ((s.setDatabase m db).leave c m) c where
  reach k := by
    rw [System.leave]
    by_cases here : k = m
    · subst here
      rw [localAt_here]
      have fence_self : Function.update (s.localAt k).fence c (fenceOf (s.sessions c).fences k) = (s.localAt k).fence :=
        Function.update_eq_self c (s.localAt k).fence
      simpa [System.setDatabase, fence_self] using leaves
    · have same : ((s.setDatabase m db).leave c m).localAt k = s.localAt k :=
        localAt_there here (by simp [System.setDatabase, here]) rfl
      rw [System.leave] at same
      rw [same]
  others d apart := by simp [System.leave, System.setSession, System.setDatabase, apart]
  seated := by
    have seated := linked.seated c
    have active := branch_active linked at_c
    have now : (((s.setDatabase m db).leave c m).sessions c).active = true := by
      simpa [System.leave, System.setSession, System.setDatabase] using active
    refine ⟨?_, fun _ _ => now, fun _ _ => now, fun _ => now, fun still => ?_⟩
    · simpa [System.leave, System.setSession, System.setDatabase] using seated.distinct
    · simp [System.leave, System.setSession] at still

theorem commit_reach {l : Local Conn} (at_c : l.branch c = some b) (ran : commit l.db c b = some db) :
    Reach l ⟨db, Function.update l.branch c none, l.fence⟩ := by
  rw [commit] at ran
  split at ran
  · obtain ⟨⟨key, main⟩, same⟩ := Option.ite_none_right_eq_some.mp ran
    cases same
    exact .single (.commit at_c key main)
  · rename_i nothing
    cases ran
    have unaltered : b.altered = [] := by
      simp only [Changes.made, Bool.or_eq_true, decide_eq_true_eq, not_or, not_not] at nothing
      exact nothing.1.1.2
    have rolled := LocalStep.rollback at_c
    have same : rollback l.db c b = l.db.dropKeys c := by
      simp [rollback, Store.rolledBack, unaltered, Database.dropKeys]
    rw [same] at rolled
    exact .single rolled

theorem ended_steps (idle : ∀ m, (s.sessions c).branches m = none) : Steps s (transactionEnd s c) c where
  reach m := by
    have ended : (transactionEnd s c).localAt m = ⟨releaseFence (s.databases m) c (fenceOf (s.sessions c).fences m),
        (s.localAt m).branch, Function.update (s.localAt m).fence c none⟩ := by
      simp only [System.localAt, transactionEnd, Local.mk.injEq, true_and]
      refine ⟨funext fun d => ?_, funext fun d => ?_⟩ <;> by_cases same : d = c
      · subst same
        simp [idle]
      · simp [same]
      · subst same
        simp [fenceOf]
      · simp [same]
    rw [ended]
    exact .single .unfence
  others d apart := by simp [transactionEnd, apart]
  seated := by
    have closed : (transactionEnd s c).sessions c = ⟨false, false, fun _ => none, []⟩ := by simp [transactionEnd]
    rw [closed]
    exact ⟨List.nodup_nil, fun _ some_branch => absurd rfl some_branch, fun _ fenced => absurd rfl fenced, id,
      fun _ _ fenced => absurd rfl fenced⟩

theorem began_steps (linked : Linked s) : Steps s (s.setSession c { s.sessions c with active := true }) c where
  reach m := by
    rw [localAt_setSession]
    have branch_self : Function.update (s.localAt m).branch c ((s.sessions c).branches m) = (s.localAt m).branch :=
      Function.update_eq_self c (s.localAt m).branch
    have fence_self : Function.update (s.localAt m).fence c (fenceOf (s.sessions c).fences m) = (s.localAt m).fence :=
      Function.update_eq_self c (s.localAt m).fence
    rw [branch_self, fence_self]
    exact .refl
  others d apart := by simp [System.setSession, apart]
  seated := by
    have seated := linked.seated c
    simp only [System.setSession, Function.update_self]
    exact ⟨seated.distinct, fun _ _ => rfl, fun _ _ => rfl, fun _ => rfl, seated.fence_branch⟩

omit [DecidableEq Conn] in
theorem vacuumed_linked (linked : Linked s) (m : Manager) (count : Nat) :
    Linked (s.setDatabase m { s.databases m with vacuums := count }) := by
  have other (k : Manager) (apart : k ≠ m) :
      (s.setDatabase m { s.databases m with vacuums := count }).localAt k = s.localAt k := by
    simp [System.localAt, System.setDatabase, apart]
  have here : (s.setDatabase m { s.databases m with vacuums := count }).localAt m =
      ⟨{ s.databases m with vacuums := count }, (s.localAt m).branch, (s.localAt m).fence⟩ := by
    simp [System.localAt, System.setDatabase]
  refine ⟨fun k => ?_, fun k => ?_, linked.seated⟩ <;> by_cases same : k = m
  · rw [same, here]
    have keys := linked.keys m
    exact ⟨keys.write, keys.exclusive, keys.vacuum, keys.fence⟩
  · rw [other k same]
    exact linked.keys k
  · rw [same, here]
    exact vacuum_sound (linked.sound m) count
  · rw [other k same]
    exact linked.sound k

variable [Fintype Manager]

def Event.by : Event Conn Manager → Option Conn
  | .began c | .attached c _ | .worked c _ _ | .guarded c _ _ | .finished c _ _ | .committed c _ | .rolledBack c _
  | .ended c => some c
  | .vacuumed _ => none

theorem step_cases (linked : Linked s) {e : Event Conn Manager} (taken : step s e = some t) :
    (∃ c, Steps s t c ∧
      (e ≠ .ended c → ∀ k, fenceOf (s.sessions c).fences k ≠ none → fenceOf (t.sessions c).fences k ≠ none) ∧
      ∀ d, e = .ended d → d = c) ∨
    ∃ m count, e = .vacuumed m ∧ t = s.setDatabase m { s.databases m with vacuums := count } ∧
      ∀ c, fenceOf (s.sessions c).fences m = none := by
  cases e with
  | began c =>
    obtain ⟨idle, same⟩ := Option.ite_none_left_eq_some.mp taken
    cases same
    refine .inl ⟨c, began_steps linked, fun _ k fenced => ?_, fun d ended => by cases ended⟩
    simpa [System.setSession] using fenced
  | attached c m =>
    obtain ⟨⟨active, going, idle⟩, same⟩ := Option.ite_none_right_eq_some.mp taken
    cases same
    have unfenced : fenceOf (s.sessions c).fences m = none := by_contra fun fenced =>
      (linked.seated c).fence_branch (by simpa using going) m fenced idle
    have moved : Moved s (s.put c m { s.databases m with toStore := (s.databases m).started }
        ⟨(s.databases m).startTransaction, false, false⟩) c m := put_moved (.single (.attach idle fun held held_by => by
      have fence : (s.localAt m).fence c = none := unfenced
      rw [fence] at held_by
      cases held_by))
    exact .inl ⟨c, moved_steps linked active moved (by simp [(put_session s c m _ _).2]), fun _ => moved.fenced,
      fun d ended => by cases ended⟩
  | worked c m work =>
    obtain ⟨b, at_c, ran⟩ := Option.bind_eq_some_iff.mp taken
    obtain ⟨⟨db, next⟩, worked, same⟩ := Option.map_eq_some_iff.mp ran
    cases same
    obtain ⟨going, branch⟩ := openBranch_spec at_c
    have moved : Moved s (s.put c m db next) c m := put_moved (work_reach (l := s.localAt m) branch worked)
    exact .inl ⟨c, moved_steps linked (branch_active linked branch) moved (by simp [(put_session s c m _ _).2]),
      fun _ => moved.fenced, fun d ended => by cases ended⟩
  | guarded c m call =>
    obtain ⟨b, at_c, ran⟩ := Option.bind_eq_some_iff.mp taken
    obtain ⟨⟨answer, after⟩, guarded, same⟩ := Option.map_eq_some_iff.mp ran
    cases same
    obtain ⟨going, branch⟩ := openBranch_spec at_c
    obtain ⟨moved, still⟩ := maintenanceGuard_spec branch guarded
    exact .inl ⟨c, moved_steps linked (branch_active linked branch) moved still, fun _ => moved.fenced,
      fun d ended => by cases ended⟩
  | finished c m call =>
    obtain ⟨b, at_c, same⟩ := Option.map_eq_some_iff.mp taken
    cases same
    obtain ⟨going, branch⟩ := openBranch_spec at_c
    obtain ⟨moved, still⟩ : Moved s (creationFinish s c m b call).2 c m ∧ _ :=
      creationFinish_spec branch (linked.seated c).distinct
    exact .inl ⟨c, moved_steps linked (branch_active linked branch) moved still, fun _ => moved.fenced,
      fun d ended => by cases ended⟩
  | committed c m =>
    obtain ⟨b, branch, ran⟩ := Option.bind_eq_some_iff.mp taken
    obtain ⟨db, committed, same⟩ := Option.map_eq_some_iff.mp ran
    cases same
    refine .inl ⟨c, leave_steps linked branch (commit_reach branch committed), fun _ k fenced => ?_,
      fun d ended => by cases ended⟩
    simpa [System.leave, System.setSession, System.setDatabase] using fenced
  | rolledBack c m =>
    obtain ⟨b, branch, same⟩ := Option.map_eq_some_iff.mp taken
    cases same
    refine .inl ⟨c, leave_steps linked branch (.single (.rollback branch)), fun _ k fenced => ?_,
      fun d ended => by cases ended⟩
    simpa [System.leave, System.setSession, System.setDatabase] using fenced
  | ended c =>
    obtain ⟨⟨active, idle⟩, same⟩ := Option.ite_none_right_eq_some.mp taken
    cases same
    exact .inl ⟨c, ended_steps idle, fun other => absurd rfl other, fun d ended => by cases ended; rfl⟩
  | vacuumed m =>
    obtain ⟨lock, granted, same⟩ := Option.map_eq_some_iff.mp taken
    cases same
    refine .inr ⟨m, _, rfl, rfl, fun c => by_contra fun fenced => ?_⟩
    have held := ((linked.keys m).fence c).mpr fenced
    have none_out : (s.localAt m).db.vacuumLock.shared = ∅ := (Lock.tryExclusive_spec granted).2
    rw [none_out] at held
    exact Finset.notMem_empty _ held

theorem step_linked (linked : Linked s) {e : Event Conn Manager} (taken : step s e = some t) : Linked t := by
  rcases step_cases linked taken with ⟨c, steps, _⟩ | ⟨m, count, _, rfl, _⟩
  · exact (steps_linked linked steps).1
  · exact vacuumed_linked linked m count

theorem fence_step (linked : Linked s) {e : Event Conn Manager} (taken : step s e = some t) (going : e ≠ .ended c)
    (fenced : fenceOf (s.sessions c).fences m ≠ none) :
    fenceOf (t.sessions c).fences m ≠ none ∧ (t.databases m).vacuums = (s.databases m).vacuums := by
  rcases step_cases linked taken with ⟨d, steps, keeps, owner⟩ | ⟨k, count, _, rfl, unfenced⟩
  · refine ⟨?_, (steps_linked linked steps).2 m⟩
    by_cases here : c = d
    · subst here
      exact keeps going m fenced
    · rw [steps.others c here]
      exact fenced
  · have apart : m ≠ k := fun same => fenced (same ▸ unfenced c)
    exact ⟨fenced, by simp [System.setDatabase, apart]⟩

theorem fence_run (linked : Linked s) {events : List (Event Conn Manager)} (run : exec step s events = some t)
    (going : .ended c ∉ events) (fenced : fenceOf (s.sessions c).fences m ≠ none) :
    (t.databases m).vacuums = (s.databases m).vacuums := by
  induction events generalizing s with
  | nil =>
    cases run
    rfl
  | cons e rest ih =>
    obtain ⟨middle, first, later⟩ := exec_cons_iff.mp run
    obtain ⟨before, after⟩ := not_or.mp (List.mem_cons.not.mp going)
    obtain ⟨still, quiet⟩ := fence_step linked first (Ne.symm before) fenced
    exact (ih (step_linked linked first) later after still).trans quiet

omit [Fintype Manager] [DecidableEq Conn] in
theorem opened_linked {guards : Manager → TableName → List String} {issued : Manager → List String}
    (known : ∀ m t, guards m t ⊆ issued m) : Linked (System.opened guards issued : System Conn Manager) where
  keys m := by constructor <;> simp [System.localAt, System.opened, Lock.free, fenceOf]
  sound m := by
    refine ⟨⟨?_, ?_, fun t g listed => known m t listed, ?_, ?_, ?_⟩, ?_, ?_, ?_, ?_⟩ <;>
      simp [Local.content, System.localAt, System.opened]
  seated c := by constructor <;> simp [System.opened, fenceOf]

theorem run_linked {events : List (Event Conn Manager)} (run : exec step s events = some t) (linked : Linked s) :
    Linked t :=
  exec_invariant (fun _ _ _ linked taken => step_linked linked taken) run linked

structure Protected (s : System Conn Manager) : Prop where
  owner : ∀ m c, ownsCreationBarrier m (s.sessions c).fences = true ↔ (s.databases m).checkpointLock.exclusive = some c
  excluded : ∀ m c d b, ownsCreationBarrier m (s.sessions c).fences = true → d ≠ c →
    (s.sessions d).branches m = some b → b.writeLock = false
  current : ∀ m c b, ownsCreationBarrier m (s.sessions c).fences = true → (s.sessions c).branches m = some b →
    (s.databases m).lastCommit ≤ b.startTime
  covered : ∀ m, ∀ r ∈ (s.databases m).creations, r.live (s.databases m).toStore → Covered (s.databases m).toStore r
  ended : ∀ c, (s.sessions c).active = false → ∀ m, c ∉ (s.databases m).checkpointLock.shared ∧
    (s.databases m).checkpointLock.exclusive ≠ some c ∧ .transaction c ∉ (s.databases m).vacuumLock.shared ∧
    .fence c ∉ (s.databases m).vacuumLock.shared

omit [Fintype Manager] [DecidableEq Conn] in
theorem linked_protected (linked : Linked s) : Protected s := by
  have owner (m : Manager) (c : Conn) : ownsCreationBarrier m (s.sessions c).fences = true ↔
      (s.databases m).checkpointLock.exclusive = some c :=
    (owns_iff (linked.seated c).distinct).trans ((linked.keys m).exclusive c).symm
  refine ⟨owner, fun m c d b owns apart at_d => ?_, fun m c b owns at_c => ?_, fun m => (linked.sound m).covered,
    fun c closed m => ⟨fun shared => ?_, fun out => ?_, fun held => ?_, fun held => ?_⟩⟩
  · by_contra writes
    have shared := ((linked.keys m).write d).mpr ⟨b, at_d, by simpa using writes⟩
    exact apart (Lock.shared_alone ((owner m c).mp owns) shared)
  · obtain ⟨held, held_by⟩ := (owns_iff (linked.seated c).distinct).mp owns
    have here : (s.localAt m).content.branch c = some b.toChanges := content_at at_c
    exact ((linked.sound m).held c b.toChanges held here held_by).current
  all_goals have inactive : ¬ (s.sessions c).active = true := by simp [closed]
  · obtain ⟨b, at_c, _⟩ := ((linked.keys m).write c).mp shared
    exact inactive ((linked.seated c).branch_active m (by rw [show (s.sessions c).branches m = some b from at_c]; simp))
  · obtain ⟨held, held_by⟩ := ((linked.keys m).exclusive c).mp out
    exact inactive ((linked.seated c).fence_active m (by rw [show fenceOf (s.sessions c).fences m = some (some held) from held_by]; simp))
  · obtain ⟨b, at_c, _⟩ := ((linked.keys m).vacuum c).mp held
    exact inactive ((linked.seated c).branch_active m (by rw [show (s.sessions c).branches m = some b from at_c]; simp))
  · exact inactive ((linked.seated c).fence_active m (((linked.keys m).fence c).mp held))

/-- A connection that closes rolls its transaction back in one database after another. -/
theorem rolls_back (s : System Conn Manager) (c : Conn) (managers : List Manager) :
    ∃ events u, (∀ e ∈ events, ∃ m, e = .rolledBack c m) ∧ exec step s events = some u ∧
      (u.sessions c).active = (s.sessions c).active ∧
      ∀ m, (u.sessions c).branches m = if m ∈ managers then none else (s.sessions c).branches m := by
  induction managers generalizing s with
  | nil => exact ⟨[], s, by simp, rfl, rfl, by simp⟩
  | cons m rest ih =>
    cases at_c : (s.sessions c).branches m with
    | none =>
      obtain ⟨events, u, all, run, active, branches⟩ := ih s
      refine ⟨events, u, all, run, active, fun k => (branches k).trans ?_⟩
      by_cases here : k = m
      · simp [here, at_c]
      · simp [here]
    | some b =>
      let left := (s.setDatabase m (rollback (s.databases m) c b)).leave c m
      have first : step s (.rolledBack c m) = some left := by simp [step, at_c, left]
      obtain ⟨events, u, all, run, active, branches⟩ := ih left
      refine ⟨.rolledBack c m :: events, u, List.forall_mem_cons.mpr ⟨⟨m, rfl⟩, all⟩,
        exec_cons_iff.mpr ⟨left, first, run⟩, active.trans ?_, fun k => (branches k).trans ?_⟩
      · simp [left, System.leave, System.setSession, System.setDatabase]
      · by_cases here : k = m
        · simp [here, left, System.leave, System.setSession]
        · simp [here, left, System.leave, System.setSession, System.setDatabase]

theorem can_end (s : System Conn Manager) (active : (s.sessions c).active = true) :
    ∃ events u, (∀ e ∈ events, e = .ended c ∨ ∃ m, e = .rolledBack c m) ∧ exec step s events = some u ∧
      (u.sessions c).active = false := by
  obtain ⟨events, u, all, run, still, branches⟩ := rolls_back s c Finset.univ.toList
  have idle : ∀ m, (u.sessions c).branches m = none := by simp [branches]
  have last : step u (.ended c) = some (transactionEnd u c) := if_pos ⟨still.trans active, idle⟩
  refine ⟨events ++ [.ended c], transactionEnd u c, fun e listed => ?_, exec_snoc_iff.mpr ⟨u, run, last⟩, ?_⟩
  · rcases List.mem_append.mp listed with before | now
    · exact .inr (all e before)
    · exact .inl (List.mem_singleton.mp now)
  · simp [transactionEnd]

/-- Whatever transactions of any connections do and in whatever order: the barrier of a
    database has one owner, next to it no other transaction holds the checkpoint lock and
    nothing was committed since the owner's snapshot; a guard that is still on its table was
    told of every write that its creator neither saw nor made; no vacuum runs between a
    fence and the end of its transaction; and each connection can end, which frees its keys. -/
theorem creation_barrier_protocol {guards : Manager → TableName → List String} {issued : Manager → List String}
    (known : ∀ m t, guards m t ⊆ issued m) {events : List (Event Conn Manager)}
    (run : exec step (System.opened guards issued) events = some s) :
    Protected s ∧
      (∀ (c : Conn) (m : Manager) (later : List (Event Conn Manager)) (u : System Conn Manager),
        fenceOf (s.sessions c).fences m ≠ none → exec step s later = some u → .ended c ∉ later →
          (u.databases m).vacuums = (s.databases m).vacuums) ∧
      ∀ c : Conn, (s.sessions c).active = true → ∃ rest u, (∀ e ∈ rest, e = .ended c ∨ ∃ m, e = .rolledBack c m) ∧
        exec step s rest = some u ∧ (u.sessions c).active = false ∧ Protected u := by
  have linked := run_linked run (opened_linked known)
  refine ⟨linked_protected linked, fun c m later u fenced later_run going => fence_run linked later_run going fenced,
    fun c active => ?_⟩
  obtain ⟨rest, u, all, later_run, ended⟩ := can_end s active
  exact ⟨rest, u, all, later_run, ended, linked_protected (run_linked later_run linked)⟩

end System

section Example

def logs : TableName := tableName "main" "logs"

def firstIndex : CreationNames := ⟨"main", "LOGS", "body", "__ngram_guard_1"⟩

/-- A writer stages a row before the first index is created and has to roll back; a later
    one tells the guard. -/
def createdRun : List (Event Bool Unit) :=
  [.began true, .attached true (), .worked true () (.write .insert logs),
    .began false, .attached false (), .guarded false () (.create firstIndex none),
    .worked false () (.replaceStorage logs), .worked false () (.replaceStorage logs),
    .worked false () (.createGuard logs "__ngram_guard_1"), .finished false () firstIndex,
    .rolledBack true (), .ended true, .committed false (), .ended false,
    .began true, .attached true (), .worked true () (.write .update logs), .committed true (), .ended true]

theorem later_writer_told : ∃ s, exec step (System.opened (fun _ _ => []) fun _ => []) createdRun = some s ∧
    Covered (s.databases ()).toStore ⟨logs, "__ngram_guard_1", 1, 1⟩ ∧ (s.databases ()).log.length = 1 := by
  have described : (exec step (System.opened (fun _ _ => []) fun _ => []) createdRun).map (fun s =>
      ((s.databases ()).creations, ((s.databases ()).views logs).guards, (s.databases ()).log.length)) =
        some ([⟨logs, "__ngram_guard_1", 1, 1⟩], ["__ngram_guard_1"], 1) := by decide +kernel
  obtain ⟨s, run, same⟩ := Option.map_eq_some_iff.mp described
  obtain ⟨creations, rest⟩ := Prod.mk.inj same
  obtain ⟨guards, log⟩ := Prod.mk.inj rest
  have safe := (creation_barrier_protocol (fun _ _ => List.nil_subset _) run).1
  refine ⟨s, run, safe.covered () _ ?_ ?_, log⟩
  · simp [creations]
  · simp [Creation.live, guards]

end Example

end NgramCreationBarrier
