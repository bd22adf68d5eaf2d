import NgramIndex.CreationBarrier

/- What transactions change in one database while others hold fences and the barrier, apart
   from the keys that let them act. A finished creation has its table to itself until it
   commits, and from then on every plan for the table knows its guard. -/
namespace NgramCreationBarrier
open NgramGram
variable {Conn Manager : Type}

section Content

def Creation.live (r : Creation) (store : Store) : Prop := r.guardName ∈ (store.views r.table).guards

/-- The transaction's plans on the table still go to the main storage or to the committed one. -/
def Changes.current (b : Changes) (store : Store) (table : TableName) : Prop :=
  (b.views table).generation = store.main table ∨ (b.views table).generation = (store.views table).generation

/-- What the transaction writes to the table, now and at its commit, the guard is told. -/
def Changes.tells (b : Changes) (r : Creation) : Prop :=
  (r.table, r.guardName) ∈ b.droppedGuards ∨
    r.guardName ∈ (b.views r.table).guards ∧ ∀ w ∈ b.staged, w.table.name = r.table → r.guardName ∈ w.guards

structure Base (store : Store) : Prop where
  main_fresh : ∀ t, store.main t < store.generations
  views_fresh : ∀ t, (store.views t).generation < store.generations
  views_issued : ∀ t, ∀ g ∈ (store.views t).guards, g ∈ store.issued
  creations_issued : ∀ r ∈ store.creations, r.guardName ∈ store.issued
  log_stamps : ∀ w ∈ store.log, w.commitId ≤ store.lastCommit
  clock : store.lastCommit ≤ store.timestamp

/-- What holds of each transaction by itself. -/
structure Own (store : Store) (b : Changes) : Prop where
  view_fresh : ∀ t, (b.views t).generation < store.generations
  staged_view : ∀ w ∈ b.staged, w.table.generation = (b.views w.table.name).generation
  altered_main : ∀ t ∈ b.altered, (b.views t).generation = store.main t
  altered_views : ∀ t ∈ b.altered, (store.views t).generation ≠ store.main t
  views_issued : ∀ t, ∀ g ∈ (b.views t).guards, g ∈ store.issued
  added_issued : ∀ p ∈ b.addedGuards, p.2 ∈ store.issued
  added_new : ∀ p ∈ b.addedGuards, p.2 ∉ (store.views p.1).guards ∧ ∀ r ∈ store.creations, (r.table, r.guardName) ≠ p
  finished_altered : ∀ p ∈ b.finished, p.1 ∈ b.altered
  finished_issued : ∀ p ∈ b.finished, p.2 ∈ store.issued
  finished_alone : ∀ p ∈ b.finished, ∀ w ∈ store.log, w.table.name = p.1 → w.commitId ≤ b.startTime
  observed : ∀ r ∈ store.creations, r.live store → b.current store r.table → b.tells r

/-- What one transaction has not committed is unknown to another. -/
structure Apart (store : Store) (b e : Changes) : Prop where
  storage : ∀ t ∈ e.altered, (b.views t).generation ≠ store.main t
  guards : ∀ p ∈ e.addedGuards, p.2 ∉ (b.views p.1).guards ∧ p ∉ b.addedGuards ∧ b.finished ≠ some p

structure Held (store : Store) (b : Changes) (held : HeldCreation) : Prop where
  owner : held.transactionId = b.transactionId
  current : store.lastCommit ≤ b.startTime
  named : held.table.name = tableName held.schemaName held.tableName
  replaced : held.table.name ∉ b.altered → b.storage held.table.name = held.table

/-- Every write to the table was in the creator's snapshot, is the creator's, or was told
    to the guard. -/
def Covered (store : Store) (r : Creation) : Prop :=
  ∀ w ∈ store.log, w.table.name = r.table →
    w.commitId ≤ r.startTime ∨ w.transactionId = r.transactionId ∨ r.guardName ∈ w.guards

/-- One database as the transactions and fences of all connections share it. -/
structure Content (Conn : Type) where
  store : Store
  branch : Conn → Option Changes
  fence : Conn → Option (Option HeldCreation)

structure Sound (l : Content Conn) : Prop where
  base : Base l.store
  own : ∀ c b, l.branch c = some b → Own l.store b
  apart : ∀ c d b e, c ≠ d → l.branch c = some b → l.branch d = some e → Apart l.store b e
  held : ∀ c b held, l.branch c = some b → l.fence c = some (some held) → Held l.store b held
  covered : ∀ r ∈ l.store.creations, r.live l.store → Covered l.store r

variable {l : Content Conn} {store next : Store} {b e : Changes}

theorem replaced_views (b : Changes) (new : DataTable) (t : TableName) :
    ((b.replaced new).views t).guards = (b.views t).guards ∧
      ((b.replaced new).views t).generation = if t = new.name then new.generation else (b.views t).generation := by
  by_cases here : t = new.name
  · subst here
    simp [Changes.replaced]
  · simp [Changes.replaced, here]

/-- An ALTER of a table that is its transaction's main storage meets no other uncommitted one. -/
theorem replace_alone {c d : Conn} (sound : Sound l) (at_c : l.branch c = some b) {table : TableName}
    (main : l.store.isMainTable (b.storage table) = true) (apart : d ≠ c) (at_d : l.branch d = some e) :
    table ∉ e.altered := by
  intro altered
  have here : l.store.main table = (b.views table).generation := of_decide_eq_true main
  exact (sound.apart c d b e apart.symm at_c at_d).storage table altered here.symm

theorem replaced_main (store : Store) (table t : TableName) :
    (store.replaced table).main t = if t = table then store.generations else store.main t := by
  by_cases here : t = table
  · subst here
    simp [Store.replaced]
  · simp [Store.replaced, here]

theorem replace_own (base : Base store) (own : Own store b) {table : TableName}
    (main : store.isMainTable (b.storage table) = true) :
    Own (store.replaced table) (b.replaced ⟨table, store.generations⟩) := by
  have here : store.main table = (b.views table).generation := of_decide_eq_true main
  have views := replaced_views b ⟨table, store.generations⟩
  refine ⟨?_, ?_, ?_, ?_, ?_, own.added_issued, own.added_new, ?_, own.finished_issued, own.finished_alone, ?_⟩
  · intro t
    rw [(views t).2]
    split
    · exact Nat.lt_succ_self _
    · exact Nat.lt_succ_of_lt (own.view_fresh t)
  · intro w staged
    obtain ⟨before, listed, rfl⟩ := List.mem_map.mp staged
    by_cases moves : before.table.name = table
    · simp [StagedWrite.moved, moves, views]
    · simpa [StagedWrite.moved, moves, views] using own.staged_view before listed
  · intro t altered
    rw [(views t).2, replaced_main]
    split
    · rfl
    · rename_i other
      exact own.altered_main t ((List.mem_cons.mp altered).resolve_left other)
  · intro t altered
    rw [replaced_main]
    split
    · exact Nat.ne_of_lt (base.views_fresh t)
    · rename_i other
      exact own.altered_views t ((List.mem_cons.mp altered).resolve_left other)
  · intro t g listed
    rw [(views t).1] at listed
    exact own.views_issued t g listed
  · exact fun p done => List.mem_cons_of_mem _ (own.finished_altered p done)
  · intro r listed live current
    have before : b.current store r.table := by
      by_cases same : r.table = table
      · exact .inl (same ▸ here.symm)
      · rw [Changes.current, (views r.table).2, replaced_main, if_neg same, if_neg same] at current
        exact current
    rcases own.observed r listed live before with dropped | ⟨seen, told⟩
    · exact .inl dropped
    · refine .inr ⟨(views r.table).1.symm ▸ seen, fun w staged there => ?_⟩
      obtain ⟨old, listed, rfl⟩ := List.mem_map.mp staged
      by_cases moves : old.table.name = table
      · simp only [StagedWrite.moved, if_pos moves] at there ⊢
        exact told old listed (moves.trans there)
      · simp only [StagedWrite.moved, if_neg moves] at there ⊢
        exact told old listed there

/-- The other transactions never saw the new storage. -/
theorem replace_others {c d : Conn} (sound : Sound l) (at_c : l.branch c = some b) {table : TableName}
    (main : l.store.isMainTable (b.storage table) = true) (apart : d ≠ c) (at_d : l.branch d = some e) :
    Own (l.store.replaced table) e := by
  have own := sound.own d e at_d
  have untouched := replace_alone sound at_c main apart at_d
  refine { own with view_fresh := ?_, altered_main := ?_, altered_views := ?_, observed := ?_ }
  · exact fun t => Nat.lt_succ_of_lt (own.view_fresh t)
  · intro t altered
    rw [replaced_main, if_neg fun same : t = table => untouched (same ▸ altered)]
    exact own.altered_main t altered
  · intro t altered
    rw [replaced_main, if_neg fun same : t = table => untouched (same ▸ altered)]
    exact own.altered_views t altered
  · intro r listed live current
    rw [Changes.current, replaced_main] at current
    refine own.observed r listed live ?_
    split at current
    · exact .inr (current.resolve_left (Nat.ne_of_lt (own.view_fresh r.table)))
    · exact current

variable [DecidableEq Conn] {c : Conn}

/-- What one step can do to a database, with the guards it passed. -/
inductive ContentStep (l : Content Conn) : Content Conn → Prop where
  | same : ContentStep l l
  | attach {c : Conn} (idle : l.branch c = none) (bare : ∀ held, l.fence c ≠ some (some held)) :
      ContentStep l ⟨l.store.started, Function.update l.branch c (some l.store.startTransaction), l.fence⟩
  | write {c : Conn} {b : Changes} {kind : WriteKind} {table : TableName} (at_c : l.branch c = some b) :
      ContentStep l ⟨l.store, Function.update l.branch c (some (b.wrote kind table)), l.fence⟩
  | replace {c : Conn} {b : Changes} {table : TableName} (at_c : l.branch c = some b)
      (main : l.store.isMainTable (b.storage table) = true) :
      ContentStep l ⟨l.store.replaced table,
        Function.update l.branch c (some (b.replaced ⟨table, l.store.generations⟩)), l.fence⟩
  | addGuard {c : Conn} {b : Changes} {table : TableName} {guardName : String} (at_c : l.branch c = some b)
      (fresh : guardName ∉ l.store.issued) :
      ContentStep l ⟨l.store.issue guardName, Function.update l.branch c (some (b.guarded table guardName)), l.fence⟩
  | dropGuard {c : Conn} {b : Changes} {table : TableName} {guardName : String} (at_c : l.branch c = some b) :
      ContentStep l ⟨l.store, Function.update l.branch c (some (b.unguarded table guardName)), l.fence⟩
  | fence {c : Conn} {fence : Option (Option HeldCreation)} (bare : ∀ held, fence ≠ some (some held)) :
      ContentStep l ⟨l.store, l.branch, Function.update l.fence c fence⟩
  | hold {c : Conn} {b : Changes} {names : CreationNames} (at_c : l.branch c = some b)
      (current : l.store.lastCommit ≤ b.startTime) :
      ContentStep l ⟨l.store, l.branch, Function.update l.fence c (some (some (heldCreation b names)))⟩
  | finish {c : Conn} {b : Changes} {call : CreationNames} {held : HeldCreation} (at_c : l.branch c = some b)
      (held_by : l.fence c = some (some held)) (named : held.names call = true)
      (replaced : held.table ≠ b.storage (tableName call.schemaName call.tableName))
      (installed : call.guardName ∈ (b.views (tableName call.schemaName call.tableName)).guards) :
      ContentStep l ⟨l.store,
        Function.update l.branch c (some (b.finish (tableName call.schemaName call.tableName) call.guardName)),
        Function.update l.fence c (some none)⟩
  | commit {c : Conn} {b : Changes} (at_c : l.branch c = some b)
      (main : ∀ w ∈ b.staged, l.store.isMainTable w.table = true)
      (alone : ∀ d, d ≠ c → ∀ held, l.fence d ≠ some (some held)) :
      ContentStep l ⟨l.store.committed b, Function.update l.branch c none, l.fence⟩
  | rollback {c : Conn} {b : Changes} (at_c : l.branch c = some b) :
      ContentStep l ⟨l.store.rolledBack b, Function.update l.branch c none, l.fence⟩

theorem update_cases {α : Type} {f : Conn → Option α} {d : Conn} {x : Option α} {a : α}
    (found : Function.update f c x d = some a) : d = c ∧ x = some a ∨ d ≠ c ∧ f d = some a := by
  by_cases same : d = c
  · subst same
    exact .inl ⟨rfl, by simpa using found⟩
  · exact .inr ⟨same, by simpa [Function.update_of_ne same] using found⟩

/-- A step that changes one transaction and the store, seen from the others. -/
theorem sound_branch {new : Option Changes} (base : Base next) (own : ∀ b, new = some b → Own next b)
    (others : ∀ d e, d ≠ c → l.branch d = some e → Own next e)
    (between : ∀ d f e g, d ≠ c → f ≠ c → d ≠ f → l.branch d = some e → l.branch f = some g → Apart next e g)
    (towards : ∀ d b e, d ≠ c → new = some b → l.branch d = some e → Apart next b e ∧ Apart next e b)
    (held : ∀ b held, new = some b → l.fence c = some (some held) → Held next b held)
    (helds : ∀ d e held, d ≠ c → l.branch d = some e → l.fence d = some (some held) → Held next e held)
    (covered : ∀ r ∈ next.creations, r.live next → Covered next r) :
    Sound ⟨next, Function.update l.branch c new, l.fence⟩ where
  base := base
  own d e at_d := by
    rcases update_cases at_d with ⟨rfl, here⟩ | ⟨apart, there⟩
    · exact own e here
    · exact others d e apart there
  apart d f e g apart at_d at_f := by
    rcases update_cases at_d with ⟨rfl, here⟩ | ⟨apart_d, there⟩
    · rcases update_cases at_f with ⟨rfl, _⟩ | ⟨apart_f, there⟩
      · exact absurd rfl apart
      · exact (towards f e g apart_f here there).1
    · rcases update_cases at_f with ⟨rfl, here⟩ | ⟨apart_f, other⟩
      · exact (towards d g e apart_d here there).2
      · exact between d f e g apart_d apart_f apart there other
  held d e creation at_d held_d := by
    rcases update_cases at_d with ⟨rfl, here⟩ | ⟨apart, there⟩
    · exact held e creation here held_d
    · exact helds d e creation apart there held_d
  covered := covered

/-- A step of one transaction that leaves the store as it is. -/
theorem sound_changes (sound : Sound l) (at_c : l.branch c = some b) {next : Changes}
    (own : Own l.store b → Own l.store next)
    (towards : ∀ e, Apart l.store b e → Apart l.store e b → Apart l.store next e ∧ Apart l.store e next)
    (held : ∀ held, Held l.store b held → Held l.store next held) :
    Sound ⟨l.store, Function.update l.branch c (some next), l.fence⟩ := by
  refine sound_branch sound.base ?_ (fun d e _ at_d => sound.own d e at_d)
    (fun d f e g _ _ apart at_d at_f => sound.apart d f e g apart at_d at_f) ?_ ?_
    (fun d e creation _ at_d held_d => sound.held d e creation at_d held_d) sound.covered
  · intro new here
    cases here
    exact own (sound.own c b at_c)
  · intro d new e apart here at_d
    cases here
    exact towards e (sound.apart c d b e apart.symm at_c at_d) (sound.apart d c e b apart at_d at_c)
  · intro new creation here held_c
    cases here
    exact held creation (sound.held c b creation at_c held_c)

theorem attach_sound (sound : Sound l) (bare : ∀ held, l.fence c ≠ some (some held)) :
    Sound ⟨l.store.started, Function.update l.branch c (some l.store.startTransaction), l.fence⟩ := by
  obtain ⟨main_fresh, views_fresh, views_issued, creations_issued, log_stamps, clock⟩ := sound.base
  refine sound_branch ⟨main_fresh, views_fresh, views_issued, creations_issued, log_stamps, Nat.le_succ_of_le clock⟩
    ?_ (fun d e _ at_d => ?_) (fun d f e g _ _ apart at_d at_f => ?_) ?_ ?_
    (fun d e creation _ at_d held_d => ?_) sound.covered
  · intro new here
    cases here
    refine ⟨views_fresh, ?_, ?_, ?_, views_issued, ?_, ?_, ?_, ?_, ?_, fun r _ live _ => .inr ⟨live, ?_⟩⟩ <;>
      simp [Store.startTransaction]
  · obtain ⟨h1, h2, h3, h4, h5, h6, h7, h8, h9, h10, h11⟩ := sound.own d e at_d
    exact ⟨h1, h2, h3, h4, h5, h6, h7, h8, h9, h10, h11⟩
  · obtain ⟨storage, guards⟩ := sound.apart d f e g apart at_d at_f
    exact ⟨storage, guards⟩
  · intro d new e apart here at_d
    cases here
    have own := sound.own d e at_d
    refine ⟨⟨fun t altered => own.altered_views t altered, fun p added => ⟨(own.added_new p added).1, ?_, ?_⟩⟩, ?_, ?_⟩ <;>
      simp [Store.startTransaction]
  · intro new creation here held_c
    exact absurd held_c (bare creation)
  · obtain ⟨owner, current, named, replaced⟩ := sound.held d e creation at_d held_d
    exact ⟨owner, current, named, replaced⟩

theorem write_sound (sound : Sound l) (at_c : l.branch c = some b) (kind : WriteKind) (table : TableName) :
    Sound ⟨l.store, Function.update l.branch c (some (b.wrote kind table)), l.fence⟩ := by
  refine sound_changes sound at_c (fun own => ?_) (fun e here there => ⟨⟨here.storage, here.guards⟩, there.storage, there.guards⟩)
    (fun held creation => ⟨creation.owner, creation.current, creation.named, creation.replaced⟩)
  refine { own with staged_view := ?_, observed := ?_ }
  · intro w staged
    rcases List.mem_append.mp staged with before | new
    · exact own.staged_view w before
    · cases List.mem_singleton.mp new
      rfl
  · intro r listed live current
    rcases own.observed r listed live current with dropped | ⟨seen, told⟩
    · exact .inl dropped
    · refine .inr ⟨seen, fun w staged here => ?_⟩
      rcases List.mem_append.mp staged with before | new
      · exact told w before here
      · cases List.mem_singleton.mp new
        cases here
        exact seen

theorem dropGuard_sound (sound : Sound l) (at_c : l.branch c = some b) (table : TableName) (guardName : String) :
    Sound ⟨l.store, Function.update l.branch c (some (b.unguarded table guardName)), l.fence⟩ := by
  have same : ∀ t, ((b.unguarded table guardName).views t).generation = (b.views t).generation := by
    intro t
    by_cases here : t = table
    · subst here
      simp [Changes.unguarded]
    · simp [Changes.unguarded, here]
  have fewer : ∀ t, ∀ g ∈ ((b.unguarded table guardName).views t).guards, g ∈ (b.views t).guards := by
    intro t g listed
    by_cases here : t = table
    · subst here
      simp only [Changes.unguarded, Function.update_self, List.mem_filter] at listed
      exact listed.1
    · simpa [Changes.unguarded, here] using listed
  have kept : ∀ t g, g ∈ (b.views t).guards → (t, g) ≠ (table, guardName) →
      g ∈ ((b.unguarded table guardName).views t).guards := by
    intro t g listed other
    by_cases here : t = table
    · subst here
      simpa [Changes.unguarded, listed] using other
    · simpa [Changes.unguarded, here] using listed
  refine sound_changes sound at_c (fun own => ?_) (fun e here there => ⟨⟨?_, ?_⟩, there.storage, there.guards⟩)
    (fun held creation => ⟨creation.owner, creation.current, creation.named, fun still => ?_⟩)
  · refine ⟨?_, ?_, ?_, own.altered_views, ?_, own.added_issued, own.added_new, own.finished_altered,
      own.finished_issued, own.finished_alone, ?_⟩
    · exact fun t => (same t).symm ▸ own.view_fresh t
    · exact fun w staged => (own.staged_view w staged).trans (same _).symm
    · exact fun t altered => (same t).trans (own.altered_main t altered)
    · exact fun t g listed => own.views_issued t g (fewer t g listed)
    · intro r listed live current
      rw [Changes.current, same] at current
      rcases own.observed r listed live current with dropped | ⟨seen, told⟩
      · exact .inl (List.mem_cons_of_mem _ dropped)
      · by_cases gone : (r.table, r.guardName) = (table, guardName)
        · exact .inl (gone ▸ List.mem_cons_self)
        · exact .inr ⟨kept _ _ seen gone, told⟩
  · exact fun t altered => (same t).symm ▸ here.storage t altered
  · exact fun p added => ⟨fun listed => (here.guards p added).1 (fewer p.1 p.2 listed), (here.guards p added).2⟩
  · rw [Changes.storage, same]
    exact creation.replaced still

theorem addGuard_sound (sound : Sound l) (at_c : l.branch c = some b) {table : TableName} {guardName : String}
    (fresh : guardName ∉ l.store.issued) :
    Sound ⟨l.store.issue guardName, Function.update l.branch c (some (b.guarded table guardName)), l.fence⟩ := by
  obtain ⟨main_fresh, views_fresh, views_issued, creations_issued, log_stamps, clock⟩ := sound.base
  have same : ∀ t, ((b.guarded table guardName).views t).generation = (b.views t).generation := by
    intro t
    by_cases here : t = table
    · subst here
      simp [Changes.guarded]
    · simp [Changes.guarded, here]
  have more : ∀ t g, g ∈ ((b.guarded table guardName).views t).guards ↔
      g ∈ (b.views t).guards ∨ (t, g) = (table, guardName) := by
    intro t g
    by_cases here : t = table
    · subst here
      simp [Changes.guarded, or_comm]
    · simp [Changes.guarded, here]
  have wider : ∀ e, Own l.store e → Own (l.store.issue guardName) e := fun e own =>
    { own with
      views_issued := fun t g listed => List.mem_cons_of_mem _ (own.views_issued t g listed)
      added_issued := fun p added => List.mem_cons_of_mem _ (own.added_issued p added)
      finished_issued := fun p done => List.mem_cons_of_mem _ (own.finished_issued p done) }
  refine sound_branch ⟨main_fresh, views_fresh, fun t g listed => List.mem_cons_of_mem _ (views_issued t g listed),
      fun r listed => List.mem_cons_of_mem _ (creations_issued r listed), log_stamps, clock⟩
    ?_ (fun d e _ at_d => wider e (sound.own d e at_d)) (fun d f e g _ _ apart at_d at_f => ?_) ?_ ?_
    (fun d e creation _ at_d held_d => ?_) sound.covered
  · intro new here
    cases here
    have own := sound.own c b at_c
    have wide := wider b own
    refine ⟨?_, ?_, ?_, own.altered_views, ?_, ?_, ?_, own.finished_altered, wide.finished_issued,
      own.finished_alone, ?_⟩
    · exact fun t => (same t).symm ▸ own.view_fresh t
    · exact fun w staged => (own.staged_view w staged).trans (same _).symm
    · exact fun t altered => (same t).trans (own.altered_main t altered)
    · intro t g listed
      rcases (more t g).mp listed with before | new
      · exact wide.views_issued t g before
      · cases new
        exact List.mem_cons_self
    · intro p added
      rcases List.mem_cons.mp added with rfl | before
      · exact List.mem_cons_self
      · exact wide.added_issued p before
    · intro p added
      rcases List.mem_cons.mp added with rfl | before
      · refine ⟨fun listed => fresh (views_issued _ _ listed), fun r listed same_names => fresh ?_⟩
        have name : r.guardName = guardName := congrArg Prod.snd same_names
        exact name ▸ creations_issued r listed
      · exact own.added_new p before
    · intro r listed live current
      rw [Changes.current, same] at current
      rcases own.observed r listed live current with dropped | ⟨seen, told⟩
      · exact .inl dropped
      · exact .inr ⟨(more _ _).mpr (.inl seen), told⟩
  · obtain ⟨storage, guards⟩ := sound.apart d f e g apart at_d at_f
    exact ⟨storage, guards⟩
  · intro d new e apart here at_d
    cases here
    have own := sound.own d e at_d
    have towards := sound.apart c d b e apart.symm at_c at_d
    have back := sound.apart d c e b apart at_d at_c
    refine ⟨⟨fun t altered => (same t).symm ▸ towards.storage t altered, fun p added => ⟨?_, ?_, ?_⟩⟩, back.storage, ?_⟩
    · intro listed
      rcases (more _ _).mp listed with before | new
      · exact (towards.guards p added).1 before
      · cases new
        exact fresh (own.added_issued _ added)
    · intro listed
      rcases List.mem_cons.mp listed with rfl | before
      · exact fresh (own.added_issued _ added)
      · exact (towards.guards p added).2.1 before
    · exact (towards.guards p added).2.2
    · intro p added
      rcases List.mem_cons.mp added with rfl | before
      · refine ⟨fun listed => fresh (own.views_issued _ _ listed), fun listed => fresh (own.added_issued _ listed),
          fun done => fresh (own.finished_issued _ done)⟩
      · exact back.guards p before
  · intro new creation here held_c
    cases here
    obtain ⟨owner, current, named, replaced⟩ := sound.held c b creation at_c held_c
    refine ⟨owner, current, named, fun still => ?_⟩
    rw [Changes.storage, same]
    exact replaced still
  · obtain ⟨owner, current, named, replaced⟩ := sound.held d e creation at_d held_d
    exact ⟨owner, current, named, replaced⟩

theorem replace_sound (sound : Sound l) (at_c : l.branch c = some b) {table : TableName}
    (main : l.store.isMainTable (b.storage table) = true) :
    Sound ⟨l.store.replaced table,
      Function.update l.branch c (some (b.replaced ⟨table, l.store.generations⟩)), l.fence⟩ := by
  obtain ⟨main_fresh, views_fresh, views_issued, creations_issued, log_stamps, clock⟩ := sound.base
  have views := replaced_views b ⟨table, l.store.generations⟩
  refine sound_branch ⟨fun t => ?_, fun t => Nat.lt_succ_of_lt (views_fresh t), views_issued, creations_issued,
      log_stamps, clock⟩ ?_ (fun d e apart at_d => replace_others sound at_c main apart at_d)
    (fun d f e g apart_d apart_f apart at_d at_f => ?_) ?_ ?_ (fun d e creation _ at_d held_d => ?_) sound.covered
  · rw [replaced_main]
    split
    · exact Nat.lt_succ_self _
    · exact Nat.lt_succ_of_lt (main_fresh t)
  · intro new here
    cases here
    exact replace_own sound.base (sound.own c b at_c) main
  · obtain ⟨storage, guards⟩ := sound.apart d f e g apart at_d at_f
    refine ⟨fun t altered => ?_, guards⟩
    have untouched := replace_alone sound at_c main apart_f at_f
    rw [replaced_main, if_neg fun same : t = table => untouched (same ▸ altered)]
    exact storage t altered
  · intro d new e apart here at_d
    cases here
    have towards := sound.apart c d b e apart.symm at_c at_d
    have back := sound.apart d c e b apart at_d at_c
    have untouched := replace_alone sound at_c main apart at_d
    refine ⟨⟨fun t altered => ?_, fun p added => ?_⟩, fun t altered => ?_, back.guards⟩
    · have other : t ≠ table := fun same => untouched (same ▸ altered)
      rw [(views t).2, replaced_main, if_neg other, if_neg other]
      exact towards.storage t altered
    · rw [(views p.1).1]
      exact towards.guards p added
    · rw [replaced_main]
      split
      · exact Nat.ne_of_lt ((sound.own d e at_d).view_fresh t)
      · rename_i other
        exact back.storage t ((List.mem_cons.mp altered).resolve_left other)
  · intro new creation here held_c
    cases here
    obtain ⟨owner, current, named, replaced⟩ := sound.held c b creation at_c held_c
    refine ⟨owner, current, named, fun still => ?_⟩
    have other : creation.table.name ≠ table := fun same => still (same ▸ List.mem_cons_self)
    rw [Changes.storage, (views _).2, if_neg other]
    exact replaced fun altered => still (List.mem_cons_of_mem _ altered)
  · obtain ⟨owner, current, named, replaced⟩ := sound.held d e creation at_d held_d
    exact ⟨owner, current, named, replaced⟩

theorem fence_sound (sound : Sound l) {fence : Option (Option HeldCreation)}
    (held : ∀ b held, l.branch c = some b → fence = some (some held) → Held l.store b held) :
    Sound ⟨l.store, l.branch, Function.update l.fence c fence⟩ where
  base := sound.base
  own := sound.own
  apart := sound.apart
  held d e creation at_d held_d := by
    rcases update_cases held_d with ⟨rfl, here⟩ | ⟨_, there⟩
    · exact held e creation at_d here
    · exact sound.held d e creation at_d there
  covered := sound.covered

theorem hold_sound (sound : Sound l) (at_c : l.branch c = some b) (current : l.store.lastCommit ≤ b.startTime)
    (names : CreationNames) :
    Sound ⟨l.store, l.branch, Function.update l.fence c (some (some (heldCreation b names)))⟩ := by
  refine fence_sound sound fun e held at_e here => ?_
  cases here
  cases Option.some.inj (at_c.symm.trans at_e)
  exact ⟨rfl, current, rfl, fun _ => rfl⟩

theorem names_table {held : HeldCreation} {call : CreationNames} (named : held.names call = true) :
    tableName held.schemaName held.tableName = tableName call.schemaName call.tableName := by
  simp only [HeldCreation.names, Bool.and_eq_true, ciEquals, decide_eq_true_eq] at named
  rw [tableName, tableName, named.1.1.1, named.1.1.2]

/-- The storage that the barrier was taken for was replaced by the transaction itself, and
    nothing was committed since its snapshot. -/
theorem finish_sound (sound : Sound l) (at_c : l.branch c = some b) {call : CreationNames} {held : HeldCreation}
    (held_by : l.fence c = some (some held)) (named : held.names call = true)
    (replaced : held.table ≠ b.storage (tableName call.schemaName call.tableName))
    (installed : call.guardName ∈ (b.views (tableName call.schemaName call.tableName)).guards) :
    Sound ⟨l.store,
      Function.update l.branch c (some (b.finish (tableName call.schemaName call.tableName) call.guardName)),
      Function.update l.fence c (some none)⟩ := by
  have creation := sound.held c b held at_c held_by
  have same : held.table.name = tableName call.schemaName call.tableName := creation.named.trans (names_table named)
  have altered : tableName call.schemaName call.tableName ∈ b.altered := by
    by_contra still
    rw [← same] at still replaced
    exact replaced (creation.replaced still).symm
  have finished : Sound ⟨l.store,
      Function.update l.branch c (some (b.finish (tableName call.schemaName call.tableName) call.guardName)), l.fence⟩ := by
    refine sound_changes sound at_c (fun own => ?_) (fun e here there => ⟨⟨here.storage, ?_⟩, there.storage, there.guards⟩)
      (fun held creation => ⟨creation.owner, creation.current, creation.named, creation.replaced⟩)
    · refine { own with finished_altered := ?_, finished_issued := ?_, finished_alone := ?_ }
      · rintro p ⟨⟩
        exact altered
      · rintro p ⟨⟩
        exact own.views_issued _ _ installed
      · exact fun p done w listed _ => (sound.base.log_stamps w listed).trans creation.current
    · intro p added
      refine ⟨(here.guards p added).1, (here.guards p added).2.1, fun done => ?_⟩
      cases done
      exact (here.guards _ added).1 installed
  refine fence_sound finished fun e held _ bare => ?_
  cases bare

theorem committed_live (own : Own store b) {r : Creation} (listed : r ∈ (store.committed b).creations)
    (live : r.live (store.committed b)) :
    (r.table, r.guardName) ∉ b.droppedGuards ∧ (r ∈ store.creations ∧ r.live store ∨ r ∈ b.creation) := by
  obtain ⟨known, kept⟩ := List.mem_filter.mp live
  refine ⟨of_decide_eq_true kept, ?_⟩
  rcases List.mem_append.mp listed with before | new
  · refine .inl ⟨before, (List.mem_append.mp known).resolve_right fun added => ?_⟩
    obtain ⟨p, inside, same⟩ := List.mem_map.mp added
    obtain ⟨inside, here⟩ := List.mem_filter.mp inside
    exact (own.added_new p inside).2 r before (Prod.ext (of_decide_eq_true here).symm same.symm)
  · exact .inr (Option.mem_toList.mp new)

theorem creation_finished {r : Creation} (created : r ∈ b.creation) :
    b.finished = some (r.table, r.guardName) ∧ r.transactionId = b.transactionId ∧ r.startTime = b.startTime := by
  obtain ⟨p, finished, rfl⟩ := Option.map_eq_some_iff.mp created
  exact ⟨finished, rfl, rfl⟩

theorem committed_current {table : TableName} (own : Own store b) (current : e.current (store.committed b) table) :
    e.current store table := by
  rcases current with main | published
  · exact .inl main
  · by_cases altered : table ∈ b.altered
    · simp only [Store.committed, Store.published, if_pos altered] at published
      exact .inl (published.trans (own.altered_main table altered))
    · simp only [Store.committed, Store.published, if_neg altered] at published
      exact .inr published

/-- What other transactions have not committed, a commit neither publishes nor overtakes. -/
theorem commit_others (own : Own store b) (other : Own store e) (towards : Apart store b e) (back : Apart store e b)
    (main : ∀ w ∈ b.staged, store.isMainTable w.table = true) : Own (store.committed b) e := by
  refine { other with altered_views := ?_, added_new := ?_, finished_alone := ?_, observed := ?_, views_issued := ?_ }
  · intro t altered
    have kept : t ∉ b.altered := fun also => back.storage t also (other.altered_main t altered)
    simp only [Store.committed, Store.published, if_neg kept]
    exact other.altered_views t altered
  · exact other.views_issued
  · intro p added
    refine ⟨fun listed => ?_, fun r listed same => ?_⟩
    · rcases List.mem_append.mp (List.mem_filter.mp listed).1 with before | new
      · exact (other.added_new p added).1 before
      · obtain ⟨q, inside, same⟩ := List.mem_map.mp new
        obtain ⟨inside, here⟩ := List.mem_filter.mp inside
        have p_same : p = q := Prod.ext (of_decide_eq_true here).symm same.symm
        exact (towards.guards p added).2.1 (p_same ▸ inside)
    · rcases List.mem_append.mp listed with before | new
      · exact (other.added_new p added).2 r before same
      · have finished := (creation_finished (Option.mem_toList.mp new)).1
        exact (towards.guards p added).2.2 (same ▸ finished)
  · intro p done w listed here
    rcases List.mem_append.mp listed with before | new
    · exact other.finished_alone p done w before here
    · obtain ⟨staged, inside, rfl⟩ := List.mem_map.mp new
      have altered : staged.table.name ∈ e.altered := here ▸ other.finished_altered p done
      have moved : store.main staged.table.name = staged.table.generation := of_decide_eq_true (main staged inside)
      exact absurd ((own.staged_view staged inside).symm.trans moved.symm) (towards.storage _ altered)
  · intro r listed live current
    have before := committed_current own current
    rcases (committed_live own listed live).2 with ⟨old, still⟩ | new
    · exact other.observed r old still before
    · have altered : r.table ∈ b.altered := own.finished_altered _ (creation_finished new).1
      refine absurd ?_ (back.storage r.table altered)
      rcases current with main | published
      · exact main
      · simp only [Store.committed, Store.published, if_pos altered] at published
        exact published.trans (own.altered_main r.table altered)

theorem commit_base (base : Base store) (own : Own store b) : Base (store.committed b) := by
  obtain ⟨main_fresh, views_fresh, views_issued, creations_issued, log_stamps, clock⟩ := base
  refine ⟨main_fresh, fun t => ?_, fun t g listed => ?_, fun r listed => ?_, fun w listed => ?_, Nat.le_succ _⟩
  · simp only [Store.committed, Store.published]
    split
    · exact own.view_fresh t
    · exact views_fresh t
  · rcases List.mem_append.mp (List.mem_filter.mp listed).1 with before | new
    · exact views_issued t g before
    · obtain ⟨p, inside, rfl⟩ := List.mem_map.mp new
      exact own.added_issued p (List.mem_filter.mp inside).1
  · rcases List.mem_append.mp listed with before | new
    · exact creations_issued r before
    · exact own.finished_issued _ (creation_finished (Option.mem_toList.mp new)).1
  · rcases List.mem_append.mp listed with before | new
    · exact (log_stamps w before).trans clock
    · obtain ⟨staged, _, rfl⟩ := List.mem_map.mp new
      exact le_refl store.timestamp

/-- The writes of a commit were told to every guard that is still live, and a new guard's
    table saw no other write since its creator's snapshot. -/
theorem commit_covered (own : Own store b) (main : ∀ w ∈ b.staged, store.isMainTable w.table = true)
    (covered : ∀ r ∈ store.creations, r.live store → Covered store r) :
    ∀ r ∈ (store.committed b).creations, r.live (store.committed b) → Covered (store.committed b) r := by
  intro r listed live w logged here
  obtain ⟨kept, old | new⟩ := committed_live own listed live
  · rcases List.mem_append.mp logged with before | now
    · exact covered r old.1 old.2 w before here
    · obtain ⟨staged, inside, rfl⟩ := List.mem_map.mp now
      have view := own.staged_view staged inside
      have moved : store.main staged.table.name = staged.table.generation := of_decide_eq_true (main staged inside)
      have same : staged.table.name = r.table := here
      rw [same] at view moved
      have told := (own.observed r old.1 old.2 (.inl (view.symm.trans moved.symm))).resolve_left kept
      exact .inr (.inr (told.2 staged inside same))
  · obtain ⟨finished, id, start⟩ := creation_finished new
    rcases List.mem_append.mp logged with before | now
    · exact .inl (start ▸ own.finished_alone _ finished w before here)
    · obtain ⟨staged, _, rfl⟩ := List.mem_map.mp now
      exact .inr (.inl id.symm)

theorem commit_sound (sound : Sound l) (at_c : l.branch c = some b)
    (main : ∀ w ∈ b.staged, l.store.isMainTable w.table = true)
    (alone : ∀ d, d ≠ c → ∀ held, l.fence d ≠ some (some held)) :
    Sound ⟨l.store.committed b, Function.update l.branch c none, l.fence⟩ := by
  have own := sound.own c b at_c
  refine sound_branch (commit_base sound.base own) (fun b here => by cases here) (fun d e apart at_d => ?_)
    (fun d f e g _ _ apart at_d at_f => ?_) (fun d b e _ here => by cases here) (fun b held here => by cases here)
    (fun d e creation apart _ held_d => absurd held_d (alone d apart creation)) (commit_covered own main sound.covered)
  · exact commit_others own (sound.own d e at_d) (sound.apart c d b e apart.symm at_c at_d)
      (sound.apart d c e b apart at_d at_c) main
  · obtain ⟨storage, guards⟩ := sound.apart d f e g apart at_d at_f
    exact ⟨storage, guards⟩

theorem rolledBack_main (own : Own store e) (back : Apart store e b) {t : TableName} (altered : t ∈ e.altered) :
    (store.rolledBack b).main t = store.main t :=
  if_neg fun also => back.storage t also (own.altered_main t altered)

theorem rollback_sound (sound : Sound l) (at_c : l.branch c = some b) :
    Sound ⟨l.store.rolledBack b, Function.update l.branch c none, l.fence⟩ := by
  obtain ⟨main_fresh, views_fresh, views_issued, creations_issued, log_stamps, clock⟩ := sound.base
  refine sound_branch ⟨fun t => ?_, views_fresh, views_issued, creations_issued, log_stamps, clock⟩
    (fun b here => by cases here) (fun d e apart at_d => ?_) (fun d f e g apart_d apart_f apart at_d at_f => ?_)
    (fun d b e _ here => by cases here) (fun b held here => by cases here) (fun d e creation _ at_d held_d => ?_)
    sound.covered
  · simp only [Store.rolledBack]
    split
    · exact views_fresh t
    · exact main_fresh t
  · have own := sound.own d e at_d
    have back := sound.apart d c e b apart at_d at_c
    refine { own with altered_main := ?_, altered_views := ?_, observed := ?_ }
    · intro t altered
      rw [rolledBack_main own back altered]
      exact own.altered_main t altered
    · intro t altered
      rw [rolledBack_main own back altered]
      exact own.altered_views t altered
    · intro r listed live current
      refine own.observed r listed live ?_
      rcases current with main | published
      · simp only [Store.rolledBack] at main
        split at main
        · exact .inr main
        · exact .inl main
      · exact .inr published
  · obtain ⟨storage, guards⟩ := sound.apart d f e g apart at_d at_f
    refine ⟨fun t altered => ?_, guards⟩
    rw [rolledBack_main (sound.own f g at_f) (sound.apart f c g b apart_f at_f at_c) altered]
    exact storage t altered
  · obtain ⟨owner, current, named, replaced⟩ := sound.held d e creation at_d held_d
    exact ⟨owner, current, named, replaced⟩

theorem content_step {k : Content Conn} (sound : Sound l) (step : ContentStep l k) : Sound k := by
  cases step with
  | same => exact sound
  | attach idle bare => exact attach_sound sound bare
  | write at_c => exact write_sound sound at_c _ _
  | replace at_c main => exact replace_sound sound at_c main
  | addGuard at_c fresh => exact addGuard_sound sound at_c fresh
  | dropGuard at_c => exact dropGuard_sound sound at_c _ _
  | fence bare => exact fence_sound sound fun _ held _ here => absurd here (bare held)
  | hold at_c current => exact hold_sound sound at_c current _
  | finish at_c held_by named replaced installed => exact finish_sound sound at_c held_by named replaced installed
  | commit at_c main alone => exact commit_sound sound at_c main alone
  | rollback at_c => exact rollback_sound sound at_c

theorem content_vacuums {k : Content Conn} (step : ContentStep l k) : k.store.vacuums = l.store.vacuums := by
  cases step <;> rfl

omit [DecidableEq Conn] in
theorem vacuum_sound (sound : Sound l) (count : Nat) :
    Sound ⟨{ l.store with vacuums := count }, l.branch, l.fence⟩ := by
  obtain ⟨⟨h1, h2, h3, h4, h5, h6⟩, own, apart, held, covered⟩ := sound
  refine ⟨⟨h1, h2, h3, h4, h5, h6⟩, fun c b at_c => ?_, fun c d b e different at_c at_d => ?_,
    fun c b creation at_c held_c => ?_, covered⟩
  · obtain ⟨h1, h2, h3, h4, h5, h6, h7, h8, h9, h10, h11⟩ := own c b at_c
    exact ⟨h1, h2, h3, h4, h5, h6, h7, h8, h9, h10, h11⟩
  · obtain ⟨storage, guards⟩ := apart c d b e different at_c at_d
    exact ⟨storage, guards⟩
  · obtain ⟨owner, current, named, replaced⟩ := held c b creation at_c held_c
    exact ⟨owner, current, named, replaced⟩

end Content

end NgramCreationBarrier
