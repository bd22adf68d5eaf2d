import NgramIndex.Run

/- The prepared maintenance handles that one connection keeps between the
   transaction that expands a pragma and the transaction that runs its script. -/
namespace NgramMaintenanceHandles
open LabelledRun
variable {Prepared : Type}

/-- The script is the transaction that consumed the first handle of the group. -/
structure Handle (Prepared : Type) where
  expansionId : Nat
  group : UInt64
  scriptId : Option Nat
  prepared : Prepared
  deriving DecidableEq, Repr

structure MaintenanceState (Prepared : Type) where
  handles : String → Option (Handle Prepared)
  nextGroup : UInt64

namespace MaintenanceState

def eraseIf (s : MaintenanceState Prepared) (stale : Handle Prepared → Bool) :
    MaintenanceState Prepared :=
  { s with handles := fun name => (s.handles name).filter fun held => !stale held }

def emplace (s : MaintenanceState Prepared) (name : String) (held : Handle Prepared) :
    MaintenanceState Prepared :=
  { s with handles := fun other => if other = name then (s.handles name).or (some held) else s.handles other }

def newGroup (s : MaintenanceState Prepared) : UInt64 × MaintenanceState Prepared :=
  (s.nextGroup + 1, { s with nextGroup := s.nextGroup + 1 })

/-- The random identifier comes from the host. -/
def register (s : MaintenanceState Prepared) (transactionId : Nat) (uuid : String) (group : UInt64)
    (prepared : Prepared) : String × MaintenanceState Prepared :=
  (uuid, (s.eraseIf fun held => held.expansionId != transactionId).emplace uuid
    ⟨transactionId, group, none, prepared⟩)

def unknownHandle (handle : String) : String :=
  "ngram: maintenance handle " ++ handle ++ " is unknown; a generated maintenance statement " ++
    "only runs inside the pragma that produced it"

def bindGroup (group : UInt64) (scriptId : Nat) (held : Handle Prepared) : Handle Prepared :=
  if held.group = group then { held with scriptId := some scriptId } else held

def take (s : MaintenanceState Prepared) (transactionId : Nat) (handle : String) :
    Except String Prepared × MaintenanceState Prepared :=
  match s.handles handle with
  | none => (.error (unknownHandle handle), s)
  | some entry =>
      (.ok entry.prepared, { s with
        handles := fun name =>
          if name = handle then none else (s.handles name).map (bindGroup entry.group transactionId) })

def transactionEnd (s : MaintenanceState Prepared) (transactionId : Nat) : MaintenanceState Prepared :=
  s.eraseIf fun held => held.scriptId == some transactionId

def transactionCommit (s : MaintenanceState Prepared) := s.transactionEnd

def transactionRollback (s : MaintenanceState Prepared) := s.transactionEnd

section
variable {s : MaintenanceState Prepared} {id : Nat} {name uuid : String} {held entry : Handle Prepared}

theorem eraseIf_some {stale : Handle Prepared → Bool} :
    (s.eraseIf stale).handles name = some held ↔ s.handles name = some held ∧ stale held = false := by
  simp [eraseIf, Option.filter_eq_some_iff]

theorem register_some {group : UInt64} {prepared : Prepared} (fresh : s.handles uuid = none) :
    (s.register id uuid group prepared).2.handles name = some held ↔
      name = uuid ∧ held = ⟨id, group, none, prepared⟩ ∨
        name ≠ uuid ∧ s.handles name = some held ∧ held.expansionId = id := by
  by_cases same : name = uuid
  · subst same
    simp [register, emplace, eraseIf, fresh, eq_comm]
  · simp [register, emplace, eraseIf_some, same]

theorem take_unknown (missing : s.handles name = none) : s.take id name = (.error (unknownHandle name), s) := by
  rw [take, missing]

theorem take_known (found : s.handles name = some entry) : (s.take id name).1 = .ok entry.prepared := by
  rw [take, found]

theorem take_some (found : s.handles uuid = some entry) :
    (s.take id uuid).2.handles name = some held ↔
      name ≠ uuid ∧ ∃ before, s.handles name = some before ∧ bindGroup entry.group id before = held := by
  rw [take, found]
  by_cases same : name = uuid <;> simp [same]

theorem transactionEnd_some : (s.transactionEnd id).handles name = some held ↔
    s.handles name = some held ∧ held.scriptId ≠ some id := by
  simp [transactionEnd, eraseIf_some]

theorem bindGroup_keeps (group : UInt64) (id : Nat) (held : Handle Prepared) :
    (bindGroup group id held).expansionId = held.expansionId ∧ (bindGroup group id held).group = held.group ∧
      (bindGroup group id held).prepared = held.prepared := by
  rw [bindGroup]
  split <;> exact ⟨rfl, rfl, rfl⟩

theorem bindGroup_script {group : UInt64} :
    (bindGroup group id held).scriptId = some id ↔ held.group = group ∨ held.scriptId = some id := by
  by_cases bound : held.group = group <;> simp [bindGroup, bound]

theorem bindGroup_from {group : UInt64} {next : Nat} (bound : (bindGroup group id held).scriptId = some next) :
    id = next ∨ held.scriptId = some next := by
  rw [bindGroup] at bound
  split at bound
  · exact .inl (Option.some.inj bound)
  · exact .inr bound

end

end MaintenanceState

open MaintenanceState

structure Connection (Prepared : Type) where
  state : MaintenanceState Prepared
  transaction : Option Nat

def Connection.opened : Connection Prepared := ⟨⟨fun _ => none, 0⟩, none⟩

inductive Event (Prepared : Type) where
  | began (id : Nat)
  | grouped (group : UInt64)
  | registered (handle : String) (group : UInt64) (prepared : Prepared)
  | took (handle : String) (answer : Except String Prepared)
  | ended (committed : Bool)

def running (past : List (Event Prepared)) : List (Event Prepared) :=
  past.foldl (fun since event => match event with
    | .ended _ => []
    | event => since ++ [event]) []

/-- Transaction ids and random identifiers do not repeat, and no member of a group
    is taken before the group is registered. -/
def Allowed (past : List (Event Prepared)) : Event Prepared → Prop
  | .began id => .began id ∉ past
  | .registered handle group _ =>
      (∀ g p, .registered handle g p ∉ past) ∧
      ∀ member p, .registered member group p ∈ past → ∀ q, .took member (.ok q) ∉ past
  | _ => True

@[simp] theorem running_nil : running ([] : List (Event Prepared)) = [] := rfl

theorem running_snoc (past : List (Event Prepared)) (event : Event Prepared) :
    running (past ++ [event]) = match event with
      | .ended _ => []
      | event => running past ++ [event] := by
  rw [running, List.foldl_append]
  rfl

theorem running_subset {past : List (Event Prepared)} {event : Event Prepared}
    (since : event ∈ running past) : event ∈ past := by
  induction past using List.reverseRecOn with
  | nil => exact since
  | append_singleton past last ih =>
    rw [running_snoc] at since
    cases last with
    | ended committed => exact absurd since List.not_mem_nil
    | _ =>
      rcases List.mem_append.mp since with before | new
      · exact List.mem_append_left _ (ih before)
      · exact List.mem_append_right _ new

def TakenFrom (past : List (Event Prepared)) (group : UInt64) : Prop :=
  ∃ member p q, .took member (.ok q) ∈ running past ∧ .registered member group p ∈ past

structure Sound (past : List (Event Prepared)) (transaction : Option Nat) (name : String)
    (held : Handle Prepared) : Prop where
  registered : .registered name held.group held.prepared ∈ past
  untaken : ∀ q, .took name (.ok q) ∉ past
  expanded : .began held.expansionId ∈ past
  scripted : ∀ id, held.scriptId = some id → .began id ∈ past
  expansion : ∀ id, transaction = some id →
    (held.expansionId = id ↔ .registered name held.group held.prepared ∈ running past)
  script : ∀ id, transaction = some id → (held.scriptId = some id ↔ TakenFrom past held.group)

structure Kept (past : List (Event Prepared)) (c : Connection Prepared) : Prop where
  begun : ∀ id, c.transaction = some id → .began id ∈ past
  idle : c.transaction = none →
    (∀ name g p, .registered name g p ∉ running past) ∧ ∀ name answer, .took name answer ∉ running past
  distinct : ∀ name g p h q, .registered name g p ∈ past → .registered name h q ∈ past → g = h ∧ p = q
  delivered : ∀ name q, .took name (.ok q) ∈ past → ∃ g, .registered name g q ∈ past
  sound : ∀ name held, c.state.handles name = some held → Sound past c.transaction name held

/-- Events that neither add to a group, nor take from one, nor end a transaction. -/
def Quiet : Event Prepared → Prop
  | .registered .. => False
  | .took _ (.ok _) => False
  | .ended _ => False
  | _ => True

section events
variable {past : List (Event Prepared)} {event : Event Prepared} {name : String} {group : UInt64}
  {prepared : Prepared} {held : Handle Prepared}

theorem mem_running_snoc (going : ∀ committed, event ≠ .ended committed) (e : Event Prepared) :
    e ∈ running (past ++ [event]) ↔ e ∈ running past ∨ e = event := by
  rw [running_snoc]
  cases event with
  | ended committed => exact absurd rfl (going committed)
  | _ => simp

theorem Quiet.going (quiet : Quiet event) (committed : Bool) : event ≠ .ended committed := by
  rintro rfl
  exact quiet

theorem Quiet.registered_iff (quiet : Quiet event) :
    .registered name group prepared ∈ past ++ [event] ↔ .registered name group prepared ∈ past := by
  cases event with
  | registered => exact quiet.elim
  | _ => simp

theorem Quiet.took_iff (quiet : Quiet event) :
    .took name (.ok prepared) ∈ past ++ [event] ↔ .took name (.ok prepared) ∈ past := by
  rcases event with _ | _ | _ | ⟨_, _ | _⟩ | _ <;> simp_all [Quiet]

theorem Quiet.takenFrom_iff (quiet : Quiet event) :
    TakenFrom (past ++ [event]) group ↔ TakenFrom past group := by
  have same : ∀ member (q : Prepared), .took member (.ok q) ≠ event := by
    rintro member q rfl
    exact quiet
  simp only [TakenFrom, mem_running_snoc quiet.going, quiet.registered_iff, same, or_false]

theorem Sound.quiet {transaction : Option Nat} (sound : Sound past transaction name held) (quiet : Quiet event) :
    Sound (past ++ [event]) transaction name held where
  registered := quiet.registered_iff.mpr sound.registered
  untaken q taken := sound.untaken q (quiet.took_iff.mp taken)
  expanded := List.mem_append_left _ sound.expanded
  scripted id eq := List.mem_append_left _ (sound.scripted id eq)
  expansion id eq := by
    have other : .registered name held.group held.prepared ≠ event := by
      rintro rfl
      exact quiet
    rw [sound.expansion id eq, mem_running_snoc quiet.going]
    simp only [other, or_false]
  script id eq := by rw [sound.script id eq, quiet.takenFrom_iff]

theorem takenFrom_registered (never : ∀ q, .took name (.ok q) ∉ past) (g : UInt64) :
    TakenFrom (past ++ [.registered name group prepared]) g ↔ TakenFrom past g := by
  have going : ∀ committed, (.registered name group prepared : Event Prepared) ≠ .ended committed := nofun
  constructor
  · rintro ⟨member, p, q, late, first⟩
    have since : .took member (.ok q) ∈ running past := by
      simpa [mem_running_snoc going] using late
    refine ⟨member, p, q, since, ?_⟩
    rcases List.mem_append.mp first with first | new
    · exact first
    · obtain ⟨rfl, _, _⟩ := Event.registered.inj (List.mem_singleton.mp new)
      exact absurd (running_subset since) (never q)
  · rintro ⟨member, p, q, since, first⟩
    exact ⟨member, p, q, (mem_running_snoc going _).mpr (.inl since), List.mem_append_left _ first⟩

theorem takenFrom_took (first : .registered name group prepared ∈ past)
    (only : ∀ g p, .registered name g p ∈ past → g = group) (g : UInt64) :
    TakenFrom (past ++ [.took name (.ok prepared)]) g ↔ g = group ∨ TakenFrom past g := by
  have going : ∀ committed, (.took name (.ok prepared) : Event Prepared) ≠ .ended committed := nofun
  constructor
  · rintro ⟨taker, p, q, since, member⟩
    have listed : .registered taker g p ∈ past := by simpa using member
    rcases (mem_running_snoc going _).mp since with earlier | new
    · exact .inr ⟨taker, p, q, earlier, listed⟩
    · obtain ⟨rfl, _⟩ := Event.took.inj new
      exact .inl (only g p listed)
  · rintro (rfl | ⟨taker, p, q, since, member⟩)
    · exact ⟨name, prepared, prepared, (mem_running_snoc going _).mpr (.inr rfl), List.mem_append_left _ first⟩
    · exact ⟨taker, p, q, (mem_running_snoc going _).mpr (.inl since), List.mem_append_left _ member⟩

theorem registered_once {front back : List (Event Prepared)} (ordered : Ordered Allowed (front ++ back))
    (first : .registered name group prepared ∈ front) (g : UInt64) (p : Prepared) :
    .registered name g p ∉ back := by
  intro again
  obtain ⟨between, later, rfl⟩ := List.append_of_mem again
  obtain ⟨fresh, _⟩ := ordered (front ++ between) _ later (List.append_assoc ..).symm
  exact fresh group prepared (List.mem_append_left _ first)

theorem group_closed {front back : List (Event Prepared)} (ordered : Ordered Allowed (front ++ back))
    (taken : TakenFrom front group) (name : String) (p : Prepared) : .registered name group p ∉ back := by
  intro again
  obtain ⟨member, q, r, since, first⟩ := taken
  obtain ⟨between, later, rfl⟩ := List.append_of_mem again
  obtain ⟨_, before⟩ := ordered (front ++ between) _ later (List.append_assoc ..).symm
  exact before member q (List.mem_append_left _ first) r (List.mem_append_left _ (running_subset since))

end events

section kept
variable {past : List (Event Prepared)} {c d : Connection Prepared} {name : String} {group : UInt64}
  {prepared : Prepared} {id : Nat}

theorem Kept.quiet {event : Event Prepared} (kept : Kept past c) (quiet : Quiet event)
    (inside : ∀ name answer, event = .took name answer → c.transaction ≠ none)
    (handles : d.state.handles = c.state.handles) (same : d.transaction = c.transaction) :
    Kept (past ++ [event]) d where
  begun id eq := List.mem_append_left _ (kept.begun id (same ▸ eq))
  idle none := by
    rw [same] at none
    obtain ⟨nothing, untouched⟩ := kept.idle none
    constructor
    · intro name g p since
      rcases (mem_running_snoc quiet.going _).mp since with before | rfl
      · exact nothing name g p before
      · exact quiet
    · intro name answer since
      rcases (mem_running_snoc quiet.going _).mp since with before | eq
      · exact untouched name answer before
      · exact inside name answer eq.symm none
  distinct name g p h q first second :=
    kept.distinct name g p h q (quiet.registered_iff.mp first) (quiet.registered_iff.mp second)
  delivered name q taken := by
    obtain ⟨g, first⟩ := kept.delivered name q (quiet.took_iff.mp taken)
    exact ⟨g, quiet.registered_iff.mpr first⟩
  sound name held found := by
    rw [handles] at found
    rw [same]
    exact (kept.sound name held found).quiet quiet

theorem Kept.began (kept : Kept past c) (fresh : .began id ∉ past) (between : c.transaction = none) :
    Kept (past ++ [.began id]) ⟨c.state, some id⟩ where
  begun next eq := by
    obtain rfl : id = next := Option.some.inj eq
    exact List.mem_append_right _ (List.mem_singleton_self _)
  idle none := absurd none (Option.some_ne_none id)
  distinct name g p h q first second := by
    have quiet : Quiet (.began id : Event Prepared) := trivial
    exact kept.distinct name g p h q (quiet.registered_iff.mp first) (quiet.registered_iff.mp second)
  delivered name q taken := by
    have quiet : Quiet (.began id : Event Prepared) := trivial
    obtain ⟨g, first⟩ := kept.delivered name q (quiet.took_iff.mp taken)
    exact ⟨g, quiet.registered_iff.mpr first⟩
  sound name held found := by
    have quiet : Quiet (.began id : Event Prepared) := trivial
    have sound := kept.sound name held found
    obtain ⟨nothing, untouched⟩ := kept.idle between
    have later := sound.quiet quiet
    refine ⟨later.registered, later.untaken, later.expanded, later.scripted, fun next eq => ?_, fun next eq => ?_⟩
    · -- both sides fail: the transaction is new and nothing ran since the last end
      obtain rfl : id = next := Option.some.inj eq
      have other : held.expansionId ≠ id := fun same => fresh (same ▸ sound.expanded)
      simp [other, mem_running_snoc quiet.going, nothing]
    · obtain rfl : id = next := Option.some.inj eq
      have other : held.scriptId ≠ some id := fun same => fresh (sound.scripted id same)
      refine iff_of_false other fun taken => ?_
      obtain ⟨member, _, q, since, _⟩ := quiet.takenFrom_iff.mp taken
      exact untouched member (.ok q) since

theorem Kept.missing (kept : Kept past c) (never : ∀ g p, .registered name g p ∉ past) :
    c.state.handles name = none := by
  rw [Option.eq_none_iff_forall_ne_some]
  exact fun held found => never _ _ (kept.sound name held found).registered

theorem Kept.registered (kept : Kept past c) (allowed : Allowed past (.registered name group prepared))
    (within : c.transaction = some id) : Kept (past ++ [.registered name group prepared])
      ⟨(c.state.register id name group prepared).2, some id⟩ := by
  obtain ⟨fresh, before⟩ := allowed
  have going : ∀ committed, (.registered name group prepared : Event Prepared) ≠ .ended committed := nofun
  have missing := kept.missing fresh
  have taken_old : ∀ other q, .took other (.ok q) ∈ past ++ [.registered name group prepared] ↔
      .took other (.ok q) ∈ past := by simp
  have never : ∀ q, .took name (.ok q) ∉ past := fun q taken => by
    obtain ⟨g, first⟩ := kept.delivered name q taken
    exact fresh g q first
  refine ⟨fun next eq => ?_, fun none => absurd none (Option.some_ne_none id), ?_, ?_, ?_⟩
  · exact List.mem_append_left _ (kept.begun next (within.trans eq))
  · intro other g p h q first second
    simp only [List.mem_append, List.mem_singleton, Event.registered.injEq] at first second
    rcases first with first | ⟨rfl, rfl, rfl⟩ <;> rcases second with second | ⟨same, rfl, rfl⟩
    · exact kept.distinct other g p h q first second
    · exact absurd (same ▸ first) (fresh g p)
    · exact absurd second (fresh h q)
    · exact ⟨rfl, rfl⟩
  · intro other q taken
    obtain ⟨g, first⟩ := kept.delivered other q ((taken_old other q).mp taken)
    exact ⟨g, List.mem_append_left _ first⟩
  · intro other held found
    rcases (register_some missing).mp found with ⟨rfl, rfl⟩ | ⟨_, old, own⟩
    · -- the new handle: its group has lost no member yet
      refine ⟨List.mem_append_right _ (List.mem_singleton_self _), ?_, ?_, nofun, fun next eq => ?_, fun next _ => ?_⟩
      · exact fun q taken => never q ((taken_old other q).mp taken)
      · exact List.mem_append_left _ (kept.begun id within)
      · simpa [mem_running_snoc going] using Option.some.inj eq
      · refine iff_of_false nofun fun taken => ?_
        obtain ⟨member, p, q, since, first⟩ := (takenFrom_registered never group).mp taken
        exact before member p first q (running_subset since)
    · have sound := kept.sound other held old
      refine ⟨List.mem_append_left _ sound.registered, ?_, List.mem_append_left _ sound.expanded, ?_, ?_, ?_⟩
      · exact fun q taken => sound.untaken q ((taken_old other q).mp taken)
      · exact fun next eq => List.mem_append_left _ (sound.scripted next eq)
      · intro next eq
        rw [sound.expansion next (within.trans eq), mem_running_snoc going]
        refine ⟨Or.inl, fun either => either.resolve_right fun same => ?_⟩
        obtain ⟨rfl, _, _⟩ := Event.registered.inj same
        exact absurd sound.registered (fresh _ _)
      · intro next eq
        rw [sound.script next (within.trans eq), takenFrom_registered never]

theorem Kept.took {entry : Handle Prepared} (kept : Kept past c) (within : c.transaction = some id)
    (found : c.state.handles name = some entry) :
    Kept (past ++ [.took name (.ok entry.prepared)]) ⟨(c.state.take id name).2, some id⟩ := by
  have going : ∀ committed, (.took name (.ok entry.prepared) : Event Prepared) ≠ .ended committed := nofun
  have registered_iff : ∀ other g p, .registered other g p ∈ past ++ [.took name (.ok entry.prepared)] ↔
      .registered other g p ∈ past := by simp
  have member := kept.sound name entry found
  have only : ∀ g p, .registered name g p ∈ past → g = entry.group := fun g p listed =>
    (kept.distinct name g p _ _ listed member.registered).1
  refine ⟨fun next eq => ?_, fun none => absurd none (Option.some_ne_none id), ?_, ?_, ?_⟩
  · exact List.mem_append_left _ (kept.begun next (within.trans eq))
  · intro other g p h q first second
    exact kept.distinct other g p h q ((registered_iff _ _ _).mp first) ((registered_iff _ _ _).mp second)
  · intro other q taken
    rcases List.mem_append.mp taken with taken | new
    · obtain ⟨g, first⟩ := kept.delivered other q taken
      exact ⟨g, List.mem_append_left _ first⟩
    · obtain ⟨rfl, same⟩ := Event.took.inj (List.mem_singleton.mp new)
      obtain rfl : q = entry.prepared := Except.ok.inj same
      exact ⟨entry.group, List.mem_append_left _ member.registered⟩
  · intro other held found_after
    obtain ⟨apart, before, old, rfl⟩ := (take_some found).mp found_after
    obtain ⟨same_expansion, same_group, same_prepared⟩ := bindGroup_keeps entry.group id before
    have sound := kept.sound other before old
    refine ⟨?_, ?_, ?_, ?_, fun next eq => ?_, fun next eq => ?_⟩
    · rw [same_group, same_prepared]
      exact List.mem_append_left _ sound.registered
    · intro q taken
      rcases List.mem_append.mp taken with earlier | new
      · exact sound.untaken q earlier
      · exact apart (Event.took.inj (List.mem_singleton.mp new)).1
    · rw [same_expansion]
      exact List.mem_append_left _ sound.expanded
    · intro next eq
      rcases bindGroup_from eq with rfl | earlier
      · exact List.mem_append_left _ (kept.begun id within)
      · exact List.mem_append_left _ (sound.scripted next earlier)
    · rw [same_expansion, same_group, same_prepared, sound.expansion next (within.trans eq), mem_running_snoc going]
      simp only [reduceCtorEq, or_false]
    · obtain rfl : id = next := Option.some.inj eq
      rw [same_group, bindGroup_script, takenFrom_took member.registered only, sound.script id within]

theorem Kept.ended {committed : Bool} (kept : Kept past c) :
    Kept (past ++ [.ended committed]) ⟨c.state.transactionEnd id, none⟩ where
  begun _ eq := absurd eq.symm (Option.some_ne_none _)
  idle _ := by
    rw [running_snoc]
    exact ⟨fun _ _ _ => List.not_mem_nil, fun _ _ => List.not_mem_nil⟩
  distinct name g p h q first second := by
    simp only [List.mem_append, List.mem_singleton, reduceCtorEq, or_false] at first second
    exact kept.distinct name g p h q first second
  delivered name q taken := by
    simp only [List.mem_append, List.mem_singleton, reduceCtorEq, or_false] at taken
    obtain ⟨g, first⟩ := kept.delivered name q taken
    exact ⟨g, List.mem_append_left _ first⟩
  sound name held found := by
    have sound := kept.sound name held (transactionEnd_some.mp found).1
    refine ⟨List.mem_append_left _ sound.registered, ?_, List.mem_append_left _ sound.expanded, ?_, nofun, nofun⟩
    · intro q taken
      simp only [List.mem_append, List.mem_singleton, reduceCtorEq, or_false] at taken
      exact sound.untaken q taken
    · exact fun next eq => List.mem_append_left _ (sound.scripted next eq)

theorem kept_opened : Kept [] (Connection.opened : Connection Prepared) where
  begun _ := nofun
  idle _ := ⟨fun _ _ _ => List.not_mem_nil, fun _ _ => List.not_mem_nil⟩
  distinct _ _ _ _ _ := nofun
  delivered _ _ := nofun
  sound _ _ := nofun

end kept

variable [DecidableEq Prepared]

/-- A take answers what the code answers; outside a transaction nothing runs. -/
def step (c : Connection Prepared) : Event Prepared → Option (Connection Prepared)
  | .began id => if c.transaction = none then some { c with transaction := some id } else none
  | .grouped group =>
      if c.state.newGroup.1 = group then some { c with state := c.state.newGroup.2 } else none
  | .registered handle group prepared =>
      c.transaction.map fun id => { c with state := (c.state.register id handle group prepared).2 }
  | .took handle answer =>
      c.transaction.bind fun id =>
        if (c.state.take id handle).1 = answer then some { c with state := (c.state.take id handle).2 } else none
  | .ended committed =>
      c.transaction.map fun id =>
        ⟨if committed then c.state.transactionCommit id else c.state.transactionRollback id, none⟩

def Dropped (past : List (Event Prepared)) (handle : String) : Prop :=
  ∃ before event after s t, past = before ++ event :: after ∧
    exec step Connection.opened before = some s ∧ step s event = some t ∧
    (s.state.handles handle).isSome ∧ t.state.handles handle = none

section steps
variable {past : List (Event Prepared)} {c d : Connection Prepared} {name : String} {group : UInt64}
  {prepared : Prepared} {id : Nat}

theorem step_began : step c (.began id) = some d ↔ c.transaction = none ∧ d = ⟨c.state, some id⟩ := by
  simp [step, eq_comm]

theorem step_grouped : step c (.grouped group) = some d ↔
    c.state.newGroup.1 = group ∧ d = ⟨c.state.newGroup.2, c.transaction⟩ := by
  simp [step, eq_comm]

theorem step_registered : step c (.registered name group prepared) = some d ↔
    ∃ id, c.transaction = some id ∧ d = ⟨(c.state.register id name group prepared).2, some id⟩ := by
  cases current : c.transaction with
  | none => simp [step, current]
  | some id => simp [step, current, eq_comm]

theorem step_took {answer : Except String Prepared} : step c (.took name answer) = some d ↔
    ∃ id, c.transaction = some id ∧ (c.state.take id name).1 = answer ∧
      d = ⟨(c.state.take id name).2, some id⟩ := by
  cases current : c.transaction with
  | none => simp [step, current]
  | some id => simp [step, current, eq_comm]

theorem step_ended {committed : Bool} : step c (.ended committed) = some d ↔
    ∃ id, c.transaction = some id ∧ d = ⟨c.state.transactionEnd id, none⟩ := by
  cases current : c.transaction with
  | none => simp [step, current]
  | some id => simp [step, current, transactionCommit, transactionRollback, eq_comm]

theorem Kept.step {event : Event Prepared} (kept : Kept past c) (allowed : Allowed past event)
    (next : step c event = some d) : Kept (past ++ [event]) d := by
  cases event with
  | began id =>
    obtain ⟨between, rfl⟩ := step_began.mp next
    exact kept.began allowed between
  | grouped group =>
    obtain ⟨_, rfl⟩ := step_grouped.mp next
    exact kept.quiet trivial (fun _ _ => nofun) rfl rfl
  | registered name group prepared =>
    obtain ⟨id, within, rfl⟩ := step_registered.mp next
    exact kept.registered allowed within
  | took name answer =>
    obtain ⟨id, within, answered, rfl⟩ := step_took.mp next
    cases found : c.state.handles name with
    | none =>
      rw [take_unknown found] at answered ⊢
      subst answered
      refine kept.quiet trivial (fun _ _ _ none => ?_) rfl within.symm
      exact absurd (within.symm.trans none) (Option.some_ne_none id)
    | some entry =>
      rw [take_known found] at answered
      subst answered
      exact kept.took within found
  | ended committed =>
    obtain ⟨id, _, rfl⟩ := step_ended.mp next
    exact kept.ended

theorem kept_along (ordered : Ordered Allowed past) (run : exec step Connection.opened past = some c) :
    Kept past c :=
  exec_history (fun _ _ _ _ kept allowed next => kept.step allowed next) ordered run kept_opened

theorem absent_step {event : Event Prepared} (other : ∀ g p, event ≠ .registered name g p)
    (missing : c.state.handles name = none) (next : step c event = some d) : d.state.handles name = none := by
  rw [Option.eq_none_iff_forall_ne_some] at missing ⊢
  intro held found
  cases event with
  | began id =>
    obtain ⟨_, rfl⟩ := step_began.mp next
    exact missing held found
  | grouped group =>
    obtain ⟨_, rfl⟩ := step_grouped.mp next
    exact missing held found
  | registered uuid group prepared =>
    obtain ⟨id, _, rfl⟩ := step_registered.mp next
    have apart : name ≠ uuid := by
      rintro rfl
      exact other group prepared rfl
    simp only [register, emplace, if_neg apart, eraseIf_some] at found
    exact missing held found.1
  | took uuid answer =>
    obtain ⟨id, _, _, rfl⟩ := step_took.mp next
    cases entry : c.state.handles uuid with
    | none =>
      rw [take_unknown entry] at found
      exact missing held found
    | some entry_held =>
      obtain ⟨_, before, old, _⟩ := (take_some entry).mp found
      exact missing before old
  | ended committed =>
    obtain ⟨id, _, rfl⟩ := step_ended.mp next
    exact missing held (transactionEnd_some.mp found).1

theorem absent_along {later : List (Event Prepared)} (other : ∀ g p, .registered name g p ∉ later)
    (missing : c.state.handles name = none) (run : exec step c later = some d) : d.state.handles name = none := by
  induction later generalizing c with
  | nil =>
    obtain rfl : c = d := by simpa using run
    exact missing
  | cons event rest ih =>
    obtain ⟨t, next, tail⟩ := exec_cons_iff.mp run
    refine ih (fun g p listed => other g p (List.mem_cons_of_mem _ listed)) (absent_step ?_ missing next) tail
    rintro g p rfl
    exact other g p List.mem_cons_self

theorem absent_refused {answer : Except String Prepared} (missing : c.state.handles name = none)
    (next : step c (.took name answer) = some d) : answer = .error (unknownHandle name) := by
  obtain ⟨id, _, answered, _⟩ := step_took.mp next
  rw [take_unknown missing] at answered
  exact answered.symm

theorem Dropped.snoc (dropped : Dropped past name) (event : Event Prepared) : Dropped (past ++ [event]) name := by
  obtain ⟨before, culprit, after, s, t, rfl, reached, next, held, missing⟩ := dropped
  refine ⟨before, culprit, after ++ [event], s, t, ?_, reached, next, held, missing⟩
  rw [List.append_assoc, List.cons_append]

theorem held_or_dropped (ordered : Ordered Allowed past) (run : exec step Connection.opened past = some c)
    (first : .registered name group prepared ∈ past) :
    (c.state.handles name).isSome ∨ Dropped past name := by
  induction past using List.reverseRecOn generalizing c with
  | nil => exact absurd first List.not_mem_nil
  | append_singleton past event ih =>
    obtain ⟨s, reached, next⟩ := exec_snoc_iff.mp run
    obtain ⟨earlier, allowed⟩ := ordered_snoc_iff.mp ordered
    rcases List.mem_append.mp first with before | new
    · rcases ih earlier reached before with held | dropped
      · cases found : c.state.handles name with
        | none => exact .inr ⟨past, event, [], s, c, rfl, reached, next, held, found⟩
        | some held => exact .inl rfl
      · exact .inr (dropped.snoc event)
    · obtain rfl := List.mem_singleton.mp new
      obtain ⟨id, _, rfl⟩ := step_registered.mp next
      refine .inl ?_
      simp [register, emplace]

theorem dropped_absent (ordered : Ordered Allowed past) (run : exec step Connection.opened past = some c)
    (dropped : Dropped past name) : c.state.handles name = none := by
  obtain ⟨before, event, after, s, t, rfl, reached, next, held, missing⟩ := dropped
  obtain ⟨s', reached', rest⟩ := exec_append_iff.mp run
  obtain rfl : s = s' := Option.some.inj (reached.symm.trans reached')
  obtain ⟨t', next', tail⟩ := exec_cons_iff.mp rest
  obtain rfl : t = t' := Option.some.inj (next.symm.trans next')
  obtain ⟨entry, found⟩ := Option.isSome_iff_exists.mp held
  have first := ((kept_along (ordered_front ordered) reached).sound name entry found).registered
  refine absent_along (fun g p later => ?_) missing tail
  exact registered_once ordered first g p (List.mem_cons_of_mem _ later)

theorem absent_iff (ordered : Ordered Allowed past) (run : exec step Connection.opened past = some c) :
    c.state.handles name = none ↔ (∀ g p, .registered name g p ∉ past) ∨
      (∃ p, .took name (.ok p) ∈ past) ∨ Dropped past name := by
  have kept := kept_along ordered run
  constructor
  · intro missing
    by_cases known : ∃ g p, .registered name g p ∈ past
    · obtain ⟨g, p, first⟩ := known
      rcases held_or_dropped ordered run first with held | dropped
      · rw [missing] at held
        cases held
      · exact .inr (.inr dropped)
    · exact .inl fun g p first => known ⟨g, p, first⟩
  · rintro (never | ⟨p, taken⟩ | dropped)
    · exact kept.missing never
    · rw [Option.eq_none_iff_forall_ne_some]
      exact fun held found => (kept.sound name held found).untaken p taken
    · exact dropped_absent ordered run dropped

theorem ended_drops_group {committed : Bool} (kept : Kept past c) (taken : TakenFrom past group)
    (member : ∀ held, c.state.handles name = some held → held.group = group)
    (next : step c (.ended committed) = some d) : d.state.handles name = none := by
  obtain ⟨id, within, rfl⟩ := step_ended.mp next
  rw [Option.eq_none_iff_forall_ne_some]
  intro held found
  obtain ⟨old, foreign⟩ := transactionEnd_some.mp found
  refine foreign (((kept.sound name held old).script id within).mpr ?_)
  rw [member held old]
  exact taken

theorem ended_spares_group {committed : Bool} (kept : Kept past c) (untouched : ¬ TakenFrom past group)
    (first : .registered name group prepared ∈ past) (next : step c (.ended committed) = some d) :
    d.state.handles name = c.state.handles name := by
  obtain ⟨id, within, rfl⟩ := step_ended.mp next
  cases found : c.state.handles name with
  | none =>
    rw [Option.eq_none_iff_forall_ne_some]
    intro held after
    rw [(transactionEnd_some.mp after).1] at found
    cases found
  | some held =>
    have sound := kept.sound name held found
    refine transactionEnd_some.mpr ⟨found, fun own => untouched ?_⟩
    rw [← (kept.distinct name _ _ _ _ sound.registered first).1]
    exact (sound.script id within).mp own

theorem registered_leaves_own {other : String} (kept : Kept past c)
    (allowed : Allowed past (.registered name group prepared))
    (next : step c (.registered name group prepared) = some d) :
    (d.state.handles other).isSome ↔ other = name ∨
      (c.state.handles other).isSome ∧ ∃ g p, .registered other g p ∈ running past := by
  obtain ⟨id, within, rfl⟩ := step_registered.mp next
  have missing := kept.missing allowed.1
  constructor
  · intro present
    obtain ⟨held, found⟩ := Option.isSome_iff_exists.mp present
    rcases (register_some missing).mp found with ⟨same, _⟩ | ⟨_, old, own⟩
    · exact .inl same
    · have sound := kept.sound other held old
      exact .inr ⟨Option.isSome_iff_exists.mpr ⟨held, old⟩, held.group, held.prepared,
        (sound.expansion id within).mp own⟩
  · rintro (rfl | ⟨present, g, p, since⟩)
    · exact Option.isSome_iff_exists.mpr ⟨_, (register_some missing).mpr (.inl ⟨rfl, rfl⟩)⟩
    · obtain ⟨held, old⟩ := Option.isSome_iff_exists.mp present
      have sound := kept.sound other held old
      obtain ⟨rfl, rfl⟩ := kept.distinct other _ _ _ _ sound.registered (running_subset since)
      have apart : other ≠ name := by
        rintro rfl
        rw [missing] at old
        cases old
      have own := (sound.expansion id within).mpr since
      exact Option.isSome_iff_exists.mpr ⟨held, (register_some missing).mpr (.inr ⟨apart, old, own⟩)⟩

end steps

/-- Over any order of registrations, takes and transactions of one connection. -/
theorem maintenance_handles_single_use {events : List (Event Prepared)} {last : Connection Prepared}
    (ordered : Ordered Allowed events) (run : exec step Connection.opened events = some last) :
    (∀ before name prepared after, events = before ++ .took name (.ok prepared) :: after →
      (∃ group, .registered name group prepared ∈ before) ∧ ∀ p, .took name (.ok p) ∉ before) ∧
    (∀ before name answer after, events = before ++ .took name answer :: after →
      (answer = .error (unknownHandle name) ↔ (∀ g p, .registered name g p ∉ before) ∨
        (∃ p, .took name (.ok p) ∈ before) ∨ Dropped before name)) ∧
    (∀ before committed after, events = before ++ .ended committed :: after → ∀ group,
      (TakenFrom before group → ∀ name p answer, .registered name group p ∈ events →
        .took name answer ∈ after → answer = .error (unknownHandle name)) ∧
      (¬ TakenFrom before group → ∀ s t, exec step Connection.opened before = some s →
        step s (.ended committed) = some t → ∀ name p, .registered name group p ∈ before →
          t.state.handles name = s.state.handles name)) ∧
    (∀ before name group prepared after, events = before ++ .registered name group prepared :: after →
      ∀ s t, exec step Connection.opened before = some s → step s (.registered name group prepared) = some t →
        ∀ other, (t.state.handles other).isSome ↔ other = name ∨
          (s.state.handles other).isSome ∧ ∃ g p, .registered other g p ∈ running before) := by
  refine ⟨?_, ?_, ?_, ?_⟩
  · rintro before name prepared after rfl
    obtain ⟨s, t, reached, next, _⟩ := exec_split run rfl
    have kept := kept_along (ordered_front ordered) reached
    obtain ⟨id, _, answered, _⟩ := step_took.mp next
    cases found : s.state.handles name with
    | none =>
      rw [take_unknown found] at answered
      cases answered
    | some held =>
      rw [take_known found] at answered
      obtain rfl : held.prepared = prepared := Except.ok.inj answered
      have sound := kept.sound name held found
      exact ⟨⟨held.group, sound.registered⟩, sound.untaken⟩
  · rintro before name answer after rfl
    obtain ⟨s, t, reached, next, _⟩ := exec_split run rfl
    rw [← absent_iff (ordered_front ordered) reached]
    refine ⟨fun refused => ?_, fun missing => absent_refused missing next⟩
    obtain ⟨id, _, answered, _⟩ := step_took.mp next
    cases found : s.state.handles name with
    | none => rfl
    | some held =>
      rw [take_known found, refused] at answered
      cases answered
  · rintro before committed after rfl group
    obtain ⟨s, t, reached, next, tail⟩ := exec_split run rfl
    have kept := kept_along (ordered_front ordered) reached
    refine ⟨fun taken name p answer first refused => ?_, fun untouched s' t' reached' next' name p first => ?_⟩
    · -- the group is closed, so the name is gone from here on
      have whole := kept_along ordered run
      have gone : t.state.handles name = none := by
        refine ended_drops_group kept taken (fun held found => ?_) next
        have known := (kept.sound name held found).registered
        exact (whole.distinct name _ _ _ _ (List.mem_append_left _ known) first).1
      obtain ⟨between, later, rfl⟩ := List.append_of_mem refused
      obtain ⟨u, v, middle, at_take, _⟩ := exec_split tail rfl
      refine absent_refused (absent_along (fun g q again => ?_) gone middle) at_take
      have listed : .registered name g q ∈ .ended committed :: (between ++ .took name answer :: later) :=
        List.mem_cons_of_mem _ (List.mem_append_left _ again)
      obtain ⟨rfl, rfl⟩ := whole.distinct name _ _ _ _ (List.mem_append_right _ listed) first
      exact group_closed ordered taken name q listed
    · obtain rfl : s = s' := Option.some.inj (reached.symm.trans reached')
      exact ended_spares_group kept untouched first next'
  · rintro before name group prepared after rfl s t reached next other
    have kept := kept_along (ordered_front ordered) reached
    have allowed := ordered before _ after rfl
    exact registered_leaves_own kept allowed next

/-- A script of two handles that stops after its first. -/
def expansion : List (Event Nat) :=
  [.began 1, .grouped 1, .registered "a" 1 10, .registered "b" 1 11, .ended true, .began 2, .ended true,
    .began 3, .took "a" (.ok 10)]

def afterScript : List (Event Nat) :=
  [.began 4, .took "b" (.error (unknownHandle "b")), .registered "c" 2 12, .ended true]

theorem stopped_script_refused : Ordered Allowed (expansion ++ .ended false :: afterScript) ∧
    (∃ last, exec step Connection.opened (expansion ++ .ended false :: afterScript) = some last) ∧
    ∀ answer, .took "b" answer ∈ afterScript → answer = .error (unknownHandle "b") := by
  have ordered : Ordered Allowed (expansion ++ .ended false :: afterScript) := by
    refine ordered_of_after ?_
    simp [expansion, afterScript, OrderedAfter, Allowed]
  have run : ∃ last, exec step Connection.opened (expansion ++ .ended false :: afterScript) = some last :=
    ⟨_, rfl⟩
  obtain ⟨last, reached⟩ := run
  refine ⟨ordered, ⟨last, reached⟩, fun answer later => ?_⟩
  have taken : TakenFrom expansion 1 := ⟨"a", 10, 10, by simp [expansion, running], by simp [expansion]⟩
  have member : Event.registered "b" 1 11 ∈ expansion ++ .ended false :: afterScript := by simp [expansion]
  exact ((maintenance_handles_single_use ordered reached).2.2.1 expansion false afterScript rfl 1).1 taken
    "b" 11 answer member later

end NgramMaintenanceHandles
