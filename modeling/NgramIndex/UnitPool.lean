import Mathlib.Algebra.BigOperators.Fin
import Mathlib.Algebra.Order.BigOperators.Group.Finset
import NgramIndex.Run

/- Workers that take units of work from a shared cursor. A unit runs on one worker, turn by
   turn, on a state of its own and on what all units share; the turns of different workers
   interleave. A unit that raises stops its worker, and the others go on. -/
namespace UnitPool
open LabelledRun

inductive Verdict (Fault : Type*) where
  | going
  | finished
  | raised (fault : Fault)

structure Turn (Shared Local Fault : Type*) where
  shared : Shared
  own : Local
  verdict : Verdict Fault

/-- The body run for each unit. A choice is what the world around decides of a turn. -/
structure Body (n : Nat) (Shared Local Fault Choice : Type*) where
  enter : Fin n → Local
  turn : Fin n → Choice → Shared → Local → Turn Shared Local Fault

inductive Phase where
  | waiting
  | running
  | finished
  | raised
  deriving DecidableEq

inductive Worker (n : Nat) where
  | scheduled
  | claiming
  | busy (unit : Fin n)
  | stopped
  deriving DecidableEq

structure Pool (n : Nat) (Shared Local Fault : Type*) where
  shared : Shared
  cursor : Nat
  own : Fin n → Local
  phase : Fin n → Phase
  workers : Nat → Worker n
  faults : List Fault

variable {n : Nat} {Shared Local Fault Choice : Type*}

def begin (body : Body n Shared Local Fault Choice) (shared : Shared) (crew : Nat) : Pool n Shared Local Fault where
  shared := shared
  cursor := 0
  own := body.enter
  phase _ := .waiting
  workers w := if w < crew then .scheduled else .stopped
  faults := []

/-- A worker takes the next number off the cursor, and a unit if there is one of it. -/
def claim (s : Pool n Shared Local Fault) (w : Nat) : Pool n Shared Local Fault :=
  if room : s.cursor < n then
    { s with
      cursor := s.cursor + 1
      phase := Function.update s.phase ⟨s.cursor, room⟩ .running
      workers := Function.update s.workers w (.busy ⟨s.cursor, room⟩) }
  else { s with
    cursor := s.cursor + 1
    workers := Function.update s.workers w .stopped }

def settle (s : Pool n Shared Local Fault) (w : Nat) (unit : Fin n) (turn : Turn Shared Local Fault) :
    Pool n Shared Local Fault :=
  let s := { s with shared := turn.shared, own := Function.update s.own unit turn.own }
  match turn.verdict with
  | .going => s
  | .finished => { s with
      phase := Function.update s.phase unit .finished
      workers := Function.update s.workers w .claiming }
  | .raised fault => { s with
      phase := Function.update s.phase unit .raised
      workers := Function.update s.workers w .stopped
      faults := s.faults ++ [fault] }

/-- A worker that is scheduled after a unit raised does not start. -/
def step (body : Body n Shared Local Fault Choice) (s : Pool n Shared Local Fault) (label : Nat × Choice) :
    Option (Pool n Shared Local Fault) :=
  match s.workers label.1 with
  | .scheduled => some { s with
      workers := Function.update s.workers label.1 (if s.faults.isEmpty then .claiming else .stopped) }
  | .claiming => some (claim s label.1)
  | .busy unit => some (settle s label.1 unit (body.turn unit label.2 s.shared (s.own unit)))
  | .stopped => none

def Done (s : Pool n Shared Local Fault) : Prop := ∀ w, s.workers w = .stopped

section Discipline
variable {body : Body n Shared Local Fault Choice} {s t : Pool n Shared Local Fault} {crew : Nat}

/-- Units go out in order, each to one worker that keeps it until it ends. -/
structure Disciplined (crew : Nat) (s : Pool n Shared Local Fault) : Prop where
  waiting : ∀ u : Fin n, s.phase u = .waiting ↔ s.cursor ≤ u
  held : ∀ u, s.phase u = .running → ∃ w, s.workers w = .busy u
  busy : ∀ w u, s.workers w = .busy u → s.phase u = .running
  apart : ∀ w w' u, s.workers w = .busy u → s.workers w' = .busy u → w = w'
  raised : ∀ u, s.phase u = .raised → s.faults ≠ []
  stopped : ∀ w < crew, s.workers w = .stopped → s.faults ≠ [] ∨ n ≤ s.cursor
  manned : ∀ w, crew ≤ w → s.workers w = .stopped

theorem begin_disciplined (body : Body n Shared Local Fault Choice) (shared : Shared) (crew : Nat) :
    Disciplined crew (begin body shared crew) := by
  have idle (w : Nat) : (begin body shared crew).workers w = if w < crew then .scheduled else .stopped := rfl
  have free (w : Nat) (u : Fin n) : (begin body shared crew).workers w ≠ .busy u := by
    rw [idle]
    split <;> simp
  exact {
    waiting := fun u => ⟨fun _ => Nat.zero_le _, fun _ => rfl⟩
    held := fun u run => by cases run
    busy := fun w u at_w => absurd at_w (free w u)
    apart := fun w w' u at_w => absurd at_w (free w u)
    raised := fun u run => by cases run
    stopped := fun w inside at_w => by
      rw [idle, if_pos inside] at at_w
      cases at_w
    manned := fun w outside => by rw [idle, if_neg (Nat.not_lt.mpr outside)] }

/-- A worker that moves on without a unit changes no unit. -/
theorem moved_disciplined {w : Nat} {next : Worker n} (disciplined : Disciplined crew s) {cursor : Nat}
    (passed : cursor = s.cursor ∨ n ≤ s.cursor ∧ s.cursor ≤ cursor) (free : ∀ u, s.workers w ≠ .busy u)
    (idle : ∀ u, next ≠ .busy u) (inside : w < crew)
    (stops : next = .stopped → s.faults ≠ [] ∨ n ≤ cursor) :
    Disciplined crew { s with cursor := cursor, workers := Function.update s.workers w next } := by
  have others (v : Nat) (u : Fin n) : Function.update s.workers w next v = .busy u ↔ s.workers v = .busy u := by
    by_cases same : v = w
    · subst same
      rw [Function.update_self]
      exact ⟨fun now => absurd now (idle u), fun before => absurd before (free u)⟩
    · rw [Function.update_of_ne same]
  exact {
    waiting := fun u => by
      rw [disciplined.waiting u]
      rcases passed with rfl | ⟨ended, further⟩
      · rfl
      · have bound := u.isLt
        exact ⟨fun low => absurd low (by omega), fun low => absurd low (by dsimp only at low; omega)⟩
    held := fun u run => (disciplined.held u run).imp fun v at_v => (others v u).mpr at_v
    busy := fun v u at_v => disciplined.busy v u ((others v u).mp at_v)
    apart := fun v v' u at_v at_v' => disciplined.apart v v' u ((others v u).mp at_v) ((others v' u).mp at_v')
    raised := disciplined.raised
    stopped := fun v inside at_v => by
      by_cases same : v = w
      · subst same
        exact stops (by simpa using at_v)
      · dsimp only at at_v
        rw [Function.update_of_ne same] at at_v
        refine (disciplined.stopped v inside at_v).imp_right fun ended => ?_
        rcases passed with rfl | ⟨_, further⟩
        · exact ended
        · exact Nat.le_trans ended further
    manned := fun v outside => by
      have differs : v ≠ w := by omega
      dsimp only
      rw [Function.update_of_ne differs]
      exact disciplined.manned v outside }

theorem claim_disciplined {w : Nat} (disciplined : Disciplined crew s) (claims : s.workers w = .claiming) :
    Disciplined crew (claim s w) := by
  have inside : w < crew := by
    by_contra outside
    rw [disciplined.manned w (Nat.not_lt.mp outside)] at claims
    cases claims
  have free (u : Fin n) : s.workers w ≠ .busy u := by
    rw [claims]
    simp
  unfold claim
  split
  next room =>
    have waits := (disciplined.waiting ⟨s.cursor, room⟩).mpr (Nat.le_refl _)
    have unowned (v : Nat) : s.workers v ≠ .busy ⟨s.cursor, room⟩ := fun at_v => by
      rw [disciplined.busy v _ at_v] at waits
      cases waits
    have fresh {u : Fin n} (differs : s.phase u ≠ .waiting) : u ≠ ⟨s.cursor, room⟩ := by
      rintro rfl
      exact differs waits
    have workers (v : Nat) (u : Fin n) : Function.update s.workers w (.busy ⟨s.cursor, room⟩) v = .busy u ↔
        v = w ∧ u = ⟨s.cursor, room⟩ ∨ s.workers v = .busy u := by
      by_cases same : v = w
      · subst same
        simp [free u, eq_comm]
      · simp [same]
    have phases (u : Fin n) (phase : Phase) : Function.update s.phase ⟨s.cursor, room⟩ .running u = phase ↔
        u = ⟨s.cursor, room⟩ ∧ phase = .running ∨ u ≠ ⟨s.cursor, room⟩ ∧ s.phase u = phase := by
      by_cases same : u = ⟨s.cursor, room⟩
      · subst same
        simp [eq_comm]
      · simp [same]
    exact {
      waiting := fun u => by
        dsimp only
        rw [phases, disciplined.waiting, ne_eq, Fin.ext_iff]
        simp only [reduceCtorEq, and_false, false_or]
        omega
      held := fun u run => by
        rcases (phases u _).mp run with ⟨rfl, _⟩ | ⟨_, run⟩
        · exact ⟨w, (workers w _).mpr (.inl ⟨rfl, rfl⟩)⟩
        · exact (disciplined.held u run).imp fun v at_v => (workers v u).mpr (.inr at_v)
      busy := fun v u at_v => by
        rcases (workers v u).mp at_v with ⟨_, rfl⟩ | before
        · exact Function.update_self _ _ _
        · have run := disciplined.busy v u before
          exact (phases u _).mpr (.inr ⟨fresh (by rw [run]; simp), run⟩)
      apart := fun v v' u at_v at_v' => by
        rcases (workers v u).mp at_v with ⟨here, rfl⟩ | before
        · exact here.trans (((workers v' _).mp at_v').resolve_right (unowned v')).1.symm
        · rcases (workers v' u).mp at_v' with ⟨_, rfl⟩ | before'
          · exact absurd before (unowned v)
          · exact disciplined.apart v v' u before before'
      raised := fun u raised => by
        rcases (phases u _).mp raised with ⟨_, impossible⟩ | ⟨_, raised⟩
        · cases impossible
        · exact disciplined.raised u raised
      stopped := fun v inside at_v => by
        dsimp only at at_v
        by_cases same : v = w
        · rw [same, Function.update_self] at at_v
          cases at_v
        · rw [Function.update_of_ne same] at at_v
          exact (disciplined.stopped v inside at_v).imp_right Nat.le_succ_of_le
      manned := fun v outside => by
        have differs : v ≠ w := by omega
        dsimp only
        rw [Function.update_of_ne differs]
        exact disciplined.manned v outside }
  next full =>
    exact moved_disciplined disciplined (.inr ⟨Nat.not_lt.mp full, Nat.le_succ _⟩) free (by simp) inside
      fun _ => .inr (Nat.le_succ_of_le (Nat.not_lt.mp full))

/-- A worker lets go of its unit. -/
theorem released_disciplined {w : Nat} {u : Fin n} {phase : Phase} {next : Worker n} {shared : Shared}
    {own : Fin n → Local} {faults : List Fault} (disciplined : Disciplined crew s) (owner : s.workers w = .busy u)
    (ended : phase ≠ .waiting ∧ phase ≠ .running) (idle : ∀ u, next ≠ .busy u) (kept : s.faults ≠ [] → faults ≠ [])
    (raised : phase = .raised → faults ≠ []) (stops : next = .stopped → faults ≠ []) :
    Disciplined crew ⟨shared, s.cursor, own, Function.update s.phase u phase, Function.update s.workers w next,
      faults⟩ := by
  have workers (v : Nat) (o : Fin n) : Function.update s.workers w next v = .busy o ↔
      v ≠ w ∧ s.workers v = .busy o := by
    by_cases same : v = w
    · subst same
      simp [idle o]
    · simp [same]
  have phases (o : Fin n) (other : Phase) : Function.update s.phase u phase o = other ↔
      o = u ∧ phase = other ∨ o ≠ u ∧ s.phase o = other := by
    by_cases same : o = u
    · subst same
      simp
    · simp [same]
  have inside : w < crew := by
    by_contra outside
    rw [disciplined.manned w (Nat.not_lt.mp outside)] at owner
    cases owner
  exact {
    waiting := fun o => by
      dsimp only
      rw [phases, ← disciplined.waiting o]
      constructor
      · rintro (⟨_, waits⟩ | ⟨_, waits⟩)
        · exact absurd waits ended.1
        · exact waits
      · intro waits
        refine .inr ⟨?_, waits⟩
        rintro rfl
        rw [disciplined.busy w _ owner] at waits
        cases waits
    held := fun o run => by
      rcases (phases o _).mp run with ⟨_, run⟩ | ⟨differs, run⟩
      · exact absurd run ended.2
      · obtain ⟨v, at_v⟩ := disciplined.held o run
        refine ⟨v, (workers v o).mpr ⟨?_, at_v⟩⟩
        rintro rfl
        exact differs (Worker.busy.inj (at_v.symm.trans owner))
    busy := fun v o at_v => by
      obtain ⟨differs, before⟩ := (workers v o).mp at_v
      refine (phases o _).mpr (.inr ⟨?_, disciplined.busy v o before⟩)
      rintro rfl
      exact differs (disciplined.apart v w _ before owner)
    apart := fun v v' o at_v at_v' =>
      disciplined.apart v v' o ((workers v o).mp at_v).2 ((workers v' o).mp at_v').2
    raised := fun o failed => by
      rcases (phases o _).mp failed with ⟨_, failed⟩ | ⟨_, failed⟩
      · exact raised failed
      · exact kept (disciplined.raised o failed)
    stopped := fun v inside at_v => by
      dsimp only at at_v
      by_cases same : v = w
      · rw [same, Function.update_self] at at_v
        exact .inl (stops at_v)
      · rw [Function.update_of_ne same] at at_v
        exact (disciplined.stopped v inside at_v).imp_left kept
    manned := fun v outside => by
      have differs : v ≠ w := by omega
      dsimp only
      rw [Function.update_of_ne differs]
      exact disciplined.manned v outside }

theorem settle_disciplined {w : Nat} {u : Fin n} (disciplined : Disciplined crew s) (owner : s.workers w = .busy u)
    (turn : Turn Shared Local Fault) : Disciplined crew (settle s w u turn) := by
  obtain ⟨shared, own, verdict⟩ := turn
  cases verdict with
  | going => exact ⟨disciplined.waiting, disciplined.held, disciplined.busy, disciplined.apart, disciplined.raised,
      disciplined.stopped, disciplined.manned⟩
  | finished =>
    exact @released_disciplined _ _ _ _ s _ _ _ _ _ _ _ _ disciplined owner (by simp) (by simp) id (by simp) (by simp)
  | raised fault =>
    have grown : s.faults ++ [fault] ≠ [] := List.append_ne_nil_of_right_ne_nil _ (List.cons_ne_nil _ _)
    exact @released_disciplined _ _ _ _ s _ _ _ _ _ _ _ _ disciplined owner (by simp) (by simp) (fun _ => grown)
      (fun _ => grown) fun _ => grown

theorem step_disciplined {label : Nat × Choice} (disciplined : Disciplined crew s)
    (taken : step body s label = some t) : Disciplined crew t := by
  unfold step at taken
  split at taken
  next scheduled =>
    obtain rfl := Option.some.inj taken
    have inside : label.1 < crew := by
      by_contra outside
      rw [disciplined.manned _ (Nat.not_lt.mp outside)] at scheduled
      cases scheduled
    refine moved_disciplined disciplined (.inl rfl) (by simp [scheduled]) (fun u => ?_) inside fun stops => ?_
    · split <;> simp
    · split at stops
      · cases stops
      next failed => exact .inl fun none => failed (by rw [none]; rfl)
  next claims =>
    obtain rfl := Option.some.inj taken
    exact claim_disciplined disciplined claims
  next unit owner =>
    obtain rfl := Option.some.inj taken
    exact settle_disciplined disciplined owner _
  · cases taken

/-- Once every worker has stopped and no unit raised, every unit is finished. -/
theorem done_finished (disciplined : Disciplined crew s) (done : Done s) (faultless : s.faults = [])
    (enough : 0 < crew ∨ n = 0) (u : Fin n) : s.phase u = .finished := by
  have passed : n ≤ s.cursor := by
    rcases enough with some | none
    · exact (disciplined.stopped 0 some (done 0)).resolve_left (not_not.mpr faultless)
    · exact Nat.le_trans (Nat.le_of_eq none) (Nat.zero_le _)
  cases phase : s.phase u with
  | finished => rfl
  | waiting =>
    have low := (disciplined.waiting u).mp phase
    have bound := u.isLt
    omega
  | running =>
    obtain ⟨w, at_w⟩ := disciplined.held u phase
    rw [done w] at at_w
    cases at_w
  | raised => exact absurd faultless (disciplined.raised u phase)

end Discipline

section Moves
variable {body : Body n Shared Local Fault Choice} {s t : Pool n Shared Local Fault} {crew : Nat}

@[simp] theorem settle_shared (w : Nat) (u : Fin n) (turn : Turn Shared Local Fault) :
    (settle s w u turn).shared = turn.shared := by
  obtain ⟨_, _, verdict⟩ := turn
  cases verdict <;> rfl

@[simp] theorem settle_own (w : Nat) (u : Fin n) (turn : Turn Shared Local Fault) :
    (settle s w u turn).own = Function.update s.own u turn.own := by
  obtain ⟨_, _, verdict⟩ := turn
  cases verdict <;> rfl

theorem settle_faults {w : Nat} {u : Fin n} {turn : Turn Shared Local Fault} {fault : Fault}
    (listed : fault ∈ (settle s w u turn).faults) : fault ∈ s.faults ∨ turn.verdict = .raised fault := by
  obtain ⟨_, _, verdict⟩ := turn
  cases verdict with
  | going => exact .inl listed
  | finished => exact .inl listed
  | raised other =>
    rcases List.mem_append.mp listed with before | last
    · exact .inl before
    · exact .inr (congrArg Verdict.raised (List.mem_singleton.mp last).symm)

theorem settle_finished {w : Nat} {u o : Fin n} {turn : Turn Shared Local Fault}
    (run : (settle s w u turn).phase o = .finished) : o ≠ u ∧ s.phase o = .finished ∨
      o = u ∧ (turn.verdict = .finished ∨ s.phase u = .finished) := by
  obtain ⟨_, _, verdict⟩ := turn
  by_cases same : o = u
  · subst same
    refine .inr ⟨rfl, ?_⟩
    cases verdict with
    | going => exact .inr run
    | finished => exact .inl rfl
    | raised fault =>
      have here : Function.update s.phase o .raised o = .finished := run
      rw [Function.update_self] at here
      cases here
  · refine .inl ⟨same, ?_⟩
    cases verdict with
    | going => exact run
    | finished => exact (Function.update_of_ne same _ _).symm.trans run
    | raised fault => exact (Function.update_of_ne same _ _).symm.trans run

/-- A step changes what is shared, or a unit's own state, only as a turn of a unit. -/
theorem step_cases {label : Nat × Choice} (taken : step body s label = some t) :
    t.shared = s.shared ∧ t.own = s.own ∧ t.faults = s.faults ∧ (∀ u, t.phase u = .finished → s.phase u = .finished) ∨
      ∃ u, s.workers label.1 = .busy u ∧ t = settle s label.1 u (body.turn u label.2 s.shared (s.own u)) := by
  unfold step at taken
  split at taken
  · obtain rfl := Option.some.inj taken
    exact .inl ⟨rfl, rfl, rfl, fun _ => id⟩
  · obtain rfl := Option.some.inj taken
    unfold claim
    split
    next room =>
      refine .inl ⟨rfl, rfl, rfl, fun u run => ?_⟩
      by_cases same : u = ⟨s.cursor, room⟩
      · subst same
        dsimp only at run
        rw [Function.update_self] at run
        cases run
      · exact (Function.update_of_ne same _ _).symm.trans run
    · exact .inl ⟨rfl, rfl, rfl, fun _ => id⟩
  next unit owner => exact .inr ⟨unit, owner, (Option.some.inj taken).symm⟩
  · cases taken

end Moves

section Proofs
variable {body : Body n Shared Local Fault Choice} {s t : Pool n Shared Local Fault} {crew : Nat}
  {allowed : Choice → Prop} {common : Shared → Prop} {inv post : Fin n → Shared → Local → Prop} {blame : Fault → Prop}
  {relies : Shared → Shared → Prop}

/-- What is proved of one turn of a unit: what it keeps of the unit, and that the units
    beside it can rely on what it does to the shared state. -/
structure Guarded (body : Body n Shared Local Fault Choice) (allowed : Choice → Prop) (common : Shared → Prop)
    (inv post : Fin n → Shared → Local → Prop) (blame : Fault → Prop) (relies : Shared → Shared → Prop) : Prop where
  keeps : ∀ u choice shared own, allowed choice → common shared → inv u shared own →
    common (body.turn u choice shared own).shared ∧
      inv u (body.turn u choice shared own).shared (body.turn u choice shared own).own
  relied : ∀ u choice shared own, inv u shared own → relies shared (body.turn u choice shared own).shared
  finishes : ∀ u choice shared own, inv u shared own → (body.turn u choice shared own).verdict = .finished →
    post u (body.turn u choice shared own).shared (body.turn u choice shared own).own
  raises : ∀ u choice shared own fault, allowed choice → inv u shared own →
    (body.turn u choice shared own).verdict = .raised fault → blame fault
  inv_stable : ∀ u shared later own, relies shared later → inv u shared own → inv u later own
  post_stable : ∀ u shared later own, relies shared later → post u shared own → post u later own

structure Holds (common : Shared → Prop) (inv post : Fin n → Shared → Local → Prop) (blame : Fault → Prop)
    (s : Pool n Shared Local Fault) : Prop where
  common : common s.shared
  units : ∀ u, inv u s.shared (s.own u)
  finished : ∀ u, s.phase u = .finished → post u s.shared (s.own u)
  faults : ∀ fault ∈ s.faults, blame fault

theorem step_holds (guarded : Guarded body allowed common inv post blame relies) {label : Nat × Choice}
    (disciplined : Disciplined crew s) (holds : Holds common inv post blame s) (permitted : allowed label.2)
    (taken : step body s label = some t) : Holds common inv post blame t := by
  rcases step_cases taken with ⟨shared, own, faults, phases⟩ | ⟨u, owner, rfl⟩
  · exact ⟨shared ▸ holds.common, fun u => by rw [shared, own]; exact holds.units u,
      fun u run => by rw [shared, own]; exact holds.finished u (phases u run), faults ▸ holds.faults⟩
  · obtain ⟨kept, own⟩ := guarded.keeps u label.2 s.shared (s.own u) permitted holds.common (holds.units u)
    have relied := guarded.relied u label.2 s.shared (s.own u) (holds.units u)
    refine ⟨?_, fun o => ?_, fun o run => ?_, fun fault listed => ?_⟩
    · rw [settle_shared]
      exact kept
    · rw [settle_shared, settle_own]
      by_cases same : o = u
      · subst same
        rw [Function.update_self]
        exact own
      · rw [Function.update_of_ne same]
        exact guarded.inv_stable o _ _ _ relied (holds.units o)
    · rw [settle_shared, settle_own]
      rcases settle_finished run with ⟨differs, before⟩ | ⟨rfl, ends | ended⟩
      · rw [Function.update_of_ne differs]
        exact guarded.post_stable o _ _ _ relied (holds.finished o before)
      · rw [Function.update_self]
        exact guarded.finishes o label.2 s.shared (s.own o) (holds.units o) ends
      · rw [disciplined.busy _ _ owner] at ended
        cases ended
    · rcases settle_faults listed with before | raised
      · exact holds.faults fault before
      · exact guarded.raises u label.2 s.shared (s.own u) fault permitted (holds.units u) raised

/-- Along a run, what is proved of single turns holds of all units at once. -/
theorem run_holds (guarded : Guarded body allowed common inv post blame relies) {labels : List (Nat × Choice)}
    {shared : Shared} (first : common shared) (enters : ∀ u, inv u shared (body.enter u))
    (permitted : ∀ label ∈ labels, allowed label.2) (run : exec (step body) (begin body shared crew) labels = some s) :
    Disciplined crew s ∧ Holds common inv post blame s := by
  have along : Along (step body) (fun _ label => allowed label.2) (begin body shared crew) labels :=
    along_of_forall (fun label listed _ => permitted label listed) _
  have start : Holds common inv post blame (begin body shared crew) := {
    common := first
    units := enters
    finished := fun u run => by cases run
    faults := fun fault listed => by cases listed }
  refine @exec_invariant_along _ _ (step body) (fun _ label => allowed label.2)
    (fun s => Disciplined crew s ∧ Holds common inv post blame s) (fun s label t both here taken => ?_) _ _ _ along run
    ⟨begin_disciplined body shared crew, start⟩
  exact ⟨step_disciplined both.1 taken, step_holds guarded both.1 both.2 here taken⟩

/-- What a turn adds to a meter, its unit owes less: the sum stays. -/
theorem run_metered {meter : Shared → Nat} {owed : Fin n → Local → Nat}
    (conserves : ∀ u choice shared own, meter (body.turn u choice shared own).shared +
      owed u (body.turn u choice shared own).own = meter shared + owed u own)
    {labels : List (Nat × Choice)} (run : exec (step body) s labels = some t) :
    meter t.shared + ∑ u, owed u (t.own u) = meter s.shared + ∑ u, owed u (s.own u) := by
  refine @exec_related _ _ (step body)
    (fun s t => meter t.shared + ∑ u, owed u (t.own u) = meter s.shared + ∑ u, owed u (s.own u))
    (fun _ => rfl) (fun _ _ _ first second => second.trans first) (fun s label t taken => ?_) _ _ _ run
  rcases step_cases taken with ⟨shared, own, _, _⟩ | ⟨u, _, rfl⟩
  · rw [shared, own]
  · have turn := conserves u label.2 s.shared (s.own u)
    rw [settle_shared, settle_own]
    have before := Finset.add_sum_erase Finset.univ (fun o => owed o (s.own o)) (Finset.mem_univ u)
    have after := Finset.add_sum_erase Finset.univ
      (fun o => owed o (Function.update s.own u (body.turn u label.2 s.shared (s.own u)).own o)) (Finset.mem_univ u)
    have others : ∑ o ∈ Finset.univ.erase u, owed o (Function.update s.own u
        (body.turn u label.2 s.shared (s.own u)).own o) = ∑ o ∈ Finset.univ.erase u, owed o (s.own o) :=
      Finset.sum_congr rfl fun o other => by rw [Function.update_of_ne (Finset.ne_of_mem_erase other)]
    rw [Function.update_self] at after
    omega

/-- Where a turn that makes the shared state bad marks its unit for good, a bad state
    shows a marked unit. -/
theorem run_marked {bad : Shared → Prop} {mark : Local → Prop}
    (marks : ∀ u choice shared own, bad (body.turn u choice shared own).shared →
      bad shared ∨ mark (body.turn u choice shared own).own)
    (stays : ∀ u choice shared own, mark own → mark (body.turn u choice shared own).own)
    {labels : List (Nat × Choice)} (good : ¬ bad s.shared) (run : exec (step body) s labels = some t)
    (now : bad t.shared) : ∃ u, mark (t.own u) := by
  refine @exec_invariant _ _ (step body) (fun s => bad s.shared → ∃ u, mark (s.own u))
    (fun s label t before taken => ?_) _ _ _ run (fun bad => absurd bad good) now
  rcases step_cases taken with ⟨shared, own, _, _⟩ | ⟨u, _, rfl⟩
  · rw [shared, own]
    exact before
  · rw [settle_shared, settle_own]
    intro now
    rcases marks u label.2 s.shared (s.own u) now with earlier | here
    · obtain ⟨o, marked⟩ := before earlier
      by_cases same : o = u
      · subst same
        exact ⟨o, by rw [Function.update_self]; exact stays o label.2 s.shared _ marked⟩
      · exact ⟨o, by rw [Function.update_of_ne same]; exact marked⟩
    · exact ⟨u, by rw [Function.update_self]; exact here⟩

end Proofs

section Ending
variable {body : Body n Shared Local Fault Choice} {s t : Pool n Shared Local Fault} {crew : Nat}
  {rank : Fin n → Local → Nat}

def phaseLoad (rank : Nat) : Phase → Nat
  | .waiting => rank + 2
  | .running => rank + 1
  | _ => 0

def workerLoad : Worker n → Nat
  | .scheduled => 2
  | .stopped => 0
  | _ => 1

/-- The turns that are left, with what the workers still do between them. -/
def potential (rank : Fin n → Local → Nat) (crew : Nat) (s : Pool n Shared Local Fault) : Nat :=
  (∑ u, phaseLoad (rank u (s.own u)) (s.phase u)) + ∑ w ∈ Finset.range crew, workerLoad (s.workers w)

theorem workers_lower {workers : Nat → Worker n} {w : Nat} {next : Worker n} (inside : w < crew)
    (lower : workerLoad next < workerLoad (workers w)) :
    ∑ v ∈ Finset.range crew, workerLoad (Function.update workers w next v) <
      ∑ v ∈ Finset.range crew, workerLoad (workers v) := by
  refine Finset.sum_lt_sum (fun v _ => ?_) ⟨w, Finset.mem_range.mpr inside, by rwa [Function.update_self]⟩
  by_cases same : v = w
  · rw [same, Function.update_self]
    exact Nat.le_of_lt lower
  · rw [Function.update_of_ne same]

theorem workers_le {workers : Nat → Worker n} {w : Nat} {next : Worker n}
    (le : workerLoad next ≤ workerLoad (workers w)) :
    ∑ v ∈ Finset.range crew, workerLoad (Function.update workers w next v) ≤
      ∑ v ∈ Finset.range crew, workerLoad (workers v) := by
  refine Finset.sum_le_sum fun v _ => ?_
  by_cases same : v = w
  · rw [same, Function.update_self]
    exact le
  · rw [Function.update_of_ne same]

theorem units_lower {own own' : Fin n → Local} {phase phase' : Fin n → Phase} (u : Fin n)
    (lower : phaseLoad (rank u (own' u)) (phase' u) < phaseLoad (rank u (own u)) (phase u))
    (others : ∀ o, o ≠ u → own' o = own o ∧ phase' o = phase o) :
    ∑ o, phaseLoad (rank o (own' o)) (phase' o) < ∑ o, phaseLoad (rank o (own o)) (phase o) := by
  refine Finset.sum_lt_sum (fun o _ => ?_) ⟨u, Finset.mem_univ u, lower⟩
  by_cases same : o = u
  · rw [same]
    exact Nat.le_of_lt lower
  · obtain ⟨own, phase⟩ := others o same
    rw [own, phase]

theorem step_lowers (disciplined : Disciplined crew s)
    (falls : ∀ u choice shared own, (body.turn u choice shared own).verdict = .going →
      rank u (body.turn u choice shared own).own < rank u own) {label : Nat × Choice}
    (taken : step body s label = some t) : potential rank crew t < potential rank crew s := by
  have inside : label.1 < crew := by
    by_contra outside
    unfold step at taken
    rw [disciplined.manned _ (Nat.not_lt.mp outside)] at taken
    cases taken
  unfold step at taken
  split at taken
  next scheduled =>
    obtain rfl := Option.some.inj taken
    refine Nat.add_lt_add_left (workers_lower inside ?_) _
    rw [scheduled]
    split <;> simp [workerLoad]
  next claims =>
    obtain rfl := Option.some.inj taken
    unfold claim
    split
    next room =>
      have waits := (disciplined.waiting ⟨s.cursor, room⟩).mpr (Nat.le_refl _)
      refine Nat.add_lt_add_of_lt_of_le (units_lower ⟨s.cursor, room⟩ ?_ fun o other => ⟨rfl, ?_⟩) (workers_le ?_)
      · dsimp only
        rw [Function.update_self, waits]
        exact Nat.lt_succ_self _
      · exact Function.update_of_ne other _ _
      · rw [claims]
        exact Nat.le_refl _
    · refine Nat.add_lt_add_left (workers_lower inside ?_) _
      rw [claims]
      exact Nat.one_pos
  next u owner =>
    obtain rfl := Option.some.inj taken
    have runs := disciplined.busy _ _ owner
    have fall := falls u label.2 s.shared (s.own u)
    generalize body.turn u label.2 s.shared (s.own u) = turn at fall
    obtain ⟨shared, own, verdict⟩ := turn
    cases verdict with
    | going =>
      refine Nat.add_lt_add_right (units_lower u ?_ fun o other => ⟨Function.update_of_ne other _ _, rfl⟩) _
      dsimp only [settle]
      rw [Function.update_self, runs]
      exact Nat.succ_lt_succ (fall rfl)
    | finished =>
      refine Nat.add_lt_add_of_lt_of_le (units_lower u ?_ fun o other =>
        ⟨Function.update_of_ne other _ _, Function.update_of_ne other _ _⟩) (workers_le ?_)
      · dsimp only [settle]
        rw [Function.update_self, Function.update_self, runs]
        exact Nat.succ_pos _
      · dsimp only
        rw [owner]
        exact Nat.le_refl _
    | raised fault =>
      refine Nat.add_lt_add_of_lt_of_le (units_lower u ?_ fun o other =>
        ⟨Function.update_of_ne other _ _, Function.update_of_ne other _ _⟩) (workers_le ?_)
      · dsimp only [settle]
        rw [Function.update_self, Function.update_self, runs]
        exact Nat.succ_pos _
      · dsimp only
        rw [owner]
        exact Nat.zero_le _
  · cases taken

theorem run_bounded {labels : List (Nat × Choice)} (disciplined : Disciplined crew s)
    (falls : ∀ u choice shared own, (body.turn u choice shared own).verdict = .going →
      rank u (body.turn u choice shared own).own < rank u own)
    (run : exec (step body) s labels = some t) : labels.length ≤ potential rank crew s := by
  induction labels generalizing s with
  | nil => exact Nat.zero_le _
  | cons label rest ih =>
    obtain ⟨m, first, later⟩ := exec_cons_iff.mp run
    have lower := step_lowers disciplined falls first
    have tail := ih (step_disciplined disciplined first) later
    rw [List.length_cons]
    omega

/-- From any state some order of turns stops every worker. -/
theorem run_ends (choice : Choice) (disciplined : Disciplined crew s)
    (falls : ∀ u choice shared own, (body.turn u choice shared own).verdict = .going →
      rank u (body.turn u choice shared own).own < rank u own) :
    ∃ labels t, (∀ label ∈ labels, label.2 = choice) ∧ exec (step body) s labels = some t ∧ Done t := by
  refine @exec_reaches _ _ (step body) (Disciplined crew) Done (fun label => label.2 = choice) (potential rank crew)
    (fun s disciplined unfinished => ?_) s disciplined
  obtain ⟨w, at_w⟩ := not_forall.mp unfinished
  obtain ⟨t, taken⟩ : ∃ t, step body s (w, choice) = some t := by
    unfold step
    split
    · exact ⟨_, rfl⟩
    · exact ⟨_, rfl⟩
    · exact ⟨_, rfl⟩
    next stopped => exact absurd stopped at_w
  exact ⟨(w, choice), t, rfl, taken, step_disciplined disciplined taken, step_lowers disciplined falls taken⟩

end Ending

end UnitPool
