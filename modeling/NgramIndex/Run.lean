import Mathlib.Data.List.Induction

/- Finite runs of a labelled partial step function. A label that the step
   refuses ends the run with none, so a run is a legal order of events. -/
namespace LabelledRun
variable {State Label : Type*}

def exec (step : State → Label → Option State) : State → List Label → Option State
  | s, [] => some s
  | s, e :: rest => (step s e).bind fun t => exec step t rest

/-- Every step of the run starts in a state where its label meets the condition. -/
def Along (step : State → Label → Option State) (meets : State → Label → Prop) :
    State → List Label → Prop
  | _, [] => True
  | s, e :: rest => meets s e ∧ ∀ t, step s e = some t → Along step meets t rest

def Ordered (allowed : List Label → Label → Prop) (labels : List Label) : Prop :=
  ∀ past e later, labels = past ++ e :: later → allowed past e

@[simp] theorem exec_nil (step : State → Label → Option State) (s : State) :
    exec step s [] = some s := rfl

theorem exec_cons_iff {step : State → Label → Option State} {s u : State} {e : Label}
    {rest : List Label} : exec step s (e :: rest) = some u ↔
      ∃ t, step s e = some t ∧ exec step t rest = some u := by
  simp [exec, Option.bind_eq_some_iff]

theorem exec_append_iff {step : State → Label → Option State} {s u : State} {front back : List Label} :
    exec step s (front ++ back) = some u ↔
      ∃ t, exec step s front = some t ∧ exec step t back = some u := by
  induction front generalizing s with
  | nil => simp
  | cons e rest ih =>
    rw [List.cons_append, exec_cons_iff]
    constructor
    · rintro ⟨t, first, tail⟩
      obtain ⟨v, middle, last⟩ := ih.mp tail
      exact ⟨v, exec_cons_iff.mpr ⟨t, first, middle⟩, last⟩
    · rintro ⟨v, front_run, last⟩
      obtain ⟨t, first, middle⟩ := exec_cons_iff.mp front_run
      exact ⟨t, first, ih.mpr ⟨v, middle, last⟩⟩

theorem exec_snoc_iff {step : State → Label → Option State} {s u : State} {front : List Label} {e : Label} :
    exec step s (front ++ [e]) = some u ↔ ∃ t, exec step s front = some t ∧ step t e = some u := by
  simp [exec_append_iff, exec_cons_iff]

theorem exec_split {step : State → Label → Option State} {s u : State} {labels past later : List Label} {e : Label}
    (run : exec step s labels = some u) (split : labels = past ++ e :: later) :
    ∃ t v, exec step s past = some t ∧ step t e = some v ∧ exec step v later = some u := by
  subst split
  obtain ⟨t, before, rest⟩ := exec_append_iff.mp run
  obtain ⟨v, first, after⟩ := exec_cons_iff.mp rest
  exact ⟨t, v, before, first, after⟩

theorem ordered_nil (allowed : List Label → Label → Prop) : Ordered allowed [] :=
  fun _ _ _ split => absurd split.symm (List.append_ne_nil_of_right_ne_nil _ (List.cons_ne_nil _ _))

theorem ordered_snoc_iff {allowed : List Label → Label → Prop} {labels : List Label} {e : Label} :
    Ordered allowed (labels ++ [e]) ↔ Ordered allowed labels ∧ allowed labels e := by
  constructor
  · intro ordered
    refine ⟨fun past f later split => ?_, ordered labels e [] rfl⟩
    exact ordered past f (later ++ [e]) (by rw [split, List.append_assoc, List.cons_append])
  · rintro ⟨earlier, last⟩ past f later split
    rcases List.eq_nil_or_concat later with rfl | ⟨rest, g, rfl⟩
    · obtain ⟨rfl, same⟩ := List.append_inj' split rfl
      obtain rfl : e = f := List.head_eq_of_cons_eq same
      exact last
    · rw [List.concat_eq_append, ← List.cons_append, ← List.append_assoc] at split
      obtain ⟨rfl, _⟩ := List.append_inj' split rfl
      exact earlier past f rest rfl

theorem ordered_front {allowed : List Label → Label → Prop} {front back : List Label}
    (ordered : Ordered allowed (front ++ back)) : Ordered allowed front := fun past e later split =>
  ordered past e (later ++ back) (by rw [split, List.append_assoc, List.cons_append])

def OrderedAfter (allowed : List Label → Label → Prop) : List Label → List Label → Prop
  | _, [] => True
  | past, e :: rest => allowed past e ∧ OrderedAfter allowed (past ++ [e]) rest

theorem ordered_append_iff {allowed : List Label → Label → Prop} {past labels : List Label} :
    Ordered allowed (past ++ labels) ↔ Ordered allowed past ∧ OrderedAfter allowed past labels := by
  induction labels generalizing past with
  | nil => rw [List.append_nil, OrderedAfter, and_true]
  | cons e rest ih => rw [List.append_cons, ih, ordered_snoc_iff, OrderedAfter, and_assoc]

theorem ordered_of_after {allowed : List Label → Label → Prop} {labels : List Label}
    (each : OrderedAfter allowed [] labels) : Ordered allowed labels :=
  (@ordered_append_iff _ allowed [] labels).mpr ⟨ordered_nil allowed, each⟩

/-- An invariant may speak of the labels so far. -/
theorem exec_history {step : State → Label → Option State} {allowed : List Label → Label → Prop}
    {inv : List Label → State → Prop}
    (preserves : ∀ past s e t, inv past s → allowed past e → step s e = some t → inv (past ++ [e]) t)
    {s u : State} {labels : List Label} (ordered : Ordered allowed labels)
    (run : exec step s labels = some u) (start : inv [] s) : inv labels u := by
  induction labels using List.reverseRecOn generalizing u with
  | nil =>
    obtain rfl : s = u := by simpa using run
    exact start
  | append_singleton past e ih =>
    obtain ⟨t, before, last⟩ := exec_snoc_iff.mp run
    obtain ⟨earlier, legal⟩ := ordered_snoc_iff.mp ordered
    exact preserves past t e u (ih earlier before) legal last

theorem exec_invariant_along {step : State → Label → Option State}
    {meets : State → Label → Prop} {inv : State → Prop}
    (preserves : ∀ s e t, inv s → meets s e → step s e = some t → inv t)
    {s u : State} {labels : List Label} (along : Along step meets s labels)
    (run : exec step s labels = some u) (start : inv s) : inv u := by
  induction labels generalizing s with
  | nil =>
    obtain rfl : s = u := by simpa using run
    exact start
  | cons e rest ih =>
    obtain ⟨t, first, tail⟩ := exec_cons_iff.mp run
    exact ih (along.2 t first) tail (preserves s e t start along.1 first)

theorem along_of_forall {step : State → Label → Option State} {meets : State → Label → Prop}
    {labels : List Label} (each : ∀ e ∈ labels, ∀ s, meets s e) (s : State) : Along step meets s labels := by
  induction labels generalizing s with
  | nil => trivial
  | cons e rest ih =>
    obtain ⟨first, others⟩ := List.forall_mem_cons.mp each
    exact ⟨first s, fun t _ => ih others t⟩

theorem along_or_breaks {step : State → Label → Option State} {meets : State → Label → Prop}
    {s u : State} {labels : List Label} (run : exec step s labels = some u) :
    Along step meets s labels ∨ ∃ before e after t, labels = before ++ e :: after ∧
      exec step s before = some t ∧ ¬ meets t e := by
  induction labels generalizing s with
  | nil => exact Or.inl trivial
  | cons e rest ih =>
    obtain ⟨t, first, tail⟩ := exec_cons_iff.mp run
    by_cases met : meets s e
    · rcases ih tail with along | ⟨before, f, after, v, eq, reached, breaks⟩
      · refine Or.inl ⟨met, fun v second => ?_⟩
        obtain rfl : t = v := Option.some.inj (first.symm.trans second)
        exact along
      · exact Or.inr ⟨e :: before, f, after, v, by rw [eq, List.cons_append],
          exec_cons_iff.mpr ⟨t, first, reached⟩, breaks⟩
    · exact Or.inr ⟨[], e, rest, s, rfl, rfl, met⟩

theorem along_trivial (step : State → Label → Option State) (s : State)
    (labels : List Label) : Along step (fun _ _ => True) s labels :=
  along_of_forall (fun _ _ _ => trivial) s

/-- Along a run that is legal to its end, a condition may use that each step was taken. -/
theorem along_of_run {step : State → Label → Option State} {meets owed : State → Label → Prop}
    (implies : ∀ s e t, step s e = some t → meets s e → owed s e) {s u : State} {labels : List Label}
    (run : exec step s labels = some u) (along : Along step meets s labels) :
    Along step owed s labels := by
  induction labels generalizing s with
  | nil => trivial
  | cons e rest ih =>
    obtain ⟨t, first, tail⟩ := exec_cons_iff.mp run
    refine ⟨implies s e t first along.1, fun v second => ?_⟩
    obtain rfl : t = v := Option.some.inj (first.symm.trans second)
    exact ih tail (along.2 t first)

instance alongDecidable (step : State → Label → Option State) (meets : State → Label → Prop)
    [∀ s e, Decidable (meets s e)] : ∀ s labels, Decidable (Along step meets s labels)
  | _, [] => isTrue trivial
  | s, e :: rest =>
      match next : step s e with
      | none => decidable_of_iff (meets s e) ⟨fun met => ⟨met, fun t taken => by rw [next] at taken; cases taken⟩, And.left⟩
      | some t =>
          have : Decidable (Along step meets t rest) := alongDecidable step meets t rest
          decidable_of_iff (meets s e ∧ Along step meets t rest)
            ⟨fun both => ⟨both.1, fun u taken => by rw [next] at taken; cases taken; exact both.2⟩,
              fun along => ⟨along.1, along.2 t next⟩⟩

theorem exec_invariant {step : State → Label → Option State} {inv : State → Prop}
    (preserves : ∀ s e t, inv s → step s e = some t → inv t)
    {s u : State} {labels : List Label} (run : exec step s labels = some u)
    (start : inv s) : inv u :=
  exec_invariant_along (fun s e t hs _ => preserves s e t hs) (along_trivial step s labels) run start

theorem exec_related {step : State → Label → Option State} {rel : State → State → Prop}
    (refl : ∀ s, rel s s) (trans : ∀ s t u, rel s t → rel t u → rel s u)
    (advance : ∀ s e t, step s e = some t → rel s t)
    {s u : State} {labels : List Label} (run : exec step s labels = some u) : rel s u := by
  induction labels generalizing s with
  | nil =>
    obtain rfl : s = u := by simpa using run
    exact refl s
  | cons e rest ih =>
    obtain ⟨t, first, tail⟩ := exec_cons_iff.mp run
    exact trans s t u (advance s e t first) (ih tail)

theorem exec_view {Other : Type*} {step : State → Label → Option State} {plain : Other → Label → Option Other}
    {view : State → Other} (respects : ∀ s e t, step s e = some t → plain (view s) e = some (view t))
    {s u : State} {labels : List Label} (run : exec step s labels = some u) :
    exec plain (view s) labels = some (view u) := by
  induction labels generalizing s with
  | nil =>
    obtain rfl : s = u := by simpa using run
    rfl
  | cons e rest ih =>
    obtain ⟨t, first, tail⟩ := exec_cons_iff.mp run
    exact exec_cons_iff.mpr ⟨view t, respects s e t first, ih tail⟩

theorem exec_lift {Other : Type*} {step : State → Label → Option State} {plain : Other → Label → Option Other}
    {view : State → Other} (lifts : ∀ s e t, plain (view s) e = some t → ∃ u, step s e = some u ∧ view u = t)
    {s : State} {t : Other} {labels : List Label} (run : exec plain (view s) labels = some t) :
    ∃ u, exec step s labels = some u ∧ view u = t := by
  induction labels generalizing s with
  | nil => exact ⟨s, rfl, Option.some.inj run⟩
  | cons e rest ih =>
    obtain ⟨middle, first, later⟩ := exec_cons_iff.mp run
    obtain ⟨v, step_v, rfl⟩ := lifts s e middle first
    obtain ⟨u, run_u, same⟩ := ih later
    exact ⟨u, exec_cons_iff.mpr ⟨v, step_v, run_u⟩, same⟩

/-- Where some allowed step lowers the potential as long as the goal fails, a run of
    allowed steps reaches the goal. -/
theorem exec_reaches {step : State → Label → Option State} {inv goal : State → Prop}
    {allowed : Label → Prop} (potential : State → Nat)
    (moves : ∀ s, inv s → ¬ goal s → ∃ e t, allowed e ∧ step s e = some t ∧ inv t ∧ potential t < potential s)
    {s : State} (start : inv s) :
    ∃ labels u, (∀ e ∈ labels, allowed e) ∧ exec step s labels = some u ∧ goal u := by
  induction left : potential s using Nat.strongRecOn generalizing s with
  | ind left_s ih =>
    by_cases reached : goal s
    · exact ⟨[], s, nofun, rfl, reached⟩
    · obtain ⟨e, t, listed, first, kept, lower⟩ := moves s start reached
      obtain ⟨rest, u, all, tail, last⟩ := ih (potential t) (left ▸ lower) kept rfl
      exact ⟨e :: rest, u, List.forall_mem_cons.mpr ⟨listed, all⟩, exec_cons_iff.mpr ⟨t, first, tail⟩, last⟩

end LabelledRun
