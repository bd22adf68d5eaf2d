import Mathlib.Data.List.Forall2
import Mathlib.Tactic.Common

/- Operators that are called again and again with one input. A call either has more to
   say about the input or needs the next one, and keeps in its state where it stopped.
   What a state has left to say is a list of items, at whose end an error may wait. A call
   that gives a front of that list away, and asks for input only when the list is over,
   says every item of every input once and in order, whatever the host's buffers hold. -/
namespace ResumableOperators
variable {Input State Item Error : Type}

inductive Answer where
  | haveMoreOutput
  | needMoreInput
  deriving DecidableEq, Repr

structure Remainder (Item Error : Type) where
  items : List Item
  raises : Option Error

abbrev Call (State Item Error : Type) : Type := State → Except Error (Answer × List Item × State)

def drain (call : Call State Item Error) : Nat → State → Option (List (List Item) × Except Error State)
  | 0, _ => none
  | fuel + 1, s =>
      match call s with
      | .error e => some ([], .error e)
      | .ok (.needMoreInput, out, t) => some ([out], .ok t)
      | .ok (.haveMoreOutput, out, t) => (drain call fuel t).map fun run => (out :: run.1, run.2)

def drainInputs (call : Input → Call State Item Error) (fuel : Nat) :
    List Input → State → Option (List (List (List Item)) × Except Error State)
  | [], s => some ([], .ok s)
  | input :: inputs, s =>
      match drain (call input) fuel s with
      | none => none
      | some (outs, .error e) => some ([outs], .error e)
      | some (outs, .ok t) => (drainInputs call fuel inputs t).map fun run => (outs :: run.1, run.2)

/-- One call gives a front of what is left away: a full output when more is left, all of it
    when it needs input, and nothing when it raises. -/
structure Gives (cap : Nat) (inv : State → Prop) (left : State → Remainder Item Error) (fresh : State → Prop)
    (call : Call State Item Error) : Prop where
  raises : ∀ s e, inv s → call s = .error e → (left s).raises = some e
  ends : ∀ s out t, inv s → call s = .ok (.needMoreInput, out, t) →
    out.length ≤ cap ∧ left s = ⟨out, none⟩ ∧ fresh t
  stops : ∀ s out t, inv s → call s = .ok (.haveMoreOutput, out, t) →
    out.length = cap ∧ inv t ∧ (left s).items = out ++ (left t).items ∧ (left s).raises = (left t).raises

/-- What a run over one input has to say: all of it, or a front of it and the error. -/
def Drained (cap : Nat) (left : Remainder Item Error) (fresh : State → Prop) (outs : List (List Item))
    (result : Except Error State) : Prop :=
  (∀ out ∈ outs, out.length ≤ cap) ∧
    ((∃ t, result = .ok t ∧ fresh t ∧ left.raises = none ∧ outs.flatten = left.items) ∨
      ∃ e, result = .error e ∧ left.raises = some e ∧ outs.flatten <+: left.items)

section Contract
variable {cap : Nat} {inv : State → Prop} {left : State → Remainder Item Error} {fresh : State → Prop}
  {call : Call State Item Error}

theorem drain_drained (some_room : 0 < cap) (gives : Gives cap inv left fresh call) (fuel : Nat) {s : State}
    (held : inv s) (enough : (left s).items.length < fuel) :
    ∃ outs result, drain call fuel s = some (outs, result) ∧ Drained cap (left s) fresh outs result := by
  induction fuel generalizing s with
  | zero => omega
  | succ fuel ih =>
    rw [drain]
    cases ran : call s with
    | error e =>
      have raised := gives.raises s e held ran
      exact ⟨[], .error e, rfl, nofun, .inr ⟨e, rfl, raised, List.nil_prefix⟩⟩
    | ok answer =>
      obtain ⟨kind, out, t⟩ := answer
      cases kind with
      | needMoreInput =>
        obtain ⟨short, whole, ready⟩ := gives.ends s out t held ran
        refine ⟨[out], .ok t, rfl, List.forall_mem_singleton.mpr short, .inl ⟨t, rfl, ready, ?_⟩⟩
        rw [whole]
        exact ⟨rfl, List.append_nil out⟩
      | haveMoreOutput =>
        obtain ⟨full, kept, split, same⟩ := gives.stops s out t held ran
        have fewer : (left t).items.length < fuel := by
          rw [split, List.length_append] at enough
          omega
        obtain ⟨outs, result, run, short, said⟩ := ih kept fewer
        refine ⟨out :: outs, result, ?_, List.forall_mem_cons.mpr ⟨Nat.le_of_eq full, short⟩, ?_⟩
        · simp only [run, Option.map_some]
        rcases said with ⟨u, ended, ready, calm, all⟩ | ⟨e, ended, raised, front⟩
        · exact .inl ⟨u, ended, ready, same.trans calm, by rw [List.flatten_cons, all, split]⟩
        · refine .inr ⟨e, ended, same.trans raised, ?_⟩
          rw [List.flatten_cons, split]
          exact (List.prefix_append_right_inj out).mpr front

end Contract

inductive AllDrained (cap : Nat) (said : Input → Remainder Item Error) (fresh : State → Prop) :
    List Input → List (List (List Item)) → Except Error State → Prop where
  | done {t : State} : fresh t → AllDrained cap said fresh [] [] (.ok t)
  | next {input : Input} {inputs : List Input} {outs : List (List Item)} {others : List (List (List Item))}
      {t : State} {result : Except Error State} : Drained cap (said input) fresh outs (.ok t) →
      AllDrained cap said fresh inputs others result →
      AllDrained cap said fresh (input :: inputs) (outs :: others) result
  | raised {input : Input} {inputs : List Input} {outs : List (List Item)} {e : Error} :
      Drained cap (said input) fresh outs (.error e) →
      AllDrained cap said fresh (input :: inputs) [outs] (.error e)

section Sequence
variable {cap : Nat} {said : Input → Remainder Item Error} {fresh : State → Prop}

theorem drainInputs_drained {inv : Input → State → Prop} {left : Input → State → Remainder Item Error}
    {call : Input → Call State Item Error} (some_room : 0 < cap)
    (gives : ∀ input, Gives cap (inv input) (left input) fresh (call input))
    (start : ∀ input s, fresh s → inv input s ∧ left input s = said input) (inputs : List Input) :
    ∃ enough, ∀ fuel, enough ≤ fuel → ∀ s, fresh s → ∃ outs result,
      drainInputs call fuel inputs s = some (outs, result) ∧ AllDrained cap said fresh inputs outs result := by
  induction inputs with
  | nil => exact ⟨0, fun fuel _ s ready => ⟨[], .ok s, rfl, .done ready⟩⟩
  | cons input inputs ih =>
    obtain ⟨enough, later⟩ := ih
    refine ⟨max enough ((said input).items.length + 1), fun fuel allowed s ready => ?_⟩
    obtain ⟨held, same⟩ := start input s ready
    obtain ⟨outs, result, run, drained⟩ :=
      drain_drained some_room (gives input) fuel held (by rw [same]; omega)
    rw [same] at drained
    rcases drained with ⟨short, ⟨t, rfl, again, calm, all⟩ | ⟨e, rfl, raised, front⟩⟩
    · obtain ⟨others, result, rest, drained⟩ := later fuel (by omega) t again
      refine ⟨outs :: others, result, ?_, .next ⟨short, .inl ⟨t, rfl, again, calm, all⟩⟩ drained⟩
      simp only [drainInputs, run, rest, Option.map_some]
    · refine ⟨[outs], .error e, ?_, .raised ⟨short, .inr ⟨e, rfl, raised, front⟩⟩⟩
      simp only [drainInputs, run]

theorem allDrained_short {inputs : List Input} {outs : List (List (List Item))} {result : Except Error State}
    (drained : AllDrained cap said fresh inputs outs result) : ∀ out ∈ outs.flatten, out.length ≤ cap := by
  induction drained with
  | done ready => exact nofun
  | next first rest ih =>
    intro out listed
    rw [List.flatten_cons, List.mem_append] at listed
    exact listed.elim (first.1 out) (ih out)
  | raised first =>
    intro out listed
    rw [List.flatten_singleton] at listed
    exact first.1 out listed

theorem allDrained_ok {inputs : List Input} {outs : List (List (List Item))} {result : Except Error State}
    (drained : AllDrained cap said fresh inputs outs result) {t : State} (ended : result = .ok t) :
    fresh t ∧ List.Forall₂ (fun input out => (said input).raises = none ∧ out.flatten = (said input).items) inputs outs := by
  induction drained with
  | done ready => exact ⟨Except.ok.inj ended ▸ ready, .nil⟩
  | next first rest ih =>
    obtain ⟨ready, others⟩ := ih ended
    rcases first.2 with ⟨_, _, _, calm, all⟩ | ⟨_, raised, _⟩
    · exact ⟨ready, .cons ⟨calm, all⟩ others⟩
    · cases raised
  | raised first => cases ended

theorem allDrained_error {inputs : List Input} {outs : List (List (List Item))} {result : Except Error State}
    (drained : AllDrained cap said fresh inputs outs result) {e : Error} (ended : result = .error e) :
    ∃ done input rest front last, inputs = done ++ input :: rest ∧ outs = front ++ [last] ∧
      List.Forall₂ (fun input out => (said input).raises = none ∧ out.flatten = (said input).items) done front ∧
      (said input).raises = some e ∧ last.flatten <+: (said input).items := by
  induction drained with
  | done ready => cases ended
  | @next input inputs outs others t result first _ ih =>
    obtain ⟨done, bad, rest, front, last, rfl, rfl, before, raised⟩ := ih ended
    rcases first.2 with ⟨_, _, _, calm, all⟩ | ⟨_, raised, _⟩
    · exact ⟨input :: done, bad, rest, outs :: front, last, rfl, rfl, .cons ⟨calm, all⟩ before, raised⟩
    · cases raised
  | @raised input inputs outs e first =>
    cases ended
    rcases first.2 with ⟨_, calm, _⟩ | ⟨_, same, raised, front⟩
    · cases calm
    · cases same
      exact ⟨[], input, inputs, [], outs, rfl, rfl, .nil, raised, front⟩

end Sequence

end ResumableOperators
