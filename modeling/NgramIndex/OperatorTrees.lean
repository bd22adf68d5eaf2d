import NgramIndex.Fallible

/- Trees of operators. An operator relates what its children yield to what it may yield
   itself, which is an error as soon as a child fails. A pass over a tree rewrites its
   operators bottom-up, and keeps what the tree yields if it keeps what each of them does. -/
namespace OperatorTrees
open Fallible
variable {Label Out Error ε : Type}

inductive OperatorTree (Label : Type) where
  | node (label : Label) (children : List (OperatorTree Label))

mutual
def rewriteTree (rewrite : Label → Except ε Label) : OperatorTree Label → Except ε (OperatorTree Label)
  | .node label children => do
      let children ← rewriteAll rewrite children
      let label ← rewrite label
      .ok (.node label children)

def rewriteAll (rewrite : Label → Except ε Label) : List (OperatorTree Label) → Except ε (List (OperatorTree Label))
  | [] => .ok []
  | tree :: rest => do
      let tree ← rewriteTree rewrite tree
      let rest ← rewriteAll rewrite rest
      .ok (tree :: rest)
end

abbrev Meaning (Label Out Error : Type) := Label → List Out → Except Error Out → Prop

section Semantics
variable (meaning : Meaning Label Out Error)

mutual
def Yields : OperatorTree Label → Except Error Out → Prop
  | .node label children, outcome =>
      (∃ inputs, YieldsAll children inputs ∧ meaning label inputs outcome) ∨
        ∃ error, outcome = .error error ∧ SomeFails children error

def YieldsAll : List (OperatorTree Label) → List Out → Prop
  | [], inputs => inputs = []
  | tree :: rest, inputs => ∃ first others, inputs = first :: others ∧ Yields tree (.ok first) ∧ YieldsAll rest others

def SomeFails : List (OperatorTree Label) → Error → Prop
  | [], _ => False
  | tree :: rest, error => Yields tree (.error error) ∨ SomeFails rest error
end

mutual
def Everywhere (meets : Label → Prop) : OperatorTree Label → Prop
  | .node label children => meets label ∧ EverywhereAll meets children

def EverywhereAll (meets : Label → Prop) : List (OperatorTree Label) → Prop
  | [] => True
  | tree :: rest => Everywhere meets tree ∧ EverywhereAll meets rest
end

/-- A tree may do what the other one may, and may fail in the ways that are tolerated. -/
def Within (tolerated : Error → Prop) (new old : Except Error Out → Prop) : Prop :=
  ∀ outcome, new outcome → old outcome ∨ ∃ error, outcome = .error error ∧ tolerated error

/-- One operator in the place of another. -/
structure Refines (tolerated : Error → Prop) (old new : Label) : Prop where
  within : ∀ inputs, Within tolerated (meaning new inputs) (meaning old inputs)
  answers : (∀ inputs, ∃ outcome, meaning old inputs outcome) → ∀ inputs, ∃ outcome, meaning new inputs outcome

theorem refines_refl (tolerated : Error → Prop) (label : Label) : Refines meaning tolerated label label where
  within _ _ yielded := .inl yielded
  answers total := total

end Semantics

section Passes
variable {meaning : Meaning Label Out Error} {tolerated : Error → Prop} {meets : Label → Prop}
  {rewrite : Label → Except ε Label}

theorem within_ok {new old : Except Error Out → Prop} (within : Within tolerated new old) {out : Out}
    (yielded : new (.ok out)) : old (.ok out) := by
  rcases within _ yielded with kept | ⟨error, failed, _⟩
  · exact kept
  · cases failed

mutual
theorem rewriteTree_within (each : ∀ old new, meets old → rewrite old = .ok new → Refines meaning tolerated old new) :
    ∀ tree tree', Everywhere meets tree → rewriteTree rewrite tree = .ok tree' →
      Within tolerated (Yields meaning tree') (Yields meaning tree)
  | .node label children, tree', met, run => by
    obtain ⟨children', below, run⟩ := bind_ok run
    obtain ⟨label', here, run⟩ := bind_ok run
    cases ok_inj run
    obtain ⟨inputs_kept, failures_kept⟩ := rewriteAll_within each children children' met.2 below
    rintro outcome (⟨inputs, fed, yielded⟩ | ⟨error, rfl, failed⟩)
    · rcases (each label label' met.1 here).within inputs outcome yielded with kept | failed
      · exact .inl (.inl ⟨inputs, inputs_kept inputs fed, kept⟩)
      · exact .inr failed
    · rcases failures_kept error failed with kept | allowed
      · exact .inl (.inr ⟨error, rfl, kept⟩)
      · exact .inr ⟨error, rfl, allowed⟩

theorem rewriteAll_within (each : ∀ old new, meets old → rewrite old = .ok new → Refines meaning tolerated old new) :
    ∀ trees trees', EverywhereAll meets trees → rewriteAll rewrite trees = .ok trees' →
      (∀ inputs, YieldsAll meaning trees' inputs → YieldsAll meaning trees inputs) ∧
      ∀ error, SomeFails meaning trees' error → SomeFails meaning trees error ∨ tolerated error
  | [], trees', _, run => by
    cases ok_inj run
    exact ⟨fun _ fed => fed, fun _ failed => failed.elim⟩
  | tree :: rest, trees', met, run => by
    obtain ⟨tree', first, run⟩ := bind_ok run
    obtain ⟨rest', others, run⟩ := bind_ok run
    cases ok_inj run
    have within := rewriteTree_within each tree tree' met.1 first
    obtain ⟨inputs_kept, failures_kept⟩ := rewriteAll_within each rest rest' met.2 others
    constructor
    · rintro _ ⟨out, outs, rfl, yielded, fed⟩
      exact ⟨out, outs, rfl, within_ok within yielded, inputs_kept outs fed⟩
    · rintro error (failed | failed)
      · rcases within _ failed with kept | ⟨_, same, allowed⟩
        · exact .inl (.inl kept)
        · cases same
          exact .inr allowed
      · exact (failures_kept error failed).imp .inr id
end

mutual
theorem yields_some : ∀ tree : OperatorTree Label,
    Everywhere (fun label => ∀ inputs, ∃ outcome, meaning label inputs outcome) tree → ∃ outcome, Yields meaning tree outcome
  | .node label children, total => by
    rcases yields_all_or_fails children total.2 with ⟨inputs, fed⟩ | ⟨error, failed⟩
    · obtain ⟨outcome, yielded⟩ := total.1 inputs
      exact ⟨outcome, .inl ⟨inputs, fed, yielded⟩⟩
    · exact ⟨.error error, .inr ⟨error, rfl, failed⟩⟩

theorem yields_all_or_fails : ∀ trees : List (OperatorTree Label),
    EverywhereAll (fun label => ∀ inputs, ∃ outcome, meaning label inputs outcome) trees →
      (∃ inputs, YieldsAll meaning trees inputs) ∨ ∃ error, SomeFails meaning trees error
  | [], _ => .inl ⟨[], rfl⟩
  | tree :: rest, total => by
    obtain ⟨outcome, yielded⟩ := yields_some tree total.1
    cases outcome with
    | error e => exact .inr ⟨e, .inl yielded⟩
    | ok out =>
      rcases yields_all_or_fails rest total.2 with ⟨inputs, fed⟩ | ⟨error, failed⟩
      · exact .inl ⟨out :: inputs, out, inputs, rfl, yielded, fed⟩
      · exact .inr ⟨error, .inr failed⟩
end

mutual
/-- What the pass makes of each operator holds everywhere in the tree that it returns. -/
theorem rewriteTree_everywhere {owed : Label → Prop} (each : ∀ old new, meets old → rewrite old = .ok new → owed new) :
    ∀ tree tree', Everywhere meets tree → rewriteTree rewrite tree = .ok tree' → Everywhere owed tree'
  | .node label children, tree', met, run => by
    obtain ⟨children', below, run⟩ := bind_ok run
    obtain ⟨label', here, run⟩ := bind_ok run
    cases ok_inj run
    exact ⟨each label label' met.1 here, rewriteAll_everywhere each children children' met.2 below⟩

theorem rewriteAll_everywhere {owed : Label → Prop} (each : ∀ old new, meets old → rewrite old = .ok new → owed new) :
    ∀ trees trees', EverywhereAll meets trees → rewriteAll rewrite trees = .ok trees' → EverywhereAll owed trees'
  | [], trees', _, run => by
    cases ok_inj run
    trivial
  | tree :: rest, trees', met, run => by
    obtain ⟨tree', first, run⟩ := bind_ok run
    obtain ⟨rest', others, run⟩ := bind_ok run
    cases ok_inj run
    exact ⟨rewriteTree_everywhere each tree tree' met.1 first, rewriteAll_everywhere each rest rest' met.2 others⟩
end

mutual
/-- A pass fails in the ways that rewriting an operator does. -/
theorem rewriteTree_fails {allowed : ε → Prop} (each : ∀ label, FailsOnly allowed (rewrite label)) :
    ∀ tree, FailsOnly allowed (rewriteTree rewrite tree)
  | .node label children => by
    rw [rewriteTree]
    exact fails_bind (rewriteAll_fails each children) fun _ _ => fails_bind (each label) fun _ _ => fails_ok _

theorem rewriteAll_fails {allowed : ε → Prop} (each : ∀ label, FailsOnly allowed (rewrite label)) :
    ∀ trees, FailsOnly allowed (rewriteAll rewrite trees)
  | [] => by
    rw [rewriteAll]
    exact fails_ok _
  | tree :: rest => by
    rw [rewriteAll]
    exact fails_bind (rewriteTree_fails each tree) fun _ _ => fails_bind (rewriteAll_fails each rest) fun _ _ => fails_ok _
end

mutual
theorem everywhere_and {owed : Label → Prop} : ∀ tree, Everywhere meets tree → Everywhere owed tree →
    Everywhere (fun label => meets label ∧ owed label) tree
  | .node _ children, met, kept => ⟨⟨met.1, kept.1⟩, everywhereAll_and children met.2 kept.2⟩

theorem everywhereAll_and {owed : Label → Prop} : ∀ trees, EverywhereAll meets trees → EverywhereAll owed trees →
    EverywhereAll (fun label => meets label ∧ owed label) trees
  | [], _, _ => trivial
  | tree :: rest, met, kept => ⟨everywhere_and tree met.1 kept.1, everywhereAll_and rest met.2 kept.2⟩
end

end Passes
end OperatorTrees
