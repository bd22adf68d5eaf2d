import NgramIndex.Fallible

/- Fallible computations that count what they spend, also on the way to an error.
   A computation pays from a budget when what it spends fits the budget whatever
   its outcome, and what a success leaves over is what the next step may spend. -/
namespace MeteredRun
open Fallible
variable {ε α β σ : Type}

structure Metered (ε α : Type) where
  spent : Nat
  result : Except ε α

instance : Monad (Metered ε) where
  pure a := ⟨0, .ok a⟩
  bind x f := match x.result with
    | .ok a => ⟨x.spent + (f a).spent, (f a).result⟩
    | .error e => ⟨x.spent, .error e⟩

namespace Metered

def lift (x : Except ε α) : Metered ε α := ⟨0, x⟩

def raise (e : ε) : Metered ε α := ⟨0, .error e⟩

def spend (amount : Nat) : Metered ε Unit := ⟨amount, .ok ()⟩

end Metered

open Metered

@[simp] theorem spent_pure (a : α) : (pure a : Metered ε α).spent = 0 := rfl
@[simp] theorem spent_lift (x : Except ε α) : (lift x).spent = 0 := rfl
@[simp] theorem spent_raise (e : ε) : (raise e : Metered ε α).spent = 0 := rfl
@[simp] theorem spent_spend (amount : Nat) : (spend amount : Metered ε Unit).spent = amount := rfl
@[simp] theorem result_pure (a : α) : (pure a : Metered ε α).result = .ok a := rfl
@[simp] theorem result_lift (x : Except ε α) : (lift x).result = x := rfl
@[simp] theorem result_raise (e : ε) : (raise e : Metered ε α).result = .error e := rfl
@[simp] theorem result_spend (amount : Nat) : (spend amount : Metered ε Unit).result = .ok () := rfl

theorem bind_of_result {x : Metered ε α} {f : α → Metered ε β} {a : α} (run : x.result = .ok a) :
    x >>= f = ⟨x.spent + (f a).spent, (f a).result⟩ := by
  show (match x.result with
    | .ok a => (⟨x.spent + (f a).spent, (f a).result⟩ : Metered ε β)
    | .error e => ⟨x.spent, .error e⟩) = _
  rw [run]

theorem bind_of_error {x : Metered ε α} {f : α → Metered ε β} {e : ε} (run : x.result = .error e) :
    x >>= f = ⟨x.spent, .error e⟩ := by
  show (match x.result with
    | .ok a => (⟨x.spent + (f a).spent, (f a).result⟩ : Metered ε β)
    | .error e => ⟨x.spent, .error e⟩) = _
  rw [run]

/-- Without the meter a computation is a plain fallible one. -/
theorem result_bind (x : Metered ε α) (f : α → Metered ε β) :
    (x >>= f).result = x.result >>= fun a => (f a).result := by
  cases run : x.result with
  | ok a => rw [bind_of_result run]; rfl
  | error e => rw [bind_of_error run]; rfl

theorem result_foldlM {f : σ → α → Metered ε σ} {g : σ → α → Except ε σ}
    (same : ∀ s a, (f s a).result = g s a) (l : List α) (s : σ) :
    (l.foldlM f s).result = l.foldlM g s := by
  induction l generalizing s with
  | nil => rfl
  | cons a l ih =>
    rw [List.foldlM_cons, List.foldlM_cons, result_bind, same]
    cases g s a with
    | ok t => exact ih t
    | error e => rfl

/-- What is spent stays within the budget, with something left on success. -/
structure Pays (budget : Nat) (left : α → Nat) (x : Metered ε α) : Prop where
  spent : x.spent ≤ budget
  leaves : ∀ a, x.result = .ok a → x.spent + left a ≤ budget

section pays
variable {budget : Nat} {left : α → Nat} {rest : β → Nat}

theorem pays_pure {a : α} (within : left a ≤ budget) : Pays budget left (pure a : Metered ε α) := by
  refine ⟨Nat.zero_le _, fun b run => ?_⟩
  obtain rfl : a = b := ok_inj run
  simpa using within

theorem pays_lift {x : Except ε α} (within : ∀ a, x = .ok a → left a ≤ budget) : Pays budget left (lift x) :=
  ⟨Nat.zero_le _, fun a run => by simpa using within a run⟩

theorem pays_raise (e : ε) : Pays budget left (raise e) := ⟨Nat.zero_le _, nofun⟩

/-- A step without a cost hands its whole budget on. -/
theorem pays_lift_bind {x : Except ε α} {f : α → Metered ε β}
    (later : ∀ a, x = .ok a → Pays budget rest (f a)) : Pays budget rest (lift x >>= f) := by
  cases run : x with
  | error e =>
    rw [bind_of_error (rfl : (lift (.error e) : Metered ε α).result = .error e)]
    exact ⟨Nat.zero_le _, nofun⟩
  | ok a =>
    rw [bind_of_result (rfl : (lift (.ok a) : Metered ε α).result = .ok a)]
    obtain ⟨spent, leaves⟩ := later a run
    refine ⟨by simpa using spent, fun b done => ?_⟩
    simpa using leaves b done

theorem pays_bind {x : Metered ε α} {f : α → Metered ε β} (first : Pays budget left x)
    (later : ∀ a, x.result = .ok a → Pays (left a) rest (f a)) : Pays budget rest (x >>= f) := by
  cases run : x.result with
  | error e =>
    rw [bind_of_error run]
    exact ⟨first.spent, nofun⟩
  | ok a =>
    rw [bind_of_result run]
    have here := first.leaves a run
    obtain ⟨spent, leaves⟩ := later a run
    refine ⟨by simp only; omega, fun b done => ?_⟩
    have there := leaves b done
    simp only
    omega

theorem pays_spend_bind {amount : Nat} {f : Unit → Metered ε β} (within : amount ≤ budget)
    (later : Pays (budget - amount) rest (f ())) : Pays budget rest (spend amount >>= f) := by
  have first : Pays budget (fun _ => budget - amount) (spend amount : Metered ε Unit) :=
    ⟨within, fun _ _ => Nat.le_of_eq (Nat.add_sub_of_le within)⟩
  exact pays_bind first fun _ _ => later

/-- What a step does not touch stays for the steps after it. -/
theorem pays_frame {x : Metered ε α} (pays : Pays budget left x) (more : Nat) :
    Pays (budget + more) (fun a => left a + more) x := by
  refine ⟨Nat.le_add_right_of_le pays.spent, fun a run => ?_⟩
  have here := pays.leaves a run
  omega

/-- Each step of the fold pays from what its state has left. -/
theorem pays_foldlM {f : σ → α → Metered ε σ} {left : σ → Nat} (l : List α)
    (each : ∀ s, ∀ a ∈ l, Pays (left s) left (f s a)) (s : σ) : Pays (left s) left (l.foldlM f s) := by
  induction l generalizing s with
  | nil => exact pays_pure (Nat.le_refl _)
  | cons a l ih =>
    rw [List.foldlM_cons]
    refine pays_bind (each s a List.mem_cons_self) fun t _ => ?_
    exact ih (fun t b listed => each t b (List.mem_cons_of_mem _ listed)) t

end pays

end MeteredRun
