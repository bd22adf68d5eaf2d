import Mathlib.Algebra.GroupWithZero.Nat
import NgramIndex.Fallible

/- Unchecked arithmetic on unsigned words and a bounded reservation, with an error
   of its own where an operation would wrap, divide by zero or overrun. A program over them agrees
   with its version over the natural numbers when none of these errors is met. -/
namespace MachineWord
open Fallible
variable {ε α β σ : Type}

inductive Fault (ε : Type) where
  | thrown (error : ε)
  | wrapped
  | overrun
  deriving DecidableEq, Repr

def addWord (top left right : Nat) : Except (Fault ε) Nat :=
  if left + right ≤ top then .ok (left + right) else .error .wrapped

def subWord (left right : Nat) : Except (Fault ε) Nat :=
  if right ≤ left then .ok (left - right) else .error .wrapped

def mulWord (top left right : Nat) : Except (Fault ε) Nat :=
  if left * right ≤ top then .ok (left * right) else .error .wrapped

def divWord (left right : Nat) : Except (Fault ε) Nat :=
  if right = 0 then .error .wrapped else .ok (left / right)

def signedWord (top : Nat) (value : Int) : Except (Fault ε) Int :=
  if -(top : Int) - 1 ≤ value ∧ value ≤ top then .ok value else .error .wrapped

def grow (budget reserved extra : Nat) : Except (Fault ε) Nat :=
  if reserved + extra ≤ budget then .ok (reserved + extra) else .error .overrun

def lift (x : Except ε α) : Except (Fault ε) α := x.mapError .thrown

def Agrees (word : Except (Fault ε) α) (plain : Except ε α) : Prop := word = lift plain

theorem agrees_faultless {word : Except (Fault ε) α} {plain : Except ε α} (agrees : Agrees word plain) :
    word ≠ .error .wrapped ∧ word ≠ .error .overrun := by
  unfold Agrees at agrees
  subst agrees
  cases plain with
  | error e => exact ⟨nofun, nofun⟩
  | ok a => exact ⟨nofun, nofun⟩

theorem agrees_lift (x : Except ε α) : Agrees (lift x) x := rfl

theorem agrees_ok (a : α) : Agrees (.ok a : Except (Fault ε) α) (.ok a) := rfl

theorem agrees_bind {word : Except (Fault ε) α} {plain : Except ε α} {f : α → Except (Fault ε) β}
    {g : α → Except ε β} (first : Agrees word plain) (rest : ∀ a, plain = .ok a → Agrees (f a) (g a)) :
    Agrees (word >>= f) (plain >>= g) := by
  unfold Agrees at first
  subst first
  cases plain with
  | error e => rfl
  | ok a => exact rest a rfl

theorem agrees_branch {c : Prop} [Decidable c] {word other : Except (Fault ε) α} {plain : Except ε α}
    {others : Except ε α} (first : c → Agrees word plain) (rest : ¬ c → Agrees other others) :
    Agrees (if c then word else other) (if c then plain else others) := by
  split
  · exact first ‹_›
  · exact rest ‹_›

theorem agrees_check {c : Prop} [Decidable c] {e : ε} {word : Except (Fault ε) α} {plain : Except ε α}
    (rest : ¬ c → Agrees word plain) :
    Agrees (if c then .error (.thrown e) else word) (if c then .error e else plain) :=
  agrees_branch (fun _ => rfl) rest

section Operations
variable {top left right budget : Nat} {f : Nat → Except (Fault ε) α} {plain : Except ε α}

theorem agrees_add (fits : left + right ≤ top) (rest : Agrees (f (left + right)) plain) :
    Agrees (addWord top left right >>= f) plain := by
  rw [addWord, if_pos fits]
  exact rest

theorem agrees_sub (below : right ≤ left) (rest : Agrees (f (left - right)) plain) :
    Agrees (subWord left right >>= f) plain := by
  rw [subWord, if_pos below]
  exact rest

theorem agrees_mul (fits : left * right ≤ top) (rest : Agrees (f (left * right)) plain) :
    Agrees (mulWord top left right >>= f) plain := by
  rw [mulWord, if_pos fits]
  exact rest

theorem agrees_div (divides : right ≠ 0) (rest : Agrees (f (left / right)) plain) :
    Agrees (divWord left right >>= f) plain := by
  rw [divWord, if_neg divides]
  exact rest

theorem agrees_grow (fits : left + right ≤ budget) (rest : Agrees (f (left + right)) plain) :
    Agrees (grow budget left right >>= f) plain := by
  rw [grow, if_pos fits]
  exact rest

theorem agrees_signed {value : Int} {f : Int → Except (Fault ε) α} (low : -(top : Int) - 1 ≤ value)
    (high : value ≤ top) (rest : Agrees (f value) plain) : Agrees (signedWord top value >>= f) plain := by
  rw [signedWord, if_pos ⟨low, high⟩]
  exact rest

end Operations

theorem sumWords_ok {top first : Nat} {f : α → Nat} {l : List α} (fits : first + (l.map f).sum ≤ top) :
    l.foldlM (fun sum a => addWord top sum (f a)) first = (.ok (first + (l.map f).sum) : Except (Fault ε) Nat) := by
  induction l generalizing first with
  | nil => rfl
  | cons a l ih =>
    rw [List.map_cons, List.sum_cons, ← Nat.add_assoc] at fits ⊢
    rw [List.foldlM_cons, addWord, if_pos (by omega)]
    exact ih fits

/-- Folds agree while an invariant of the plain one holds. -/
theorem agrees_foldlM {f : σ → α → Except (Fault ε) σ} {g : σ → α → Except ε σ} (inv : σ → Prop)
    (l : List α) {s : σ} (start : inv s)
    (step : ∀ s, ∀ a ∈ l, inv s → Agrees (f s a) (g s a) ∧ ∀ t, g s a = .ok t → inv t) :
    Agrees (l.foldlM f s) (l.foldlM g s) := by
  induction l generalizing s with
  | nil => exact agrees_ok s
  | cons a l ih =>
    rw [List.foldlM_cons, List.foldlM_cons]
    obtain ⟨first, kept⟩ := step s a List.mem_cons_self start
    exact agrees_bind first fun t ran => ih (kept t ran) fun u b listed => step u b (List.mem_cons_of_mem a listed)

end MachineWord
