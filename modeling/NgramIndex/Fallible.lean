import Mathlib.Data.List.Basic
import Mathlib.Data.List.Forall2

/- Reading a successful Except run backwards: each bind, check, fold and map of
   a run that returned ok returned ok itself. -/
namespace Fallible
variable {ε α β σ : Type}

theorem bind_ok {x : Except ε α} {f : α → Except ε β} {b : β} (run : (x >>= f) = .ok b) :
    ∃ a, x = .ok a ∧ f a = .ok b := by
  cases x with
  | error e => cases run
  | ok a => exact ⟨a, rfl, run⟩

theorem check_ok {c : Prop} [Decidable c] {e : ε} {rest : Except ε β} {b : β}
    (run : (if c then .error e else rest) = .ok b) : ¬ c ∧ rest = .ok b := by
  split at run
  · cases run
  · exact ⟨‹_›, run⟩

theorem branch_ok {c : Prop} [Decidable c] {left right : Except ε β} {b : β}
    (run : (if c then left else right) = .ok b) : c ∧ left = .ok b ∨ ¬ c ∧ right = .ok b := by
  split at run
  · exact .inl ⟨‹_›, run⟩
  · exact .inr ⟨‹_›, run⟩

theorem bind_of_ok {x : Except ε α} {f : α → Except ε β} {a : α} (run : x = .ok a) :
    (x >>= f) = f a := by
  rw [run]
  rfl

theorem check_of_not {c : Prop} [Decidable c] {e : ε} {rest : Except ε β} (passes : ¬ c) :
    (if c then .error e else rest) = rest := if_neg passes

theorem ok_inj {a b : α} (run : (.ok a : Except ε α) = .ok b) : a = b := Except.ok.inj run

theorem toOption_ok {x : Except ε α} {a : α} (present : x.toOption = some a) : x = .ok a := by
  cases x with
  | error e => cases present
  | ok b =>
    cases present
    rfl

theorem toOption_join {x : Except ε (Option α)} {a : α} : x.toOption.join = some a ↔ x = .ok (some a) := by
  cases x with
  | error e => exact ⟨nofun, nofun⟩
  | ok b =>
    rw [Except.ok.injEq]
    rfl

theorem foldlM_cons_ok {f : σ → α → Except ε σ} {a : α} {l : List α} {s t : σ}
    (run : (a :: l).foldlM f s = .ok t) : ∃ u, f s a = .ok u ∧ l.foldlM f u = .ok t := by
  rw [List.foldlM_cons] at run
  exact bind_ok run

theorem foldlM_append_ok {f : σ → α → Except ε σ} {front back : List α} {s t : σ}
    (run : (front ++ back).foldlM f s = .ok t) :
    ∃ u, front.foldlM f s = .ok u ∧ back.foldlM f u = .ok t := by
  rw [List.foldlM_append] at run
  exact bind_ok run

theorem forM_ok {f : α → Except ε Unit} {l : List α} {u : Unit} (run : l.forM f = .ok u) :
    ∀ a ∈ l, f a = .ok () := by
  induction l with
  | nil => simp
  | cons a rest ih =>
    obtain ⟨_, first, tail⟩ := bind_ok run
    exact List.forall_mem_cons.mpr ⟨first, ih tail⟩

/-- A property of the prefix handled so far is kept along a successful fold. -/
theorem foldlM_prefix {f : σ → α → Except ε σ} (inv : List α → σ → Prop) (l : List α) {s t : σ}
    (step : ∀ done a s t, inv done s → f s a = .ok t → inv (done ++ [a]) t)
    (start : inv [] s) (run : l.foldlM f s = .ok t) : inv l t := by
  suffices general : ∀ done s, inv done s → l.foldlM f s = .ok t → inv (done ++ l) t by
    simpa using general [] s start run
  clear start run
  induction l with
  | nil =>
    intro done s held run
    obtain rfl : s = t := ok_inj run
    simpa using held
  | cons a l ih =>
    intro done s held run
    obtain ⟨u, first, rest⟩ := foldlM_cons_ok run
    have reached := ih (done ++ [a]) u (step done a s u held first) rest
    simpa using reached

theorem mapM_ok {f : α → Except ε β} {l : List α} {r : List β} (run : l.mapM f = .ok r) :
    List.Forall₂ (fun a b => f a = .ok b) l r := by
  induction l generalizing r with
  | nil =>
    rw [List.mapM_nil] at run
    obtain rfl : [] = r := ok_inj run
    exact List.Forall₂.nil
  | cons a l ih =>
    rw [List.mapM_cons] at run
    obtain ⟨b, first, run⟩ := bind_ok run
    obtain ⟨bs, others, run⟩ := bind_ok run
    obtain rfl : b :: bs = r := ok_inj run
    exact List.Forall₂.cons first (ih others)

theorem mapM_ok_left {f : α → Except ε β} {l : List α} {r : List β} (run : l.mapM f = .ok r) :
    ∀ a ∈ l, ∃ b ∈ r, f a = .ok b := by
  have paired := mapM_ok run
  clear run
  induction paired with
  | nil => simp
  | @cons a b l r first _ ih =>
    intro other present
    rcases List.mem_cons.mp present with rfl | later
    · exact ⟨b, List.mem_cons_self, first⟩
    · obtain ⟨c, found, same⟩ := ih other later
      exact ⟨c, List.mem_cons_of_mem b found, same⟩

theorem mapM_ok_right {f : α → Except ε β} {l : List α} {r : List β} (run : l.mapM f = .ok r) :
    ∀ b ∈ r, ∃ a ∈ l, f a = .ok b := by
  have paired := mapM_ok run
  clear run
  induction paired with
  | nil => simp
  | @cons a b l r first _ ih =>
    intro other present
    rcases List.mem_cons.mp present with rfl | later
    · exact ⟨a, List.mem_cons_self, first⟩
    · obtain ⟨c, found, same⟩ := ih other later
      exact ⟨c, List.mem_cons_of_mem a found, same⟩

theorem mapM_filterMap {γ : Type} {f : α → Except ε β} (g : β → Option γ) {l : List α} {r : List β}
    (run : l.mapM f = .ok r) : r.filterMap g = l.filterMap fun a => (f a).toOption.bind g := by
  have paired := mapM_ok run
  clear run
  induction paired with
  | nil => rfl
  | @cons a b l r first _ ih =>
    have here : (f a).toOption.bind g = g b := by
      rw [first]
      rfl
    rw [List.filterMap_cons, List.filterMap_cons, here, ih]

theorem mapM_pairwise {f : α → Except ε β} {left : α → α → Prop} {right : β → β → Prop}
    (link : ∀ a b c d, left a c → f a = .ok b → f c = .ok d → right b d) {l : List α} {r : List β}
    (run : l.mapM f = .ok r) (related : l.Pairwise left) : r.Pairwise right := by
  induction l generalizing r with
  | nil =>
    rw [List.mapM_nil] at run
    obtain rfl : [] = r := ok_inj run
    exact List.Pairwise.nil
  | cons a l ih =>
    rw [List.mapM_cons] at run
    obtain ⟨b, first, run⟩ := bind_ok run
    obtain ⟨bs, others, run⟩ := bind_ok run
    obtain rfl : b :: bs = r := ok_inj run
    obtain ⟨ahead, rest⟩ := List.pairwise_cons.mp related
    apply List.Pairwise.cons _ (ih others rest)
    intro d listed
    obtain ⟨c, present, mapped⟩ := mapM_ok_right others d listed
    exact link a b c d (ahead c present) first mapped

theorem mapM_total {f : α → Except ε β} (l : List α) (each : ∀ a ∈ l, ∃ b, f a = .ok b) :
    ∃ r, l.mapM f = .ok r := by
  induction l with
  | nil => exact ⟨[], rfl⟩
  | cons a l ih =>
    obtain ⟨b, first⟩ := each a List.mem_cons_self
    obtain ⟨bs, others⟩ := ih fun c listed => each c (List.mem_cons_of_mem a listed)
    exact ⟨b :: bs, by rw [List.mapM_cons, first, others]; rfl⟩

theorem mapM_ok_of {f : α → Except ε β} (g : α → β) (l : List α) (each : ∀ a ∈ l, f a = .ok (g a)) :
    l.mapM f = .ok (l.map g) := by
  induction l with
  | nil => rfl
  | cons a l ih =>
    rw [List.mapM_cons, each a (by simp), ih fun b hb => each b (by simp [hb])]
    rfl

def FailsOnly (allowed : ε → Prop) (x : Except ε α) : Prop := ∀ e, x = .error e → allowed e

section FailsOnly
variable {allowed : ε → Prop}

theorem fails_ok (a : α) : FailsOnly allowed (.ok a : Except ε α) := nofun

theorem fails_bind {x : Except ε α} {f : α → Except ε β} (first : FailsOnly allowed x)
    (rest : ∀ a, x = .ok a → FailsOnly allowed (f a)) : FailsOnly allowed (x >>= f) := by
  cases x with
  | error e =>
    rintro _ ⟨⟩
    exact first e rfl
  | ok a => exact rest a rfl

theorem fails_check {c : Prop} [Decidable c] {e : ε} {rest : Except ε β} (passes : ¬ c)
    (other : FailsOnly allowed rest) : FailsOnly allowed (if c then .error e else rest) := by
  rw [if_neg passes]
  exact other

theorem fails_branch {c : Prop} [Decidable c] {left right : Except ε β} (first : c → FailsOnly allowed left)
    (other : ¬ c → FailsOnly allowed right) : FailsOnly allowed (if c then left else right) := by
  split
  · exact first ‹_›
  · exact other ‹_›

theorem fails_raise {c : Prop} [Decidable c] {e : ε} {rest : Except ε β} (raises : allowed e)
    (other : ¬ c → FailsOnly allowed rest) : FailsOnly allowed (if c then .error e else rest) := by
  refine fails_branch (fun _ => ?_) other
  rintro _ ⟨⟩
  exact raises

theorem fails_foldlM {f : σ → α → Except ε σ} (l : List α) (s : σ)
    (each : ∀ s, ∀ a ∈ l, FailsOnly allowed (f s a)) : FailsOnly allowed (l.foldlM f s) := by
  induction l generalizing s with
  | nil => exact fails_ok s
  | cons a l ih =>
    rw [List.foldlM_cons]
    exact fails_bind (each s a List.mem_cons_self) fun t _ =>
      ih t fun u b listed => each u b (List.mem_cons_of_mem a listed)

theorem fails_mapM {f : α → Except ε β} (l : List α) (each : ∀ a ∈ l, FailsOnly allowed (f a)) :
    FailsOnly allowed (l.mapM f) := by
  induction l with
  | nil =>
    rw [List.mapM_nil]
    exact fails_ok []
  | cons a l ih =>
    rw [List.mapM_cons]
    exact fails_bind (each a List.mem_cons_self) fun b _ =>
      fails_bind (ih fun c listed => each c (List.mem_cons_of_mem a listed)) fun bs _ => fails_ok _

end FailsOnly

section AnyOrder
open scoped List

/-- Handling two elements in the other order comes to the same, where it succeeds. -/
def Swaps (f : σ → α → Except ε σ) (a b : α) : Prop :=
  ∀ s t, (f s a >>= fun u => f u b) = .ok t → (f s b >>= fun u => f u a) = .ok t

theorem foldlM_perm {f : σ → α → Except ε σ} {l r : List α} (perm : l ~ r)
    (swaps : l.Pairwise fun a b => Swaps f a b ∧ Swaps f b a) {s t : σ} (run : l.foldlM f s = .ok t) :
    r.foldlM f s = .ok t := by
  induction perm generalizing s with
  | nil => exact run
  | cons a _ ih =>
    obtain ⟨u, first, rest⟩ := foldlM_cons_ok run
    rw [List.foldlM_cons, bind_of_ok first]
    exact ih (List.pairwise_cons.mp swaps).2 rest
  | swap a b l =>
    obtain ⟨u, first, rest⟩ := foldlM_cons_ok run
    obtain ⟨v, second, rest⟩ := foldlM_cons_ok rest
    have both : Swaps f b a := ((List.pairwise_cons.mp swaps).1 a List.mem_cons_self).1
    have swapped := both s v (by rw [bind_of_ok first]; exact second)
    obtain ⟨w, other, last⟩ := bind_ok swapped
    rw [List.foldlM_cons, bind_of_ok other, List.foldlM_cons, bind_of_ok last]
    exact rest
  | trans first _ ih₁ ih₂ =>
    refine ih₂ ?_ (ih₁ swaps run)
    exact (first.pairwise_iff fun {a b} both => ⟨both.2, both.1⟩).mp swaps

/-- A fold over elements of distinct names comes to the same in every order, where
    elements of different names can be swapped. -/
theorem foldlM_any_order {ν : Type} {f : σ → α → Except ε σ} {name : α → ν} {l r : List α} (perm : l ~ r)
    (names : (l.map name).Nodup) (swaps : ∀ a b, name a ≠ name b → Swaps f a b) {s t : σ}
    (run : l.foldlM f s = .ok t) : r.foldlM f s = .ok t := by
  rw [List.Nodup, List.pairwise_map] at names
  exact foldlM_perm perm (names.imp fun differ => ⟨swaps _ _ differ, swaps _ _ differ.symm⟩) run

end AnyOrder

end Fallible
