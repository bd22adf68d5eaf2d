import Mathlib.Algebra.GroupWithZero.Nat
import Mathlib.Data.List.Nodup
import Mathlib.Data.List.Perm.Basic

/- Work shared out to cells. Whatever the order in which cells take work and let
   it go, what came out and what the cells still hold is together what went in.
   A list cut into parts by a key is put together again from any list of
   distinct keys. -/
namespace WorkLedger
open scoped List
variable {Cell Out : Type*} {holds : Cell → List Out} {cells : List Cell} {out put : List Out}

def Conserved (holds : Cell → List Out) (cells : List Cell) (out put : List Out) : Prop :=
  (out ++ cells.flatMap holds).Perm put

theorem conserved_set {w : Nat} {old new : Cell} {gone added : List Out} (at_w : cells[w]? = some old)
    (moved : (gone ++ holds new).Perm (holds old ++ added)) (conserved : Conserved holds cells out put) :
    Conserved holds (cells.set w new) (out ++ gone) (put ++ added) := by
  obtain ⟨bound, rfl⟩ := List.getElem?_eq_some_iff.mp at_w
  obtain ⟨front, back, same, _, after⟩ := @List.exists_of_set _ w new cells bound
  unfold Conserved at *
  rw [after]
  rw [same] at conserved
  simp only [List.flatMap_append, List.flatMap_cons] at conserved ⊢
  have regroup : ∀ mine : List Out, (out ++ (front.flatMap holds ++ (mine ++ back.flatMap holds))).Perm
      (out ++ (front.flatMap holds ++ back.flatMap holds) ++ mine) := by
    intro mine
    rw [List.append_assoc, List.append_assoc]
    exact (List.perm_append_comm.append_left _).append_left out
  calc (out ++ gone ++ (front.flatMap holds ++ (holds new ++ back.flatMap holds)))
      _ = out ++ (gone ++ (front.flatMap holds ++ (holds new ++ back.flatMap holds))) :=
          List.append_assoc _ _ _
      _ ~ out ++ (front.flatMap holds ++ ((gone ++ holds new) ++ back.flatMap holds)) := by
          apply List.Perm.append_left
          rw [List.append_assoc, ← List.append_assoc gone, ← List.append_assoc (front.flatMap holds) gone]
          exact List.perm_append_comm.append_right _
      _ ~ out ++ (front.flatMap holds ++ back.flatMap holds) ++ (gone ++ holds new) := regroup _
      _ ~ out ++ (front.flatMap holds ++ back.flatMap holds) ++ (holds cells[w] ++ added) :=
          moved.append_left _
      _ = out ++ (front.flatMap holds ++ back.flatMap holds) ++ holds cells[w] ++ added :=
          (List.append_assoc _ _ _).symm
      _ ~ put ++ added := ((regroup _).symm.trans conserved).append_right added

theorem conserved_out (conserved : Conserved holds cells out put) (empty : ∀ c ∈ cells, holds c = []) :
    out.Perm put := by
  unfold Conserved at conserved
  rwa [List.flatMap_eq_nil_iff.mpr empty, List.append_nil] at conserved

theorem conserved_put {other : List Out} (conserved : Conserved holds cells out put)
    (same : put.Perm other) : Conserved holds cells out other := conserved.trans same

/-- Replacing a cell changes the total load by the difference of the two. -/
theorem load_set (load : Cell → Nat) {w : Nat} {old : Cell} (new : Cell) (at_w : cells[w]? = some old) :
    ((cells.set w new).map load).sum + load old = (cells.map load).sum + load new := by
  obtain ⟨bound, rfl⟩ := List.getElem?_eq_some_iff.mp at_w
  obtain ⟨front, back, same, _, after⟩ := @List.exists_of_set _ w new cells bound
  have before := congrArg (fun list => (list.map load).sum) same
  rw [after]
  simp only [List.map_append, List.map_cons, List.sum_append, List.sum_cons] at before ⊢
  omega

section Parts
variable {Item Key : Type*} [DecidableEq Key]

theorem filter_or_perm {first second : Item → Bool} (items : List Item)
    (apart : ∀ x ∈ items, first x = true → second x = false) :
    (items.filter first ++ items.filter second).Perm (items.filter fun x => first x || second x) := by
  induction items with
  | nil => exact List.Perm.nil
  | cons x rest ih =>
    have tail := ih fun y present => apart y (List.mem_cons_of_mem x present)
    cases left : first x with
    | true =>
      have not_right := apart x List.mem_cons_self left
      rw [List.filter_cons_of_pos left, List.filter_cons_of_neg (by simp [not_right]),
        List.filter_cons_of_pos (by simp [left])]
      exact tail.cons x
    | false =>
      rw [List.filter_cons_of_neg (by simp [left])]
      cases right : second x with
      | true =>
        rw [List.filter_cons_of_pos right, List.filter_cons_of_pos (by simp [right])]
        exact List.perm_middle.trans (tail.cons x)
      | false =>
        rw [List.filter_cons_of_neg (by simp [right]), List.filter_cons_of_neg (by simp [left, right])]
        exact tail

def hasKey (key : Item → Option Key) (keys : List Key) (x : Item) : Bool :=
  decide (∃ k ∈ keys, key x = some k)

theorem parts_perm (key : Item → Option Key) (items : List Item) {keys : List Key}
    (distinct : keys.Nodup) :
    (keys.flatMap fun k => items.filter fun x => decide (key x = some k)).Perm
      (items.filter (hasKey key keys)) := by
  induction keys with
  | nil => simp [hasKey]
  | cons k rest ih =>
    obtain ⟨fresh, rest_distinct⟩ := List.nodup_cons.mp distinct
    have apart : ∀ x ∈ items, decide (key x = some k) = true → hasKey key rest x = false := by
      intro x _ here
      apply decide_eq_false
      rintro ⟨other, listed, there⟩
      have same : k = other := Option.some.inj ((of_decide_eq_true here).symm.trans there)
      exact fresh (same ▸ listed)
    have joined := (ih rest_distinct).append_left (items.filter fun x => decide (key x = some k))
    rw [List.flatMap_cons]
    refine (joined.trans (filter_or_perm items apart)).trans (List.Perm.of_eq ?_)
    apply List.filter_congr
    intro x _
    simp [hasKey]

end Parts
end WorkLedger
