import Mathlib.Order.Lattice
import Mathlib.Data.List.Basic
import Mathlib.Tactic.Common

/- The pairs of windows that have only lighter windows between them, found in
   one pass over a stack whose weights decrease from its bottom to its top.
   Windows are numbered from 0 and weighed by a function into any linear order;
   a pair counts only while it spans at most `limit`. -/
namespace MonotoneStack
variable {Weight : Type*} [LinearOrder Weight]

structure Window (Weight : Type*) where
  weight : Weight
  position : Nat

/-- The windows between the borders are lighter than both of them. -/
def Framed (weight : Nat → Weight) (left right : Nat) : Prop :=
  left < right ∧ ∀ i, left < i → i < right → weight i < weight left ∧ weight i < weight right

/-- Pairs come by ascending end and, for one end, from the nearest partner to the
    farthest. -/
def Emitted (a b : Nat × Nat) : Prop := a.2 < b.2 ∨ a.2 = b.2 ∧ b.1 < a.1

/-- The pairs a window of this weight makes with the lighter windows on top,
    and the stack without them. A border out of reach clears the stack. -/
def popLighter (limit finish : Nat) (weight : Weight) :
    List (Window Weight) → List (Nat × Nat) × List (Window Weight)
  | [] => ([], [])
  | top :: stack =>
      if top.weight < weight then
        if finish - top.position > limit then ([], [])
        else ((top.position, finish) :: (popLighter limit finish weight stack).1,
          (popLighter limit finish weight stack).2)
      else ([], top :: stack)

def pairHeavier (limit finish : Nat) : List (Window Weight) → List (Nat × Nat)
  | [] => []
  | top :: _ => if finish - top.position ≤ limit then [(top.position, finish)] else []

def arrive (limit span : Nat) (weight : Weight) (right : Nat) (stack : List (Window Weight)) :
    List (Nat × Nat) × List (Window Weight) :=
  let popped := popLighter limit (right + span) weight stack
  (popped.1 ++ pairHeavier limit (right + span) popped.2,
    ⟨weight, right⟩ :: popped.2.dropWhile fun top => top.weight = weight)

/-- The pairs of the first `count` windows, and the stack they leave. -/
def scan (weight : Nat → Weight) (limit span : Nat) : Nat → List (Nat × Nat) × List (Window Weight)
  | 0 => ([], [])
  | right + 1 =>
      let before := scan weight limit span right
      let step := arrive limit span (weight right) right before.2
      (before.1 ++ step.1, step.2)

/-- What the stack holds once `count` windows have arrived: windows heavier than
    all after them, the latest on top, and every such window still in reach. -/
structure Stacked (weight : Nat → Weight) (limit span count : Nat) (stack : List (Window Weight)) :
    Prop where
  weighed : ∀ top ∈ stack, top.weight = weight top.position
  arrived : ∀ top ∈ stack, top.position < count
  heaviest : ∀ top ∈ stack, ∀ i, top.position < i → i < count → weight i < weight top.position
  latestFirst : stack.Pairwise fun a b => b.position < a.position
  kept : ∀ p < count, (∀ i, p < i → i < count → weight i < weight p) →
    count + span - p ≤ limit → ⟨weight p, p⟩ ∈ stack

section Pop
variable {limit finish : Nat} {weight : Weight} {stack : List (Window Weight)}

theorem popped_pair {left e : Nat} (pair : (left, e) ∈ (popLighter limit finish weight stack).1) :
    e = finish ∧ finish - left ≤ limit ∧
      ∃ top ∈ stack, top.position = left ∧ top.weight < weight := by
  induction stack with
  | nil => simp [popLighter] at pair
  | cons top stack ih =>
    unfold popLighter at pair
    split at pair
    · rename_i lighter
      split at pair
      · simp at pair
      · rename_i reach
        rcases List.mem_cons.mp pair with first | later
        · cases first
          exact ⟨rfl, Nat.le_of_not_lt reach, top, List.mem_cons_self, rfl, lighter⟩
        · obtain ⟨same, near, other, inStack, found⟩ := ih later
          exact ⟨same, near, other, List.mem_cons_of_mem _ inStack, found⟩
    · simp at pair

theorem popped_rest_suffix : (popLighter limit finish weight stack).2 <:+ stack := by
  induction stack with
  | nil => simp [popLighter]
  | cons top stack ih =>
    unfold popLighter
    split
    · split
      · exact List.nil_suffix
      · exact ih.trans (List.suffix_cons top stack)
    · exact List.suffix_refl _

def Falling (stack : List (Window Weight)) : Prop :=
  stack.Pairwise fun a b => a.weight < b.weight ∧ b.position < a.position

theorem popped_rest_heavier (falling : Falling stack) :
    ∀ top ∈ (popLighter limit finish weight stack).2, weight ≤ top.weight := by
  induction stack with
  | nil => simp [popLighter]
  | cons top stack ih =>
    obtain ⟨above, falling⟩ := List.pairwise_cons.mp falling
    unfold popLighter
    split
    · split
      · simp
      · exact ih falling
    · rename_i heavier
      intro other inStack
      rcases List.mem_cons.mp inStack with rfl | below
      · exact not_lt.mp heavier
      · exact (not_lt.mp heavier).trans (above other below).1.le

theorem lighter_popped (falling : Falling stack) {top : Window Weight} (inStack : top ∈ stack)
    (lighter : top.weight < weight) (reach : finish - top.position ≤ limit) :
    (top.position, finish) ∈ (popLighter limit finish weight stack).1 := by
  induction stack with
  | nil => simp at inStack
  | cons first stack ih =>
    obtain ⟨above, falling⟩ := List.pairwise_cons.mp falling
    unfold popLighter
    rcases List.mem_cons.mp inStack with rfl | below
    · rw [if_pos lighter, if_neg (Nat.not_lt.mpr reach)]
      exact List.mem_cons_self
    · have order := above top below
      have near : ¬ finish - first.position > limit := by omega
      rw [if_pos (order.1.trans lighter), if_neg near]
      exact List.mem_cons_of_mem _ (ih falling below)

theorem heavier_stays (falling : Falling stack) {top : Window Weight} (inStack : top ∈ stack)
    (heavier : weight ≤ top.weight) (reach : finish - top.position ≤ limit) :
    top ∈ (popLighter limit finish weight stack).2 := by
  induction stack with
  | nil => simp at inStack
  | cons first stack ih =>
    obtain ⟨above, falling⟩ := List.pairwise_cons.mp falling
    unfold popLighter
    rcases List.mem_cons.mp inStack with rfl | below
    · rw [if_neg (not_lt.mpr heavier)]
      exact List.mem_cons_self
    · have order := above top below
      have near : ¬ finish - first.position > limit := by omega
      rw [if_neg near]
      split
      · exact ih falling below
      · exact inStack

theorem mem_retired {rest : List (Window Weight)} (falling : Falling rest)
    (heavier : ∀ top ∈ rest, weight ≤ top.weight) (top : Window Weight) :
    top ∈ rest.dropWhile (fun top => top.weight = weight) ↔ top ∈ rest ∧ weight < top.weight := by
  induction rest with
  | nil => simp
  | cons first rest ih =>
    obtain ⟨above, falling⟩ := List.pairwise_cons.mp falling
    have later : ∀ top ∈ rest, weight ≤ top.weight := fun top below =>
      heavier top (List.mem_cons_of_mem _ below)
    by_cases equal : first.weight = weight
    · rw [List.dropWhile_cons_of_pos (by simpa using equal), ih falling later]
      constructor
      · intro ⟨below, heavy⟩
        exact ⟨List.mem_cons_of_mem _ below, heavy⟩
      · intro ⟨present, heavy⟩
        rcases List.mem_cons.mp present with rfl | below
        · exact absurd equal (ne_of_gt heavy)
        · exact ⟨below, heavy⟩
    · rw [List.dropWhile_cons_of_neg (by simpa using equal)]
      constructor
      · intro present
        have first_heavy : weight < first.weight :=
          lt_of_le_of_ne (heavier first List.mem_cons_self) (Ne.symm equal)
        rcases List.mem_cons.mp present with rfl | below
        · exact ⟨List.mem_cons_self, first_heavy⟩
        · exact ⟨present, first_heavy.trans (above top below).1⟩
      · intro ⟨present, _⟩
        exact present

end Pop

section Scan
variable {weight : Nat → Weight} {limit span count : Nat} {stack : List (Window Weight)}

theorem stacked_falling (holds : Stacked weight limit span count stack) : Falling stack := by
  unfold Falling
  apply holds.latestFirst.imp_of_mem
  intro a b inA inB order
  have heavier := holds.heaviest b inB a.position order (holds.arrived a inA)
  rw [holds.weighed a inA, holds.weighed b inB]
  exact ⟨heavier, order⟩

theorem stacked_nil : Stacked weight limit span 0 [] where
  weighed := by simp
  arrived := by simp
  heaviest := by simp
  latestFirst := List.Pairwise.nil
  kept := by simp

/-- A window between `p` and the arriving one is at most as heavy as one that the
    stack still holds above `p`. -/
theorem heavier_in_stack (holds : Stacked weight limit span count stack) {p i : Nat} (after : p < i)
    (before : i < count) (reach : count + span - p ≤ limit) :
    ∃ top ∈ stack, p < top.position ∧ weight i ≤ weight top.position := by
  induction distance : count - i using Nat.strongRecOn generalizing i with
  | ind distance ih =>
    by_cases heaviest : ∀ j, i < j → j < count → weight j < weight i
    · exact ⟨_, holds.kept i before heaviest (by omega), after, le_rfl⟩
    · push Not at heaviest
      obtain ⟨j, later, inside, heavier⟩ := heaviest
      obtain ⟨top, inStack, above, heavy⟩ :=
        ih (count - j) (by omega) (by omega) inside rfl
      exact ⟨top, inStack, above, heavier.trans heavy⟩

theorem arrive_stacked (holds : Stacked weight limit span count stack) :
    Stacked weight limit span (count + 1) (arrive limit span (weight count) count stack).2 := by
  have falling := stacked_falling holds
  have suffix := @popped_rest_suffix _ _ limit (count + span) (weight count) stack
  have heavier := @popped_rest_heavier _ _ limit (count + span) (weight count) stack falling
  have restFalling : Falling (popLighter limit (count + span) (weight count) stack).2 :=
    List.Pairwise.sublist suffix.sublist falling
  have member := fun top => mem_retired restFalling heavier top
  have held : ∀ top ∈ (arrive limit span (weight count) count stack).2,
      top = ⟨weight count, count⟩ ∨ top ∈ stack ∧ weight count < top.weight := by
    intro top inStack
    rcases List.mem_cons.mp inStack with arrived | below
    · exact Or.inl arrived
    · have ⟨present, heavy⟩ := (member top).mp below
      exact Or.inr ⟨suffix.subset present, heavy⟩
  constructor
  · intro top inStack
    rcases held top inStack with rfl | ⟨old, _⟩
    · rfl
    · exact holds.weighed top old
  · intro top inStack
    rcases held top inStack with rfl | ⟨old, _⟩
    · exact Nat.lt_succ_self count
    · exact Nat.lt_succ_of_lt (holds.arrived top old)
  · intro top inStack i above inside
    rcases held top inStack with rfl | ⟨old, heavy⟩
    · exact absurd inside (Nat.not_lt.mpr above)
    · rcases Nat.lt_succ_iff_lt_or_eq.mp inside with earlier | rfl
      · exact holds.heaviest top old i above earlier
      · exact holds.weighed top old ▸ heavy
  · apply List.pairwise_cons.mpr
    constructor
    · intro top below
      exact holds.arrived top (suffix.subset ((member top).mp below).1)
    · exact holds.latestFirst.sublist
        ((List.dropWhile_suffix _).sublist.trans suffix.sublist)
  · intro p inside heaviest reach
    rcases Nat.lt_succ_iff_lt_or_eq.mp inside with earlier | rfl
    · have old : ⟨weight p, p⟩ ∈ stack :=
        holds.kept p earlier (fun i after before => heaviest i after (by omega)) (by omega)
      have heavy : weight count < weight p := heaviest count earlier (Nat.lt_succ_self count)
      have near : count + span - p ≤ limit := by omega
      have stays := heavier_stays falling old heavy.le near
      exact List.mem_cons_of_mem _ ((member _).mpr ⟨stays, heavy⟩)
    · exact List.mem_cons_self

theorem scan_stacked (weight : Nat → Weight) (limit span count : Nat) :
    Stacked weight limit span count (scan weight limit span count).2 := by
  induction count with
  | zero => exact stacked_nil
  | succ count ih => exact arrive_stacked ih

theorem arrive_pairs (holds : Stacked weight limit span count stack) (left e : Nat) :
    (left, e) ∈ (arrive limit span (weight count) count stack).1 ↔
      e = count + span ∧ Framed weight left count ∧ count + span - left ≤ limit := by
  have falling := stacked_falling holds
  have suffix := @popped_rest_suffix _ _ limit (count + span) (weight count) stack
  have heavier := @popped_rest_heavier _ _ limit (count + span) (weight count) stack falling
  unfold arrive
  rw [List.mem_append]
  constructor
  · intro pair
    rcases pair with popped | paired
    · obtain ⟨same, reach, top, inStack, rfl, lighter⟩ := popped_pair popped
      refine ⟨same, ⟨holds.arrived top inStack, fun i after before => ?_⟩, reach⟩
      have under := holds.heaviest top inStack i after before
      exact ⟨under, under.trans (holds.weighed top inStack ▸ lighter)⟩
    · generalize remains : (popLighter limit (count + span) (weight count) stack).2 = rest at *
      cases rest with
      | nil => simp [pairHeavier] at paired
      | cons top rest =>
        by_cases reach : count + span - top.position ≤ limit
        · rw [pairHeavier, if_pos reach] at paired
          cases List.mem_singleton.mp paired
          have inStack : top ∈ stack := suffix.subset List.mem_cons_self
          refine ⟨rfl, ⟨holds.arrived top inStack, fun i after before => ?_⟩, reach⟩
          refine ⟨holds.heaviest top inStack i after before, ?_⟩
          -- a window as heavy as the arriving one would have stayed above the top
          by_contra heavy
          obtain ⟨other, present, above, atLeast⟩ := heavier_in_stack holds after before reach
          have near : count + span - other.position ≤ limit := by omega
          have stays := heavier_stays falling present
            ((not_lt.mp heavy).trans (holds.weighed other present ▸ atLeast)) near
          rw [remains] at stays
          have latest := holds.latestFirst.sublist suffix.sublist
          rcases List.mem_cons.mp stays with rfl | below
          · exact absurd above (Nat.lt_irrefl _)
          · exact absurd ((List.pairwise_cons.mp latest).1 other below) (by omega)
        · simp [pairHeavier, reach] at paired
  · intro ⟨same, ⟨before, between⟩, reach⟩
    subst same
    have inStack : ⟨weight left, left⟩ ∈ stack :=
      holds.kept left before (fun i after inside => (between i after inside).1) reach
    rcases lt_or_ge (weight left) (weight count) with lighter | heavy
    · exact Or.inl (lighter_popped falling inStack lighter reach)
    · have stays := heavier_stays falling inStack heavy reach
      generalize remains : (popLighter limit (count + span) (weight count) stack).2 = rest at *
      cases rest with
      | nil => simp at stays
      | cons top rest =>
        have latest := holds.latestFirst.sublist suffix.sublist
        have topIn : top ∈ stack := suffix.subset List.mem_cons_self
        rcases List.mem_cons.mp stays with rfl | below
        · refine Or.inr ?_
          simp [pairHeavier, reach]
        · -- a later window left on the stack would be as heavy as the arriving one
          have after := (List.pairwise_cons.mp latest).1 _ below
          have light := (between top.position after (holds.arrived top topIn)).2
          have atLeast := heavier top List.mem_cons_self
          rw [holds.weighed top topIn] at atLeast
          exact absurd light (not_lt.mpr atLeast)

theorem scan_pairs (weight : Nat → Weight) (limit span count left e : Nat) :
    (left, e) ∈ (scan weight limit span count).1 ↔
      ∃ right < count, e = right + span ∧ Framed weight left right ∧ right + span - left ≤ limit := by
  induction count with
  | zero => simp [scan]
  | succ count ih =>
    have last := arrive_pairs (scan_stacked weight limit span count) left e
    rw [scan, List.mem_append, ih, last]
    constructor
    · rintro (⟨right, inside, found⟩ | ⟨same, found⟩)
      · exact ⟨right, Nat.lt_succ_of_lt inside, found⟩
      · exact ⟨count, Nat.lt_succ_self count, same, found⟩
    · intro ⟨right, inside, same, found⟩
      rcases Nat.lt_succ_iff_lt_or_eq.mp inside with earlier | rfl
      · exact Or.inl ⟨right, earlier, same, found⟩
      · exact Or.inr ⟨same, found⟩

/-- Framing looks only at the windows from border to border. -/
theorem framed_shift {first second : Nat → Weight} {left right offset : Nat}
    (same : ∀ i, left ≤ i → i ≤ right → first (offset + i) = second i) :
    Framed first (offset + left) (offset + right) ↔ Framed second left right := by
  unfold Framed
  constructor
  · intro ⟨order, between⟩
    refine ⟨by omega, fun i after before => ?_⟩
    have lighter := between (offset + i) (by omega) (by omega)
    rwa [same i (by omega) (by omega), same left (Nat.le_refl left) (by omega),
      same right (by omega) (Nat.le_refl right)] at lighter
  · intro ⟨order, between⟩
    refine ⟨by omega, fun i after before => ?_⟩
    obtain ⟨j, rfl⟩ : ∃ j, i = offset + j := ⟨i - offset, by omega⟩
    have lighter := between j (by omega) (by omega)
    rwa [same j (by omega) (by omega), same left (Nat.le_refl left) (by omega),
      same right (by omega) (Nat.le_refl right)]

end Scan

section Order
variable {limit finish span count : Nat} {weight : Weight} {stack : List (Window Weight)}

theorem popped_nearest_first (latest : stack.Pairwise fun a b => b.position < a.position) :
    (popLighter limit finish weight stack).1.Pairwise Emitted := by
  induction stack with
  | nil => exact List.Pairwise.nil
  | cons top stack ih =>
    obtain ⟨above, latest⟩ := List.pairwise_cons.mp latest
    unfold popLighter
    split
    · split
      · exact List.Pairwise.nil
      · refine List.pairwise_cons.mpr ⟨?_, ih latest⟩
        rintro ⟨left, e⟩ popped
        obtain ⟨rfl, _, other, inStack, rfl, _⟩ := popped_pair popped
        exact Or.inr ⟨rfl, above other inStack⟩
    · exact List.Pairwise.nil

theorem popped_above_rest (latest : stack.Pairwise fun a b => b.position < a.position) {pair : Nat × Nat}
    (popped : pair ∈ (popLighter limit finish weight stack).1) {top : Window Weight}
    (stays : top ∈ (popLighter limit finish weight stack).2) : top.position < pair.1 := by
  induction stack with
  | nil => simp [popLighter] at popped
  | cons first stack ih =>
    obtain ⟨above, latest⟩ := List.pairwise_cons.mp latest
    unfold popLighter at popped stays
    split at popped
    · rename_i lighter
      rw [if_pos lighter] at stays
      split at popped
      · simp at popped
      · rename_i reach
        rw [if_neg reach] at stays
        rcases List.mem_cons.mp popped with rfl | later
        · exact above top (popped_rest_suffix.subset stays)
        · exact ih latest later stays
    · simp at popped

omit [LinearOrder Weight] in
theorem mem_pairHeavier {rest : List (Window Weight)} {pair : Nat × Nat}
    (paired : pair ∈ pairHeavier limit finish rest) : pair.2 = finish ∧ ∃ top ∈ rest, top.position = pair.1 := by
  cases rest with
  | nil => simp [pairHeavier] at paired
  | cons top rest =>
    simp only [pairHeavier] at paired
    split at paired
    · obtain rfl := List.mem_singleton.mp paired
      exact ⟨rfl, top, List.mem_cons_self, rfl⟩
    · simp at paired

theorem arrive_ordered {right : Nat} (latest : stack.Pairwise fun a b => b.position < a.position) :
    (arrive limit span weight right stack).1.Pairwise Emitted := by
  refine List.pairwise_append.mpr ⟨popped_nearest_first latest, ?_, ?_⟩
  · unfold pairHeavier
    split
    · exact List.Pairwise.nil
    · split
      · exact List.pairwise_singleton _ _
      · exact List.Pairwise.nil
  · rintro ⟨left, e⟩ popped pair paired
    obtain ⟨same, top, stays, place⟩ := mem_pairHeavier paired
    obtain ⟨rfl, _⟩ := popped_pair popped
    exact Or.inr ⟨same.symm, place ▸ popped_above_rest latest popped stays⟩

/-- Every popped window pairs once, and one window more may pair without being popped. -/
theorem popped_length : (popLighter limit finish weight stack).1.length +
    (popLighter limit finish weight stack).2.length ≤ stack.length := by
  induction stack with
  | nil => simp [popLighter]
  | cons top stack ih =>
    unfold popLighter
    split
    · split
      · simp
      · simp only [List.length_cons]
        omega
    · simp

omit [LinearOrder Weight] in
theorem pairHeavier_length (rest : List (Window Weight)) : (pairHeavier limit finish rest).length ≤ 1 := by
  unfold pairHeavier
  split
  · simp
  · split
    · simp
    · simp

end Order

section Whole
variable (weight : Nat → Weight) (limit span count : Nat)

theorem scan_ordered : (scan weight limit span count).1.Pairwise Emitted := by
  induction count with
  | zero => exact List.Pairwise.nil
  | succ count ih =>
    refine List.pairwise_append.mpr ⟨ih, arrive_ordered (scan_stacked weight limit span count).latestFirst, ?_⟩
    rintro ⟨left, e⟩ before ⟨left', e'⟩ now
    obtain ⟨right, inside, rfl, _⟩ := (scan_pairs weight limit span count left e).mp before
    obtain ⟨rfl, _⟩ := (arrive_pairs (scan_stacked weight limit span count) left' e').mp now
    exact Or.inl (by simp only; omega)

/-- A window is pushed once, so after the first one each adds two pairs at most. -/
theorem scan_length : (scan weight limit span (count + 1)).1.length +
    (scan weight limit span (count + 1)).2.length ≤ 2 * count + 1 := by
  induction count with
  | zero => simp [scan, arrive, popLighter, pairHeavier]
  | succ count ih =>
    have popped := @popped_length _ _ limit (count + 1 + span) (weight (count + 1)) (scan weight limit span (count + 1)).2
    have paired := @pairHeavier_length _ limit (count + 1 + span)
      (popLighter limit (count + 1 + span) (weight (count + 1)) (scan weight limit span (count + 1)).2).2
    have retired := (List.dropWhile_suffix (fun top : Window Weight => decide (top.weight = weight (count + 1)))
      (l := (popLighter limit (count + 1 + span) (weight (count + 1)) (scan weight limit span (count + 1)).2).2)).length_le
    rw [scan]
    simp only [arrive, List.length_append, List.length_cons]
    omega

theorem scan_pairs_bound : (scan weight limit span (count + 1)).1.length ≤ 2 * count := by
  have bound := scan_length weight limit span count
  have some_window : 0 < (scan weight limit span (count + 1)).2.length := by simp [scan, arrive]
  omega

end Whole
section Nesting
variable {weight : Nat → Weight}

/-- Two framed pairs nest, or share a border at most: of two that crossed, each would
    have a border inside the other. -/
theorem framed_nested {a b c d : Nat} (first : Framed weight a b) (second : Framed weight c d) :
    (c ≤ a ∧ b ≤ d) ∨ (a ≤ c ∧ d ≤ b) ∨ b ≤ c ∨ d ≤ a := by
  by_contra crossing
  rcases Nat.lt_or_ge a c with left | right
  · have inner := (first.2 c left (by omega)).2
    exact absurd inner (not_lt.mpr (second.2 b (by omega) (by omega)).1.le)
  · have inner := (second.2 a (by omega) (by omega)).2
    exact absurd inner (not_lt.mpr (first.2 d (by omega) (by omega)).1.le)

end Nesting

end MonotoneStack
