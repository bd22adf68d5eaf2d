import Mathlib.Data.List.Basic

/- Parts laid out one after another, each behind a header of one width that tells its
   length. Whatever the parts hold, a layout is the layout of one list of parts. -/
namespace LengthFramed
variable {α : Type*}

structure Header (α : Type*) where
  width : Nat
  limit : Nat
  tag : Nat → List α
  wide : ∀ n, (tag n).length = width
  tells : ∀ m n, m < limit → n < limit → tag m = tag n → m = n

variable {header : Header α}

def frame (header : Header α) (part : List α) : List α := header.tag part.length ++ part

def layout (header : Header α) (parts : List (List α)) : List α := parts.flatMap (frame header)

theorem frame_split {a b x y : List α} (fits : a.length < header.limit) (fits' : b.length < header.limit)
    (same : frame header a ++ x = frame header b ++ y) : a = b ∧ x = y := by
  rw [frame, frame, List.append_assoc, List.append_assoc] at same
  have widths : (header.tag a.length).length = (header.tag b.length).length := by rw [header.wide, header.wide]
  obtain ⟨tags, rest⟩ := List.append_inj same widths
  exact List.append_inj rest (header.tells _ _ fits fits' tags)

theorem layout_injective (positive : 0 < header.width) {parts others : List (List α)}
    (fits : ∀ part ∈ parts, part.length < header.limit) (fits' : ∀ part ∈ others, part.length < header.limit)
    (same : layout header parts = layout header others) : parts = others := by
  have starts : ∀ part rest, layout header (part :: rest) ≠ [] := by
    intro part rest empty
    have none := congrArg List.length empty
    rw [layout, List.flatMap_cons, List.length_append, frame, List.length_append, header.wide, List.length_nil] at none
    omega
  induction parts generalizing others with
  | nil =>
    cases others with
    | nil => rfl
    | cons other others => exact absurd same.symm (starts other others)
  | cons part parts ih =>
    cases others with
    | nil => exact absurd same (starts part parts)
    | cons other others =>
      rw [layout, layout, List.flatMap_cons, List.flatMap_cons] at same
      obtain ⟨rfl, rest⟩ := frame_split (fits _ List.mem_cons_self) (fits' _ List.mem_cons_self) same
      rw [ih (fun p listed => fits p (List.mem_cons_of_mem _ listed))
        (fun p listed => fits' p (List.mem_cons_of_mem _ listed)) rest]

end LengthFramed
