import Mathlib.Data.List.Infix

/- Patterns over any alphabet with a wildcard for any run and one for any symbol.
   What a matching text holds of the literal parts of a pattern, and what a
   translation of symbols leaves of that. -/
namespace WildcardMatch
variable {Symbol Image : Type*} [DecidableEq Symbol] [DecidableEq Image] {any one : Symbol}

/-- No escapes: `any` matches every run, `one` every symbol, others themselves. -/
def wildcardMatch (any one : Symbol) : List Symbol → List Symbol → Bool
  | [], text => text.isEmpty
  | c :: rest, text =>
      if c = any then text.tails.any (wildcardMatch any one rest)
      else match text with
        | [] => false
        | d :: more => (decide (c = one) || decide (c = d)) && wildcardMatch any one rest more

/-- A part of a pattern without wildcards. -/
def Literal (any one : Symbol) (part : List Symbol) : Prop := ∀ c ∈ part, c ≠ any ∧ c ≠ one

theorem match_any {rest text : List Symbol} (matched : wildcardMatch any one (any :: rest) text = true) :
    ∃ more, more <:+ text ∧ wildcardMatch any one rest more = true := by
  unfold wildcardMatch at matched
  rw [if_pos rfl, List.any_eq_true] at matched
  obtain ⟨more, tail, matched⟩ := matched
  exact ⟨more, (List.mem_tails _ _).mp tail, matched⟩

theorem match_other {c : Symbol} {rest text : List Symbol} (other : c ≠ any)
    (matched : wildcardMatch any one (c :: rest) text = true) :
    ∃ d more, text = d :: more ∧ (c = one ∨ c = d) ∧ wildcardMatch any one rest more = true := by
  unfold wildcardMatch at matched
  rw [if_neg other] at matched
  split at matched
  · cases matched
  · rename_i d more
    simp only [Bool.and_eq_true, Bool.or_eq_true, decide_eq_true_eq] at matched
    exact ⟨d, more, rfl, matched.1, matched.2⟩

theorem literal_first {part right text : List Symbol} (literal : Literal any one part)
    (matched : wildcardMatch any one (part ++ right) text = true) : part <+: text := by
  induction part generalizing text with
  | nil => exact List.nil_prefix
  | cons c part ih =>
    obtain ⟨not_any, not_one⟩ := literal c List.mem_cons_self
    obtain ⟨d, more, rfl, same, rest⟩ := match_other not_any matched
    obtain rfl := same.resolve_left not_one
    rw [List.cons_prefix_cons]
    exact ⟨rfl, ih (fun e present => literal e (List.mem_cons_of_mem c present)) rest⟩

theorem literal_occurs {left part right text : List Symbol} (literal : Literal any one part)
    (matched : wildcardMatch any one (left ++ part ++ right) text = true) : part <:+: text := by
  induction left generalizing text with
  | nil => exact (literal_first literal matched).isInfix
  | cons c left ih =>
    by_cases wild : c = any
    · subst wild
      obtain ⟨more, tail, rest⟩ := match_any matched
      exact (ih rest).trans tail.isInfix
    · obtain ⟨d, more, rfl, _, rest⟩ := match_other wild matched
      exact (ih rest).trans (List.suffix_cons d more).isInfix

omit [DecidableEq Symbol] in
/-- Also where both are translated, when only the wildcards become wildcards. -/
theorem literal_occurs_mapped {translate : Symbol → Image} {left part right text : List Symbol}
    (keeps : ∀ c, (translate c = translate any → c = any) ∧ (translate c = translate one → c = one))
    (literal : Literal any one part)
    (matched : wildcardMatch (translate any) (translate one) ((left ++ part ++ right).map translate)
      (text.map translate) = true) : part.map translate <:+: text.map translate := by
  rw [List.map_append, List.map_append] at matched
  apply literal_occurs _ matched
  intro d present
  obtain ⟨c, in_part, rfl⟩ := List.mem_map.mp present
  have literal_c := literal c in_part
  exact ⟨fun same => literal_c.1 ((keeps c).1 same), fun same => literal_c.2 ((keeps c).2 same)⟩

end WildcardMatch
