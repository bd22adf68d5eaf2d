import NgramIndex.TableFilters

/- Where a filter is TRUE, the needles collected for a DuckDB table occur in the
   column. Those collected for a DuckLake table occur exactly where each search
   call read from the filter also matches the column itself. -/
namespace NgramRewrite
open NgramGram NgramSearchInit Utf8
variable {lower : Char → Nat} {host : String → List Value → Value} {cell : Option String}

section Accumulators

theorem pushSegment_append (requiresCi : Bool) (segment : List Char) (needles : List RewriteNeedle) :
    pushSegment requiresCi segment needles = needles ++ pushSegment requiresCi segment [] := by
  unfold pushSegment
  split <;> simp

theorem likeSegmentsFrom_append (requiresCi : Bool) (segment pattern : List Char)
    (needles : List RewriteNeedle) : likeSegmentsFrom requiresCi segment pattern needles =
      needles ++ likeSegmentsFrom requiresCi segment pattern [] := by
  induction pattern generalizing segment needles with
  | nil => exact pushSegment_append requiresCi segment needles
  | cons c rest ih =>
    rw [likeSegmentsFrom, likeSegmentsFrom]
    split
    · rw [ih, pushSegment_append, List.append_assoc, ← ih]
    · exact ih _ _

theorem collectCall_append (name : String) (children : List Expression) (needles : List RewriteNeedle) :
    collectCall name children needles = needles ++ collectCall name children [] := by
  unfold collectCall
  split
  · split
    · split
      · rfl
      · unfold collectLikeSegments
        split
        · exact (List.append_nil needles).symm
        · exact likeSegmentsFrom_append _ _ _ needles
    · exact (List.append_nil needles).symm
  · exact (List.append_nil needles).symm

mutual
theorem collectExprNeedles_append (needles : List RewriteNeedle) : ∀ expr : Expression,
    collectExprNeedles expr needles = needles ++ collectExprNeedles expr []
  | .conjunction true children => collectEachExpr_append needles children
  | .function name children => collectCall_append name children needles
  | .conjunction false _ | .reference _ | .constant _ | .other _ => (List.append_nil needles).symm

theorem collectEachExpr_append (needles : List RewriteNeedle) : ∀ exprs : List Expression,
    collectEachExpr exprs needles = needles ++ collectEachExpr exprs []
  | [] => (List.append_nil needles).symm
  | expr :: rest => by
    rw [collectEachExpr, collectEachExpr, collectEachExpr_append _ rest,
      collectEachExpr_append (collectExprNeedles expr []) rest, collectExprNeedles_append needles expr,
      List.append_assoc]
end

mutual
theorem collectFilterNeedles_append (needles : List RewriteNeedle) : ∀ filter : TableFilter,
    collectFilterNeedles filter needles = needles ++ collectFilterNeedles filter []
  | .conjunctionAnd children => collectEachFilter_append needles children
  | .expression expr => collectExprNeedles_append needles expr
  | .conjunctionOr _ | .optional _ | .other _ => (List.append_nil needles).symm

theorem collectEachFilter_append (needles : List RewriteNeedle) : ∀ filters : List TableFilter,
    collectEachFilter filters needles = needles ++ collectEachFilter filters []
  | [] => (List.append_nil needles).symm
  | filter :: rest => by
    rw [collectEachFilter, collectEachFilter, collectEachFilter_append _ rest,
      collectEachFilter_append (collectFilterNeedles filter []) rest,
      collectFilterNeedles_append needles filter, List.append_assoc]
end

end Accumulators

section Truth

theorem conjunction_true {values : List Value} (holds : conjunctionValue true values = .boolean true) :
    ∀ v ∈ values, v = .boolean true := by
  unfold conjunctionValue at holds
  split at holds
  · cases holds
  · split at holds
    · rename_i all
      exact all
    · cases holds

theorem conjunction_of_true {values : List Value} (all : ∀ v ∈ values, v = .boolean true) :
    conjunctionValue true values = .boolean true := by
  have none_false : .boolean (!true) ∉ values := by
    intro some_false
    cases all _ some_false
  unfold conjunctionValue
  rw [if_neg none_false, if_pos all]

theorem like_call_true {name text : String} (known : isLikeFunction name = true)
    (holds : callFunction lower host name [columnValue cell, .varchar text] = .boolean true) :
    ∃ whole, cell = some whole ∧ stringFunction lower name [.varchar whole, .varchar text] = some true := by
  cases cell with
  | none =>
    have null : callFunction lower host name [columnValue none, .varchar text] = .null := by
      simp [callFunction, stringFunction, columnValue, known]
    rw [null] at holds
    cases holds
  | some whole =>
    refine ⟨whole, rfl, ?_⟩
    have compared : ∃ answer, stringFunction lower name [.varchar whole, .varchar text] = some answer := by
      unfold isLikeFunction at known
      simp only [Bool.or_eq_true, decide_eq_true_eq] at known
      rcases known with (rfl | rfl) | rfl
      · exact ⟨_, rfl⟩
      · exact ⟨_, rfl⟩
      · exact ⟨_, rfl⟩
    obtain ⟨answer, found⟩ := compared
    unfold callFunction at holds
    rw [columnValue, found] at holds
    rw [found, Value.boolean.inj holds]

end Truth

section Needles

theorem call_needle_held (keeps : LowerKeepsWildcards lower) {name : String} {children : List Expression}
    (holds : callFunction lower host name (evalAll lower host (columnValue cell) children) = .boolean true) :
    ∀ needle ∈ collectCall name children [], Held lower cell needle := by
  intro needle collected
  unfold collectCall at collected
  split at collected
  · rename_i known
    split at collected
    · rename_i text
      obtain ⟨whole, rfl, compared⟩ := like_call_true known holds
      refine ⟨whole, rfl, ?_⟩
      simp only [stringFunction] at compared
      split at collected
      · rename_i contains
        obtain rfl := List.mem_singleton.mp collected
        rw [if_pos contains] at compared
        have inside : bytes text <:+: bytes whole := of_decide_eq_true (Option.some.inj compared)
        exact inside
      · rename_i pattern
        rw [if_neg pattern] at compared
        have no_needle : needle ∉ ([] : List RewriteNeedle) := List.not_mem_nil
        apply (like_held keeps collected _).resolve_left no_needle
        by_cases like : name = "~~"
        · subst like
          exact Option.some.inj compared
        · rw [if_neg like] at compared
          split at compared
          · rename_i ilike
            subst ilike
            exact Option.some.inj compared
          · cases compared
    · cases collected
  · cases collected

mutual
/-- By cases over what a pushed expression can be; under an OR nothing is collected. -/
theorem expr_needle_held (keeps : LowerKeepsWildcards lower) : ∀ expr : Expression,
    expr.eval lower host (columnValue cell) = .boolean true →
      ∀ needle ∈ collectExprNeedles expr [], Held lower cell needle
  | .conjunction true children, holds => each_expr_needle_held keeps children (conjunction_true holds)
  | .function _ _, holds => call_needle_held keeps holds
  | .conjunction false _, _ | .reference _, _ | .constant _, _ | .other _, _ =>
      fun _ collected => by cases collected

theorem each_expr_needle_held (keeps : LowerKeepsWildcards lower) : ∀ exprs : List Expression,
    (∀ v ∈ evalAll lower host (columnValue cell) exprs, v = .boolean true) →
      ∀ needle ∈ collectEachExpr exprs [], Held lower cell needle
  | [], _ => fun _ collected => by cases collected
  | expr :: rest, holds => by
    obtain ⟨first, others⟩ := List.forall_mem_cons.mp holds
    intro needle collected
    rw [collectEachExpr, collectEachExpr_append] at collected
    rcases List.mem_append.mp collected with here | later
    · exact expr_needle_held keeps expr first needle here
    · exact each_expr_needle_held keeps rest others needle later
end

mutual
theorem filter_needle_held (keeps : LowerKeepsWildcards lower) : ∀ filter : TableFilter,
    filter.eval lower host (columnValue cell) = .boolean true →
      ∀ needle ∈ collectFilterNeedles filter [], Held lower cell needle
  | .conjunctionAnd children, holds => each_filter_needle_held keeps children (conjunction_true holds)
  | .expression expr, holds => expr_needle_held keeps expr holds
  | .conjunctionOr _, _ | .optional _, _ | .other _, _ => fun _ collected => by cases collected

theorem each_filter_needle_held (keeps : LowerKeepsWildcards lower) : ∀ filters : List TableFilter,
    (∀ v ∈ evalFilters lower host (columnValue cell) filters, v = .boolean true) →
      ∀ needle ∈ collectEachFilter filters [], Held lower cell needle
  | [], _ => fun _ collected => by cases collected
  | filter :: rest, holds => by
    obtain ⟨first, others⟩ := List.forall_mem_cons.mp holds
    intro needle collected
    rw [collectEachFilter, collectEachFilter_append] at collected
    rcases List.mem_append.mp collected with here | later
    · exact filter_needle_held keeps filter first needle here
    · exact each_filter_needle_held keeps rest others needle later
end

end Needles

structure SearchCall where
  searched : Expression
  needle : String
  folded : Bool

section Searches

def SearchCall.taken (call : SearchCall) : RewriteNeedle := ⟨call.needle, call.folded⟩

def SearchCall.answer (lower : Char → Nat) (host : String → List Value → Value) (call : SearchCall)
    (value : Value) : Value :=
  callFunction lower host "__ngram_search_match" [value, .varchar call.needle, .boolean call.folded]

def callsOf (name : String) : List Expression → List SearchCall
  | [searched, .constant (.varchar needle), .constant (.boolean folded)] =>
      if name = "__ngram_search_match" then [⟨searched, needle, folded⟩] else []
  | _ => []

mutual
def searchCalls : Expression → List SearchCall
  | .conjunction isAnd children => if isAnd then eachSearchCalls children else []
  | .function name children => callsOf name children
  | .reference _ | .constant _ | .other _ => []

def eachSearchCalls : List Expression → List SearchCall
  | [] => []
  | expr :: rest => searchCalls expr ++ eachSearchCalls rest
end

mutual
def filterCalls : TableFilter → List SearchCall
  | .conjunctionAnd children => eachFilterCalls children
  | .expression expr => searchCalls expr
  | .conjunctionOr _ | .optional _ | .other _ => []

def eachFilterCalls : List TableFilter → List SearchCall
  | [] => []
  | filter :: rest => filterCalls filter ++ eachFilterCalls rest
end

theorem other_arguments {children : List Expression} (other : ∀ searched needle folded,
      children ≠ [searched, .constant (.varchar needle), .constant (.boolean folded)])
    (name : String) (needles : List RewriteNeedle) :
    collectMatchCall name children needles = (false, needles) := by
  unfold collectMatchCall
  split
  · split
    · exact (other _ _ _ rfl).elim
    · rfl
  · rfl

theorem other_calls {children : List Expression} (other : ∀ searched needle folded,
      children ≠ [searched, .constant (.varchar needle), .constant (.boolean folded)]) (name : String) :
    callsOf name children = [] := by
  unfold callsOf
  split
  · exact (other _ _ _ rfl).elim
  · rfl

theorem collectMatchCall_calls (name : String) (children : List Expression) (needles : List RewriteNeedle) :
    (collectMatchCall name children needles).2 = needles ++ (callsOf name children).map SearchCall.taken := by
  by_cases shape : ∃ searched needle folded,
      children = [searched, .constant (.varchar needle), .constant (.boolean folded)]
  · obtain ⟨searched, needle, folded, rfl⟩ := shape
    unfold collectMatchCall callsOf
    by_cases search : name = "__ngram_search_match"
    · simp only [if_pos search]
      rfl
    · simp only [if_neg search]
      exact (List.append_nil needles).symm
  · have other : ∀ searched needle folded,
        children ≠ [searched, .constant (.varchar needle), .constant (.boolean folded)] :=
      fun searched needle folded same => shape ⟨searched, needle, folded, same⟩
    rw [other_arguments other, other_calls other]
    exact (List.append_nil needles).symm

mutual
theorem collectSearchMatch_calls (needles : List RewriteNeedle) : ∀ expr : Expression,
    (collectSearchMatch expr needles).2 = needles ++ (searchCalls expr).map SearchCall.taken
  | .conjunction true children => collectEachMatch_calls false needles children
  | .function name children => collectMatchCall_calls name children needles
  | .conjunction false _ | .reference _ | .constant _ | .other _ => (List.append_nil needles).symm

theorem collectEachMatch_calls (found : Bool) (needles : List RewriteNeedle) : ∀ exprs : List Expression,
    (collectEachMatch exprs (found, needles)).2 = needles ++ (eachSearchCalls exprs).map SearchCall.taken
  | [] => (List.append_nil needles).symm
  | expr :: rest => by
    rw [collectEachMatch, collectEachMatch_calls _ _ rest, collectSearchMatch_calls needles expr,
      eachSearchCalls, List.map_append, List.append_assoc]
end

mutual
/-- A DuckLake table's needles are those of its search calls next to those that a
    DuckDB table's filter gives. -/
theorem collectLakeNeedles_calls (needles : List RewriteNeedle) (n : RewriteNeedle) : ∀ filter : TableFilter,
    n ∈ (collectLakeNeedles filter needles).2 ↔
      n ∈ needles ∨ n ∈ (filterCalls filter).map SearchCall.taken ∨ n ∈ collectFilterNeedles filter []
  | .conjunctionAnd children => collectEachLake_calls false needles n children
  | .expression expr => by
    simp only [collectLakeNeedles, filterCalls, collectFilterNeedles]
    rw [collectExprNeedles_append, collectSearchMatch_calls]
    simp only [List.mem_append, or_assoc]
  | .conjunctionOr _ | .optional _ | .other _ => by
    simp [collectLakeNeedles, filterCalls, collectFilterNeedles]

theorem collectEachLake_calls (search : Bool) (needles : List RewriteNeedle) (n : RewriteNeedle) :
    ∀ filters : List TableFilter, n ∈ (collectEachLake filters (search, needles)).2 ↔
      n ∈ needles ∨ n ∈ (eachFilterCalls filters).map SearchCall.taken ∨ n ∈ collectEachFilter filters []
  | [] => by simp [collectEachLake, eachFilterCalls, collectEachFilter]
  | filter :: rest => by
    rw [collectEachLake, collectEachLake_calls _ _ n rest, collectLakeNeedles_calls needles n filter,
      eachFilterCalls, collectEachFilter, collectEachFilter_append (collectFilterNeedles filter []) rest]
    simp only [List.map_append, List.mem_append]
    tauto
end

theorem answer_true {call : SearchCall} :
    call.answer lower host (columnValue cell) = .boolean true ↔ Held lower cell call.taken := by
  unfold SearchCall.answer SearchCall.taken Held Holds
  cases cell with
  | none => simp [columnValue, callFunction, stringFunction]
  | some text => cases folded : call.folded <;> simp [columnValue, callFunction, stringFunction]

theorem call_true {name : String} {children : List Expression}
    (holds : callFunction lower host name (evalAll lower host (columnValue cell) children) = .boolean true) :
    ∀ call ∈ callsOf name children,
      call.answer lower host (call.searched.eval lower host (columnValue cell)) = .boolean true := by
  intro call read
  unfold callsOf at read
  split at read
  · split at read
    · rename_i search
      obtain rfl := List.mem_singleton.mp read
      subst search
      exact holds
    · cases read
  · cases read

mutual
theorem search_calls_true : ∀ expr : Expression, expr.eval lower host (columnValue cell) = .boolean true →
    ∀ call ∈ searchCalls expr,
      call.answer lower host (call.searched.eval lower host (columnValue cell)) = .boolean true
  | .conjunction true children, holds => each_search_calls_true children (conjunction_true holds)
  | .function _ _, holds => call_true holds
  | .conjunction false _, _ | .reference _, _ | .constant _, _ | .other _, _ => fun _ read => by cases read

theorem each_search_calls_true : ∀ exprs : List Expression,
    (∀ v ∈ evalAll lower host (columnValue cell) exprs, v = .boolean true) →
      ∀ call ∈ eachSearchCalls exprs,
        call.answer lower host (call.searched.eval lower host (columnValue cell)) = .boolean true
  | [], _ => fun _ read => by cases read
  | expr :: rest, holds => by
    obtain ⟨first, others⟩ := List.forall_mem_cons.mp holds
    intro call read
    rcases List.mem_append.mp read with here | later
    · exact search_calls_true expr first call here
    · exact each_search_calls_true rest others call later
end

mutual
/-- Search calls are read under ANDs alone: each is TRUE where the filter is. -/
theorem filter_calls_true : ∀ filter : TableFilter, filter.eval lower host (columnValue cell) = .boolean true →
    ∀ call ∈ filterCalls filter,
      call.answer lower host (call.searched.eval lower host (columnValue cell)) = .boolean true
  | .conjunctionAnd children, holds => each_filter_calls_true children (conjunction_true holds)
  | .expression expr, holds => search_calls_true expr holds
  | .conjunctionOr _, _ | .optional _, _ | .other _, _ => fun _ read => by cases read

theorem each_filter_calls_true : ∀ filters : List TableFilter,
    (∀ v ∈ evalFilters lower host (columnValue cell) filters, v = .boolean true) →
      ∀ call ∈ eachFilterCalls filters,
        call.answer lower host (call.searched.eval lower host (columnValue cell)) = .boolean true
  | [], _ => fun _ read => by cases read
  | filter :: rest, holds => by
    obtain ⟨first, others⟩ := List.forall_mem_cons.mp holds
    intro call read
    rcases List.mem_append.mp read with here | later
    · exact filter_calls_true filter first call here
    · exact each_filter_calls_true rest others call later
end

def SearchesColumn (filter : TableFilter) : Prop :=
  ∀ call ∈ filterCalls filter, ∃ type, call.searched = .reference type

theorem lake_needle_held (keeps : LowerKeepsWildcards lower) {filter : TableFilter} (searches : SearchesColumn filter)
    (holds : filter.eval lower host (columnValue cell) = .boolean true) :
    ∀ needle ∈ (collectLakeNeedles filter []).2, Held lower cell needle := by
  intro needle collected
  rcases (collectLakeNeedles_calls [] needle filter).mp collected with none_before | searched | compared
  · cases none_before
  · obtain ⟨call, read, rfl⟩ := List.mem_map.mp searched
    have matched := filter_calls_true filter holds call read
    obtain ⟨type, reference⟩ := searches call read
    rw [reference] at matched
    exact answer_true.mp matched
  · exact filter_needle_held keeps filter holds needle compared

end Searches

end NgramRewrite
