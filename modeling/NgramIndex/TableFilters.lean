import NgramIndex.SearchInit
import NgramIndex.WildcardMatch

/- The needles that the optimizer collects from the filters pushed to one VARCHAR
   column. A filter is TRUE, FALSE or NULL on a value of the column; what is
   collected is to occur in each value on which the filter is TRUE. -/
namespace NgramRewrite
open NgramGram NgramSearchInit Utf8 WildcardMatch
variable {lower : Char → Nat}

inductive LogicalType where
  | varchar
  | boolean
  | other
  deriving DecidableEq, Repr

inductive Value where
  | null
  | varchar (text : String)
  | boolean (holds : Bool)
  | other (payload : Nat)
  deriving DecidableEq, Repr

/-- The column reference is bound to the filtered column. An expression of another
    class keeps what it evaluates to. -/
inductive Expression where
  | reference (type : LogicalType)
  | constant (value : Value)
  | function (name : String) (children : List Expression)
  | conjunction (isAnd : Bool) (children : List Expression)
  | other (eval : Value → Value)

inductive TableFilter where
  | conjunctionAnd (children : List TableFilter)
  | conjunctionOr (children : List TableFilter)
  | expression (expr : Expression)
  | optional (child : TableFilter)
  | other (eval : Value → Value)

section Evaluation

def conjunctionValue (isAnd : Bool) (values : List Value) : Value :=
  if .boolean (!isAnd) ∈ values then .boolean (!isAnd)
  else if ∀ v ∈ values, v = .boolean isAnd then .boolean isAnd
  else .null

/-- Case-insensitive comparison folds each codepoint, as the index does. -/
def folding : GramOptions := ⟨.ngram, 3, 3, true⟩

def foldText (lower : Char → Nat) (text : String) : List Char := normalize lower folding text.toList

/-- The string functions that a collector knows. NULL arguments give NULL. -/
def stringFunction (lower : Char → Nat) (name : String) : List Value → Option Bool
  | [.varchar text, .varchar pattern] =>
      if name = "contains" then some (decide (bytes pattern <:+: bytes text))
      else if name = "~~" then some (wildcardMatch '%' '_' pattern.toList text.toList)
      else if name = "~~*" then some (wildcardMatch '%' '_' (foldText lower pattern) (foldText lower text))
      else none
  | [.varchar text, .varchar needle, .boolean fold] =>
      if name = "__ngram_search_match" then
        some (if fold then decide (encode (foldText lower needle) <:+: encode (foldText lower text))
          else decide (bytes needle <:+: bytes text))
      else none
  | _ => none

def isLikeFunction (name : String) : Bool := name = "contains" || name = "~~" || name = "~~*"

/-- Other functions, and those of the same names over other types, are the host's. -/
def callFunction (lower : Char → Nat) (host : String → List Value → Value) (name : String)
    (arguments : List Value) : Value :=
  match stringFunction lower name arguments with
  | some holds => .boolean holds
  | none =>
      if name = "__ngram_search_match" || (isLikeFunction name && decide (.null ∈ arguments)) then .null
      else host name arguments

mutual
def Expression.eval (lower : Char → Nat) (host : String → List Value → Value) (cell : Value) :
    Expression → Value
  | .reference _ => cell
  | .constant value => value
  | .function name children => callFunction lower host name (evalAll lower host cell children)
  | .conjunction isAnd children => conjunctionValue isAnd (evalAll lower host cell children)
  | .other eval => eval cell

def evalAll (lower : Char → Nat) (host : String → List Value → Value) (cell : Value) :
    List Expression → List Value
  | [] => []
  | expr :: rest => expr.eval lower host cell :: evalAll lower host cell rest
end

mutual
def TableFilter.eval (lower : Char → Nat) (host : String → List Value → Value) (cell : Value) :
    TableFilter → Value
  | .conjunctionAnd children => conjunctionValue true (evalFilters lower host cell children)
  | .conjunctionOr children => conjunctionValue false (evalFilters lower host cell children)
  | .expression expr => expr.eval lower host cell
  | .optional child => child.eval lower host cell
  | .other eval => eval cell

def evalFilters (lower : Char → Nat) (host : String → List Value → Value) (cell : Value) :
    List TableFilter → List Value
  | [] => []
  | filter :: rest => filter.eval lower host cell :: evalFilters lower host cell rest
end

def columnValue : Option String → Value
  | none => .null
  | some text => .varchar text

end Evaluation

section Collection

def pushSegment (requiresCi : Bool) (segment : List Char) (needles : List RewriteNeedle) :
    List RewriteNeedle :=
  if segment = [] then needles else needles ++ [⟨String.ofList segment, requiresCi⟩]

/-- The loop over a pattern, with the segment since the last '%'. -/
def likeSegmentsFrom (requiresCi : Bool) : List Char → List Char → List RewriteNeedle → List RewriteNeedle
  | segment, [], needles => pushSegment requiresCi segment needles
  | segment, c :: rest, needles =>
      if c = '%' then likeSegmentsFrom requiresCi [] rest (pushSegment requiresCi segment needles)
      else likeSegmentsFrom requiresCi (segment ++ [c]) rest needles

def collectLikeSegments (pattern : String) (requiresCi : Bool) (needles : List RewriteNeedle) :
    Bool × List RewriteNeedle :=
  if '_' ∈ pattern.toList then (false, needles)
  else (true, likeSegmentsFrom requiresCi [] pattern.toList needles)

/-- A call with the column on the left and a string on the right. -/
def collectCall (name : String) (children : List Expression) (needles : List RewriteNeedle) :
    List RewriteNeedle :=
  if isLikeFunction name then
    match children with
    | [.reference .varchar, .constant (.varchar text)] =>
        if name = "contains" then needles ++ [⟨text, false⟩]
        else (collectLikeSegments text (decide (name = "~~*")) needles).2
    | _ => needles
  else needles

mutual
def collectExprNeedles : Expression → List RewriteNeedle → List RewriteNeedle
  | .conjunction isAnd children, needles => if isAnd then collectEachExpr children needles else needles
  | .function name children, needles => collectCall name children needles
  | .reference _, needles | .constant _, needles | .other _, needles => needles

def collectEachExpr : List Expression → List RewriteNeedle → List RewriteNeedle
  | [], needles => needles
  | expr :: rest, needles => collectEachExpr rest (collectExprNeedles expr needles)
end

mutual
def collectFilterNeedles : TableFilter → List RewriteNeedle → List RewriteNeedle
  | .conjunctionAnd children, needles => collectEachFilter children needles
  | .expression expr, needles => collectExprNeedles expr needles
  | .conjunctionOr _, needles | .optional _, needles | .other _, needles => needles

def collectEachFilter : List TableFilter → List RewriteNeedle → List RewriteNeedle
  | [], needles => needles
  | filter :: rest, needles => collectEachFilter rest (collectFilterNeedles filter needles)
end

def collectMatchCall (name : String) (children : List Expression) (needles : List RewriteNeedle) :
    Bool × List RewriteNeedle :=
  if name = "__ngram_search_match" then
    match children with
    | [_, .constant (.varchar needle), .constant (.boolean folded)] => (true, needles ++ [⟨needle, folded⟩])
    | _ => (false, needles)
  else (false, needles)

mutual
def collectSearchMatch : Expression → List RewriteNeedle → Bool × List RewriteNeedle
  | .conjunction isAnd children, needles => if isAnd then collectEachMatch children (false, needles) else (false, needles)
  | .function name children, needles => collectMatchCall name children needles
  | .reference _, needles | .constant _, needles | .other _, needles => (false, needles)

def collectEachMatch : List Expression → Bool × List RewriteNeedle → Bool × List RewriteNeedle
  | [], found => found
  | expr :: rest, (found, needles) =>
      let (here, needles) := collectSearchMatch expr needles
      collectEachMatch rest (here || found, needles)
end

mutual
/-- Whether a search asks for the index, and the needles. -/
def collectLakeNeedles : TableFilter → List RewriteNeedle → Bool × List RewriteNeedle
  | .conjunctionAnd children, needles => collectEachLake children (false, needles)
  | .expression expr, needles =>
      let (search, needles) := collectSearchMatch expr needles
      (search, collectExprNeedles expr needles)
  | .conjunctionOr _, needles | .optional _, needles | .other _, needles => (false, needles)

def collectEachLake : List TableFilter → Bool × List RewriteNeedle → Bool × List RewriteNeedle
  | [], found => found
  | filter :: rest, (search, needles) =>
      let (here, needles) := collectLakeNeedles filter needles
      collectEachLake rest (here || search, needles)
end

end Collection

def Holds (lower : Char → Nat) (needle : RewriteNeedle) (text : String) : Prop :=
  if needle.requiresCi then encode (foldText lower needle.text) <:+: encode (foldText lower text)
  else bytes needle.text <:+: bytes text

/-- A needle occurs in the value of the column, which is not NULL. -/
def Held (lower : Char → Nat) (cell : Option String) (needle : RewriteNeedle) : Prop :=
  ∃ text, cell = some text ∧ Holds lower needle text

/-- Lower-casing makes no other codepoint a wildcard. -/
def LowerKeepsWildcards (lower : Char → Nat) : Prop :=
  ∀ c : Char, 0x80 ≤ c.toNat → lower c ≠ '%'.toNat ∧ lower c ≠ '_'.toNat

section Patterns

theorem encode_infix {part text : List Char} (inside : part <:+: text) : encode part <:+: encode text := by
  obtain ⟨left, right, rfl⟩ := inside
  rw [encode_append, encode_append]
  exact ⟨encode left, encode right, rfl⟩

theorem fold_ascii : ∀ n < 128, Char.ofUInt8 (asciiToLower (Char.ofNat n).toUInt8) = '%' ∨
    Char.ofUInt8 (asciiToLower (Char.ofNat n).toUInt8) = '_' →
      Char.ofUInt8 (asciiToLower (Char.ofNat n).toUInt8) = Char.ofNat n := by decide

theorem fold_keeps_wildcards (keeps : LowerKeepsWildcards lower) (c : Char) :
    (foldCodepoint lower folding c = foldCodepoint lower folding '%' → c = '%') ∧
      (foldCodepoint lower folding c = foldCodepoint lower folding '_' → c = '_') := by
  have insensitive : folding.caseInsensitive = true := rfl
  have same : ∀ wild : Char, wild = '%' ∨ wild = '_' → foldCodepoint lower folding c = wild → c = wild := by
    intro wild either folded
    by_cases ascii : c.toNat < 0x80
    · have shape : foldCodepoint lower folding c = Char.ofUInt8 (asciiToLower c.toUInt8) := by
        unfold foldCodepoint
        rw [if_pos insensitive, if_pos ascii]
      rw [shape] at folded
      have fixed := fold_ascii c.toNat ascii
      rw [Char.ofNat_toNat, folded] at fixed
      exact (fixed either).symm
    · have high : 0x80 ≤ c.toNat := Nat.le_of_not_lt ascii
      unfold foldCodepoint at folded
      rw [if_pos insensitive, if_neg ascii] at folded
      split at folded
      · rename_i valid
        have number : lower c = wild.toNat := by
          rw [← folded]
          unfold Char.ofNat
          rw [dif_pos valid]
          rfl
        rcases either with rfl | rfl
        · exact absurd number (keeps c high).1
        · exact absurd number (keeps c high).2
      · exact folded
  exact ⟨same '%' (Or.inl rfl), same '_' (Or.inr rfl)⟩

theorem pushSegment_mem {requiresCi : Bool} {segment : List Char} {needles : List RewriteNeedle} {n : RewriteNeedle}
    (pushed : n ∈ pushSegment requiresCi segment needles) :
    n ∈ needles ∨ n = ⟨String.ofList segment, requiresCi⟩ := by
  unfold pushSegment at pushed
  split at pushed
  · exact Or.inl pushed
  · rcases List.mem_append.mp pushed with old | new
    · exact Or.inl old
    · exact Or.inr (List.mem_singleton.mp new)

theorem likeSegmentsFrom_parts {requiresCi : Bool} {segment pattern : List Char} {needles : List RewriteNeedle}
    (literal : '%' ∉ segment) {n : RewriteNeedle} (collected : n ∈ likeSegmentsFrom requiresCi segment pattern needles) :
    n ∈ needles ∨ ∃ left part right, segment ++ pattern = left ++ part ++ right ∧ '%' ∉ part ∧
      n = ⟨String.ofList part, requiresCi⟩ := by
  induction pattern generalizing segment needles with
  | nil =>
    rcases pushSegment_mem collected with old | rfl
    · exact Or.inl old
    · exact Or.inr ⟨[], segment, [], rfl, literal, rfl⟩
  | cons c rest ih =>
    rw [likeSegmentsFrom] at collected
    split at collected
    · rcases ih (by simp) collected with pushed | ⟨left, part, right, split, free, rfl⟩
      · rcases pushSegment_mem pushed with old | rfl
        · exact Or.inl old
        · exact Or.inr ⟨[], segment, c :: rest, rfl, literal, rfl⟩
      · refine Or.inr ⟨segment ++ c :: left, part, right, ?_, free, rfl⟩
        rw [List.nil_append] at split
        rw [split]
        simp
    · rename_i other
      have longer : '%' ∉ segment ++ [c] := by
        intro present
        rcases List.mem_append.mp present with old | new
        · exact literal old
        · exact other (List.mem_singleton.mp new).symm
      rcases ih longer collected with old | ⟨left, part, right, split, free, rfl⟩
      · exact Or.inl old
      · refine Or.inr ⟨left, part, right, ?_, free, rfl⟩
        rw [← split, List.append_assoc]
        rfl

theorem like_held (keeps : LowerKeepsWildcards lower) {pattern text : String} {requiresCi : Bool}
    {needles : List RewriteNeedle} {n : RewriteNeedle}
    (collected : n ∈ (collectLikeSegments pattern requiresCi needles).2)
    (matched : if requiresCi then wildcardMatch '%' '_' (foldText lower pattern) (foldText lower text) = true
      else wildcardMatch '%' '_' pattern.toList text.toList = true) :
    n ∈ needles ∨ Holds lower n text := by
  unfold collectLikeSegments at collected
  split at collected
  · exact Or.inl collected
  · rename_i no_single
    rcases likeSegmentsFrom_parts (by simp) collected with old | ⟨left, part, right, split, free, rfl⟩
    · exact Or.inl old
    · apply Or.inr
      rw [List.nil_append] at split
      have literal : Literal '%' '_' part := by
        intro c present
        constructor
        · rintro rfl
          exact free present
        · rintro rfl
          apply no_single
          rw [split]
          exact List.mem_append_left _ (List.mem_append_right _ present)
      unfold Holds
      cases requiresCi with
      | false =>
        simp only [Bool.false_eq_true, if_false] at matched ⊢
        rw [split] at matched
        rw [bytes_eq_encode, bytes_eq_encode, String.toList_ofList]
        exact encode_infix (literal_occurs literal matched)
      | true =>
        simp only [if_true] at matched ⊢
        have percent : foldCodepoint lower folding '%' = '%' := rfl
        have underscore : foldCodepoint lower folding '_' = '_' := rfl
        have translated : wildcardMatch (foldCodepoint lower folding '%') (foldCodepoint lower folding '_')
            ((left ++ part ++ right).map (foldCodepoint lower folding))
            (text.toList.map (foldCodepoint lower folding)) = true := by
          rw [percent, underscore, ← split]
          exact matched
        apply encode_infix
        unfold foldText NgramGram.normalize
        rw [String.toList_ofList]
        exact literal_occurs_mapped (fold_keeps_wildcards keeps) literal translated

end Patterns

end NgramRewrite
