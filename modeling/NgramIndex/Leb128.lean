import Mathlib.Data.List.Basic
import Mathlib.Tactic.Ring

/- The base-128 variable length code of natural numbers. Each byte carries seven
   value bits, low bits first, and its high bit says that more bytes follow. -/
namespace Leb128

def encode (v : Nat) : List UInt8 :=
  if v < 128 then [v.toUInt8] else (v % 128 + 128).toUInt8 :: encode (v / 128)
termination_by v

theorem encode_small {v : Nat} (small : v < 128) : encode v = [v.toUInt8] := by
  rw [encode, if_pos small]

theorem encode_large {v : Nat} (large : 128 ≤ v) :
    encode v = (v % 128 + 128).toUInt8 :: encode (v / 128) := by
  rw [encode, if_neg (by omega)]

def payload (b : UInt8) : Nat := b.toNat % 128

def continues (b : UInt8) : Bool := decide (128 ≤ b.toNat)

@[simp] theorem payload_last {v : Nat} (small : v < 128) : payload v.toUInt8 = v := by
  have fits : v.toUInt8.toNat = v := by simp; omega
  rw [payload, fits]
  omega

@[simp] theorem continues_last {v : Nat} (small : v < 128) : continues v.toUInt8 = false := by
  have fits : v.toUInt8.toNat = v := by simp; omega
  simp only [continues, fits, decide_eq_false_iff_not]
  omega

@[simp] theorem payload_more (v : Nat) : payload (v % 128 + 128).toUInt8 = v % 128 := by
  have fits : (v % 128 + 128).toUInt8.toNat = v % 128 + 128 := by simp; omega
  rw [payload, fits]
  omega

@[simp] theorem continues_more (v : Nat) : continues (v % 128 + 128).toUInt8 = true := by
  have fits : (v % 128 + 128).toUInt8.toNat = v % 128 + 128 := by simp; omega
  simp only [continues, fits, decide_eq_true_eq]
  omega

/-- Splitting a scaled value at its low seven bits. -/
theorem split_value (v shift : Nat) :
    v % 128 * 2 ^ shift + v / 128 * 2 ^ (shift + 7) = v * 2 ^ shift := by
  have whole : v % 128 + v / 128 * 128 = v := by omega
  calc v % 128 * 2 ^ shift + v / 128 * 2 ^ (shift + 7)
      = (v % 128 + v / 128 * 128) * 2 ^ shift := by rw [Nat.pow_add]; ring
    _ = v * 2 ^ shift := by rw [whole]

theorem encode_length_pos (v : Nat) : 0 < (encode v).length := by
  by_cases small : v < 128
  · simp [encode_small small]
  · simp [encode_large (Nat.le_of_not_lt small)]

/-- A value below 128^k takes at most k bytes. -/
theorem encode_length_le (k : Nat) : ∀ v, v < 128 ^ (k + 1) → (encode v).length ≤ k + 1 := by
  induction k with
  | zero =>
    intro v small
    simp [encode_small (by simpa using small)]
  | succ k ih =>
    intro v small
    by_cases tiny : v < 128
    · simp [encode_small tiny]
    · rw [encode_large (Nat.le_of_not_lt tiny), List.length_cons]
      have quotient : v / 128 < 128 ^ (k + 1) := by
        rw [Nat.pow_succ] at small
        exact Nat.div_lt_of_lt_mul (by omega)
      have shorter := ih (v / 128) quotient
      omega

theorem le_encode_length (k : Nat) : ∀ v, 128 ^ k ≤ v → k + 1 ≤ (encode v).length := by
  induction k with
  | zero =>
    intro v _
    exact encode_length_pos v
  | succ k ih =>
    intro v large
    have base : 128 ≤ 128 ^ (k + 1) := Nat.le_self_pow (by omega) 128
    rw [encode_large (by omega), List.length_cons]
    have quotient : 128 ^ k ≤ v / 128 := by
      rw [Nat.pow_succ] at large
      exact (Nat.le_div_iff_mul_le (by omega)).mpr large
    have longer := ih (v / 128) quotient
    omega

/-- The number that the bytes of a code denote. -/
def value : List UInt8 → Nat
  | [] => 0
  | byte :: rest => payload byte + 128 * value rest

def IsCode : List UInt8 → Prop
  | [] => False
  | [byte] => continues byte = false
  | byte :: rest => continues byte = true ∧ IsCode rest

/-- A code of several bytes does not end in zero, so no shorter one denotes its number. -/
def Shortest (code : List UInt8) : Prop := code.length = 1 ∨ code.getLast? ≠ some 0

instance (code : List UInt8) : Decidable (Shortest code) := inferInstanceAs (Decidable (_ ∨ _))

/-- The codes of a byte string, the last of them perhaps unfinished. -/
def codes : List UInt8 → List (List UInt8)
  | [] => []
  | byte :: rest =>
      if continues byte then
        match codes rest with
        | [] => [[byte]]
        | code :: others => (byte :: code) :: others
      else [byte] :: codes rest

theorem codes_append {code : List UInt8} (isCode : IsCode code) (rest : List UInt8) :
    codes (code ++ rest) = code :: codes rest := by
  induction code with
  | nil => exact isCode.elim
  | cons byte more ih =>
    cases more with
    | nil =>
      have last : continues byte = false := isCode
      rw [List.singleton_append, codes, last]
      rfl
    | cons next more =>
      obtain ⟨open_end, tail⟩ := isCode
      rw [List.cons_append, codes, open_end, ih tail]
      rfl

theorem codes_flatten {list : List (List UInt8)} (each : ∀ code ∈ list, IsCode code) : codes list.flatten = list := by
  induction list with
  | nil => rfl
  | cons code list ih =>
    obtain ⟨isCode, others⟩ := List.forall_mem_cons.mp each
    rw [List.flatten_cons, codes_append isCode, ih others]

theorem code_length_pos {code : List UInt8} (isCode : IsCode code) : 0 < code.length := by
  cases code with
  | nil => exact isCode.elim
  | cons byte rest => exact Nat.succ_pos _

theorem length_le_flatten {list : List (List UInt8)} (each : ∀ code ∈ list, IsCode code) :
    list.length ≤ list.flatten.length := by
  induction list with
  | nil => exact Nat.le_refl 0
  | cons code list ih =>
    obtain ⟨isCode, others⟩ := List.forall_mem_cons.mp each
    have longer := ih others
    have some := code_length_pos isCode
    rw [List.flatten_cons, List.length_append, List.length_cons]
    omega

theorem payload_toUInt8 {byte : UInt8} (last : continues byte = false) : (payload byte).toUInt8 = byte := by
  have small := of_decide_eq_false last
  apply UInt8.toNat_inj.mp
  simp only [payload, Nat.toUInt8_eq, UInt8.toNat_ofNat']
  omega

theorem payload_continues {byte : UInt8} (more : continues byte = true) : (payload byte + 128).toUInt8 = byte := by
  have large := of_decide_eq_true more
  have bound := byte.toNat_lt
  apply UInt8.toNat_inj.mp
  simp only [payload, Nat.toUInt8_eq, UInt8.toNat_ofNat']
  omega

theorem payload_lt (byte : UInt8) : payload byte < 128 := Nat.mod_lt _ (by decide)

theorem value_pos {code : List UInt8} (isCode : IsCode code) (nonzero : code.getLast? ≠ some 0) : 0 < value code := by
  induction code with
  | nil => exact isCode.elim
  | cons byte rest ih =>
    cases rest with
    | nil =>
      have last : continues byte = false := isCode
      by_contra none
      have zero : payload byte = 0 := by
        simp only [value] at none
        omega
      have same := payload_toUInt8 last
      rw [zero] at same
      exact nonzero (by rw [← same]; rfl)
    | cons next rest =>
      have later := ih isCode.2 (by rwa [List.getLast?_cons_cons] at nonzero)
      rw [value]
      omega

theorem encode_value {code : List UInt8} (isCode : IsCode code) (shortest : Shortest code) :
    encode (value code) = code := by
  induction code with
  | nil => exact isCode.elim
  | cons byte rest ih =>
    have small := payload_lt byte
    cases rest with
    | nil =>
      have last : continues byte = false := isCode
      rw [value, value, Nat.mul_zero, Nat.add_zero, encode_small small, payload_toUInt8 last]
    | cons next rest =>
      obtain ⟨more, tail⟩ := isCode
      have nonzero : (next :: rest).getLast? ≠ some 0 := by
        rcases shortest with one | last
        · cases one
        · rwa [List.getLast?_cons_cons] at last
      have positive := value_pos tail nonzero
      have low : (payload byte + 128 * value (next :: rest)) % 128 = payload byte := by omega
      have high : (payload byte + 128 * value (next :: rest)) / 128 = value (next :: rest) := by omega
      rw [value, encode_large (by omega), low, high, ih tail (Or.inr nonzero), payload_continues more]

end Leb128
