import Mathlib.Data.List.Basic
import Mathlib.Order.Lattice
import Mathlib.Tactic.Ring

/- Byte strings read as big-endian numbers. Strings of one length order as the
   numbers they denote, and a difference decides the order whatever follows it. -/
namespace BigEndian

def value (bytes : List UInt8) : Nat := bytes.foldl (fun sum byte => sum * 256 + byte.toNat) 0

@[simp] theorem value_nil : value [] = 0 := rfl

theorem foldl_value (bytes : List UInt8) (first : Nat) :
    bytes.foldl (fun sum byte => sum * 256 + byte.toNat) first = first * 256 ^ bytes.length + value bytes := by
  induction bytes generalizing first with
  | nil => simp
  | cons byte bytes ih =>
    have start := ih (0 * 256 + byte.toNat)
    rw [Nat.zero_mul, Nat.zero_add] at start
    rw [value, List.foldl_cons, List.foldl_cons, ih, Nat.zero_mul, Nat.zero_add, start, List.length_cons]
    ring

theorem value_cons (byte : UInt8) (bytes : List UInt8) :
    value (byte :: bytes) = byte.toNat * 256 ^ bytes.length + value bytes := by
  rw [value, List.foldl_cons, foldl_value, Nat.zero_mul, Nat.zero_add]

theorem value_append (a b : List UInt8) : value (a ++ b) = value a * 256 ^ b.length + value b := by
  rw [value, List.foldl_append, foldl_value]
  rfl

theorem value_concat (bytes : List UInt8) (byte : UInt8) :
    value (bytes ++ [byte]) = value bytes * 256 + byte.toNat := by
  rw [value_append, value_cons]
  simp

theorem value_lt (bytes : List UInt8) : value bytes < 256 ^ bytes.length := by
  induction bytes with
  | nil => simp
  | cons byte bytes ih =>
    have digit : byte.toNat + 1 ≤ 256 := byte.toNat_lt
    have whole := Nat.mul_le_mul_right (256 ^ bytes.length) digit
    rw [Nat.add_mul, Nat.one_mul] at whole
    rw [value_cons, List.length_cons, Nat.pow_succ, Nat.mul_comm (256 ^ bytes.length)]
    omega

theorem value_long {byte : UInt8} (bytes : List UInt8) (leads : byte ≠ 0) :
    256 ^ bytes.length ≤ value (byte :: bytes) := by
  have digit : 0 < byte.toNat := Nat.pos_of_ne_zero fun zero => leads (UInt8.toNat_inj.mp zero)
  rw [value_cons]
  exact (Nat.le_mul_of_pos_left _ digit).trans (Nat.le_add_right _ _)

/-- The leading digits decide, then the rest. -/
theorem digits_lt {base x y r s : Nat} (small : r < base) (small' : s < base) :
    x * base + r < y * base + s ↔ x < y ∨ x = y ∧ r < s := by
  rcases Nat.lt_trichotomy x y with less | rfl | more
  · have step := Nat.mul_le_mul_right base (Nat.succ_le_of_lt less)
    rw [Nat.succ_mul] at step
    omega
  · omega
  · have step := Nat.mul_le_mul_right base (Nat.succ_le_of_lt more)
    rw [Nat.succ_mul] at step
    omega

theorem value_lt_iff {a b : List UInt8} (same : a.length = b.length) : value a < value b ↔ a < b := by
  induction a generalizing b with
  | nil =>
    obtain rfl : b = [] := List.eq_nil_of_length_eq_zero same.symm
    simp
  | cons x a ih =>
    cases b with
    | nil => cases same
    | cons y b =>
      have shorter : a.length = b.length := Nat.succ.inj same
      rw [List.cons_lt_cons_iff, value_cons, value_cons, shorter, ← ih shorter, UInt8.lt_iff_toNat_lt,
        ← UInt8.toNat_inj]
      exact digits_lt (shorter ▸ value_lt a) (value_lt b)

theorem value_injective {a b : List UInt8} (same : a.length = b.length) (equal : value a = value b) : a = b := by
  induction a generalizing b with
  | nil => exact (List.eq_nil_of_length_eq_zero same.symm).symm
  | cons x a ih =>
    cases b with
    | nil => cases same
    | cons y b =>
      have shorter : a.length = b.length := Nat.succ.inj same
      have less := @digits_lt (256 ^ b.length) x.toNat y.toNat _ _ (shorter ▸ value_lt a) (value_lt b)
      have more := @digits_lt (256 ^ b.length) y.toNat x.toNat _ _ (value_lt b) (shorter ▸ value_lt a)
      rw [value_cons, value_cons, shorter] at equal
      obtain ⟨digit, rest⟩ : x.toNat = y.toNat ∧ value a = value b := by omega
      rw [UInt8.toNat_inj.mp digit, ih shorter rest]

/-- The last so many digits of a number, the highest first. -/
def digits (count n : Nat) : List UInt8 := (List.range count).map fun i => UInt8.ofNat (n / 256 ^ (count - 1 - i))

@[simp] theorem digits_length (count n : Nat) : (digits count n).length = count := by
  rw [digits, List.length_map, List.length_range]

theorem digits_succ (count n : Nat) : digits (count + 1) n = digits count (n / 256) ++ [UInt8.ofNat n] := by
  rw [digits, digits, List.range_succ, List.map_append, List.map_singleton, Nat.add_sub_cancel, Nat.sub_self,
    Nat.pow_zero, Nat.div_one]
  congr 1
  refine List.map_congr_left fun i listed => ?_
  have inside := List.mem_range.mp listed
  rw [Nat.div_div_eq_div_mul, ← Nat.pow_succ', show count - i = count - 1 - i + 1 by omega]

theorem value_digits (count n : Nat) : value (digits count n) = n % 256 ^ count := by
  induction count generalizing n with
  | zero => rw [Nat.pow_zero, Nat.mod_one]; rfl
  | succ count ih =>
    have last : n % 256 ^ (count + 1) = n % 256 + 256 * (n / 256 % 256 ^ count) := by
      rw [Nat.pow_succ', Nat.mod_mul]
    rw [digits_succ, value_concat, ih, UInt8.toNat_ofNat', last]
    omega

/-- Neither string is the start of the other, so what follows them never decides. -/
theorem append_lt_append {a b : List UInt8} (apart : ∀ c, a ++ c ≠ b) (apart' : ∀ c, b ++ c ≠ a)
    (x y : List UInt8) : a ++ x < b ++ y ↔ a < b := by
  induction a generalizing b with
  | nil => exact absurd rfl (apart b)
  | cons p a ih =>
    cases b with
    | nil => exact absurd rfl (apart' (p :: a))
    | cons q b =>
      rw [List.cons_append, List.cons_append, List.cons_lt_cons_iff, List.cons_lt_cons_iff]
      by_cases head : p = q
      · subst head
        rw [ih (fun c same => apart c (by rw [List.cons_append, same]))
          (fun c same => apart' c (by rw [List.cons_append, same]))]
      · simp [head]

end BigEndian
