import Mathlib.Data.BitVec
import Mathlib.Logic.Function.Basic

/- Mixing a machine word in rounds, each an xor with its own upper bits and a
   multiplication by a unit. Mixing with the inverse units, last unit first, undoes it. -/
namespace WordMixing
variable {w s : Nat}

def xorShift (s : Nat) (x : BitVec w) : BitVec w := x ^^^ (x >>> s)

def mix (s : Nat) : List (BitVec w) → BitVec w → BitVec w
  | [], x => xorShift s x
  | unit :: units, x => mix s units (xorShift s x * unit)

/-- The shift reaches at least half way, so a second one clears the word. -/
theorem xorShift_involutive (half : w ≤ 2 * s) : Function.Involutive (xorShift s : BitVec w → BitVec w) := by
  intro x
  have cleared : x >>> (s + s) = 0#w := by
    apply BitVec.eq_of_toNat_eq
    rw [BitVec.toNat_ushiftRight, Nat.shiftRight_eq_div_pow, ← Nat.two_mul]
    exact Nat.div_eq_of_lt (x.isLt.trans_le (Nat.pow_le_pow_right (by decide) half))
  unfold xorShift
  rw [BitVec.ushiftRight_xor_distrib, ← BitVec.shiftRight_add, cleared, BitVec.xor_zero, BitVec.xor_assoc,
    BitVec.xor_self, BitVec.xor_zero]

theorem mix_concat (units : List (BitVec w)) (unit x : BitVec w) :
    mix s (units ++ [unit]) x = xorShift s (mix s units x * unit) := by
  induction units generalizing x with
  | nil => rfl
  | cons first units ih => exact ih _

theorem mix_undone (half : w ≤ 2 * s) {units inverses : List (BitVec w)}
    (pairs : List.Forall₂ (fun unit inverse => unit * inverse = 1#w) units inverses) :
    Function.LeftInverse (mix s inverses.reverse) (mix s units) := by
  induction pairs with
  | nil => exact xorShift_involutive half
  | @cons unit inverse units inverses pair _ ih =>
    intro x
    rw [List.reverse_cons, mix_concat, mix, ih, BitVec.mul_assoc, pair, BitVec.mul_one]
    exact xorShift_involutive half x

theorem mix_bijective (half : w ≤ 2 * s) {units inverses : List (BitVec w)}
    (pairs : List.Forall₂ (fun unit inverse => unit * inverse = 1#w) units inverses) :
    Function.Bijective (mix s units) := by
  have back : List.Forall₂ (fun unit inverse => unit * inverse = 1#w) inverses.reverse units.reverse := by
    refine List.rel_reverse (pairs.flip.imp fun inverse unit pair => ?_)
    rw [BitVec.mul_comm]
    exact pair
  have right := mix_undone half back
  rw [List.reverse_reverse] at right
  exact ⟨(mix_undone half pairs).injective, right.surjective⟩

end WordMixing
