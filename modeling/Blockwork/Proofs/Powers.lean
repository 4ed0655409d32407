import Blockwork.Entry.Run
import Mathlib.Algebra.GroupWithZero.Nat
import Mathlib.Algebra.Ring.Int.Defs

/-! # Powers of integers
Squaring the base while halving the exponent keeps the power that is still to be multiplied in. -/

namespace Blockwork.Number

/-- The loop without a bound on its rounds: from a base, an exponent and a product so far it takes `k` rounds and ends
with `r`. -/
inductive Squares : Int64 → Nat → Int64 → Nat → Int64 → Prop where
  | done : Squares base 0 acc 0 acc
  | round : n ≠ 0 → Squares (base * base) (n / 2) (if n % 2 = 1 then acc * base else acc) k r →
      Squares base n acc (k + 1) r

theorem powLoop_squares (h : n < 2 ^ width) (hfuel : width ≤ fuel) (base acc : Int64) :
    ∃ k ≤ width, Squares base n acc k (powLoop fuel base n acc) := by
  induction fuel generalizing width base n acc with
  | zero =>
    obtain rfl : width = 0 := Nat.le_zero.mp hfuel
    obtain rfl : n = 0 := by omega
    exact ⟨0, Nat.le_refl 0, .done⟩
  | succ fuel ih =>
    rw [powLoop]
    split
    next hn =>
      subst hn
      exact ⟨0, Nat.zero_le _, .done⟩
    next hn =>
      cases width with
      | zero => omega
      | succ width =>
        have hhalf : n / 2 < 2 ^ width := by
          rw [Nat.pow_succ] at h
          omega
        obtain ⟨k, hk, hsquares⟩ := ih hhalf (Nat.le_of_succ_le_succ hfuel) (base * base)
          (if n % 2 = 1 then acc * base else acc)
        exact ⟨k + 1, Nat.succ_le_succ hk, .round hn hsquares⟩

theorem Squares.result (h : Squares base n acc k r) {a b : Int} (hbase : base = .ofInt b) (hacc : acc = .ofInt a) :
    r = .ofInt (a * b ^ n) := by
  induction h generalizing a b with
  | done => rw [hacc, pow_zero, mul_one]
  | @round n base acc k r hn _ ih =>
    have hsquare : base * base = .ofInt (b * b) := by rw [hbase, Int64.ofInt_mul]
    -- An odd exponent leaves one factor over, which goes into the product.
    have hsplit : b ^ n = (b * b) ^ (n / 2) * b ^ (n % 2) := by
      rw [← pow_two, ← pow_mul, ← pow_add, Nat.div_add_mod]
    rw [hsplit]
    rcases Nat.mod_two_eq_zero_or_one n with heven | hodd
    · rw [heven, pow_zero, mul_one]
      exact ih hsquare (by rw [heven, if_neg Nat.zero_ne_one, hacc])
    · rw [hodd, pow_one, mul_comm _ b, ← mul_assoc]
      exact ih hsquare (by rw [hodd, if_pos rfl, hacc, hbase, Int64.ofInt_mul])

/-- Integer powers are exact up to multiples of `2 ^ 64`, and the loop that computes them ends within 63 rounds. -/
theorem powers_wrap (base exponent : Int64) (s : Session) : ∃ r : Int64,
    Entry.intPow.run [.integer base, .integer exponent] s = (.integer r, s) ∧
    (exponent.toInt < 0 → r = 0) ∧
    (0 ≤ exponent.toInt → r.toInt = (base.toInt ^ exponent.toInt.toNat).bmod (2 ^ 64) ∧
      ∃ k ≤ 63, Squares base exponent.toInt.toNat 1 k r) := by
  refine ⟨intPow base exponent, rfl, fun hneg => if_pos hneg, fun hpos => ?_⟩
  have hrange : exponent.toInt.toNat < 2 ^ 63 := by
    have hlt := exponent.toInt_lt
    omega
  obtain ⟨k, hk, hsquares⟩ := powLoop_squares hrange (by decide : 63 ≤ 64) base 1
  have heq : intPow base exponent = powLoop 64 base exponent.toInt.toNat 1 := if_neg (by omega)
  rw [heq]
  refine ⟨?_, k, hk, hsquares⟩
  rw [hsquares.result base.ofInt_toInt.symm (a := 1) rfl, one_mul, Int64.toInt_ofInt]
  rfl

/-- The power needs sixty-six bits, of which the least sixty-four are kept. -/
theorem powers_wrap_past : ∃ r : Int64, (0 : Int) ≤ (41 : Int64).toInt ∧
    Entry.intPow.run [.integer (-3), .integer 41] { memory := .new 100 10000 } =
      (.integer r, { memory := .new 100 10000 }) ∧ r.toInt = 420491770248316829 := by
  obtain ⟨r, hrun, -, hpower⟩ := powers_wrap (-3) 41 { memory := .new 100 10000 }
  exact ⟨r, by decide, hrun, (hpower (by decide)).1.trans (by decide +kernel)⟩

end Blockwork.Number
