import Tartine.Basis.SquareLog
import Tartine.Kcore.Placement

/-!
# `Kcore.LogAccuracy` — how exact the fixed-point logarithm is

`neg_log2_q16` finds the integer part of the logarithm by counting zeros and sixteen bits of the fraction by squaring a
mantissa with 32 fractional bits. It is `Basis.SquareLog` at `N = 2 ^ 32` and sixteen rounds: seventeen roundings, doubled
by the rounds after them, stay far below a factor of two.

* `log2Turn_eq` — a turn of the loop is a round, as no operation of it wraps;
* `loopFits` — nor does any other on the way to the result;
* `negLog2Q16_accurate` — the result is exact but for at most one unit of the last place.
-/

namespace Tartine.Kcore

open Basis

/-! ## The loop -/

/-- One turn of the loop, on the mantissa and the bits so far. -/
def log2Turn (s : Nat × Nat) : Nat × Nat :=
  let sq := s.1 * s.1
  let frac := (s.2 <<< 1) % 2 ^ 64
  if 2 ^ 65 ≤ sq then ((sq >>> 33) % 2 ^ 64, frac ||| 1) else ((sq >>> 32) % 2 ^ 64, frac)

/-- The state after `i` turns. -/
def log2Turns (i : Nat) (s : Nat × Nat) : Nat × Nat := log2Turn^[i] s

theorem log2Rounds_eq (k m frac : Nat) : log2Rounds k m frac = (log2Turns k (m, frac)).2 := by
  induction k generalizing m frac with
  | zero => rfl
  | succ k ih =>
      show log2Rounds (k + 1) m frac = (log2Turns k (log2Turn (m, frac))).2
      unfold log2Rounds log2Turn
      dsimp only
      split
      · exact ih _ _
      · exact ih _ _

/-- The mantissa the loop starts from, with `intPart` the position of the leading bit. -/
def mantissa (x : Nat) : Nat :=
  if 32 ≤ x.log2 then x >>> (x.log2 - 32) else (x <<< (32 - x.log2)) % 2 ^ 64

/-- In this state the next turn overflows nowhere: the mantissa is in `[2 ^ 32, 2 ^ 33)`, its square fits 128 bits, the
    next mantissa and the next bits fit 64. -/
structure TurnFits (s : Nat × Nat) : Prop where
  mantissa_ge : 2 ^ 32 ≤ s.1
  mantissa_lt : s.1 < 2 ^ 33
  square : s.1 * s.1 < 2 ^ 128
  next : (s.1 * s.1) >>> 32 < 2 ^ 64
  bits : s.2 <<< 1 < 2 ^ 64

variable {s : Nat × Nat} {x i : Nat}

theorem turnFits_of_bounds (hlow : 2 ^ 32 ≤ s.1) (hhigh : s.1 < 2 ^ 33) (hbits : s.2 < 2 ^ 16) : TurnFits s := by
  have hsq : s.1 * s.1 < 2 ^ 33 * 2 ^ 33 := Nat.mul_lt_mul_of_lt_of_lt hhigh hhigh
  refine ⟨hlow, hhigh, by omega, ?_, ?_⟩
  · rw [Nat.shiftRight_eq_div_pow]
    omega
  · rw [Nat.shiftLeft_eq]
    omega

/-- **A turn is a round.** -/
theorem log2Turn_eq (h : TurnFits s) : log2Turn s = squareTurn (2 ^ 32) s := by
  have hnext := h.next
  have hbits := h.bits
  rw [Nat.shiftRight_eq_div_pow] at hnext
  unfold log2Turn squareTurn
  dsimp only
  rw [Nat.mod_eq_of_lt hbits, Nat.shiftLeft_eq, Nat.shiftRight_eq_div_pow, Nat.shiftRight_eq_div_pow]
  have htwo : 2 * 2 ^ 32 * 2 ^ 32 = 2 ^ 65 := by decide
  rw [htwo]
  split
  · have hhalf : s.1 * s.1 / 2 ^ 33 < 2 ^ 64 := by omega
    have hone : s.2 * 2 ^ 1 ||| 1 = 2 * s.2 + 1 := by
      rw [Nat.mul_comm, ← Nat.two_pow_add_eq_or_of_lt (by decide : 1 < 2 ^ 1)]
    rw [Nat.mod_eq_of_lt hhalf, hone]
    rfl
  · rw [Nat.mod_eq_of_lt hnext, Nat.mul_comm s.2]

/-! ## The mantissa -/

/-- The mantissa a number starts with is the number's own, rounded down. -/
theorem logState_mantissa (hx : x ≠ 0) : LogState (2 ^ 32) x x.log2 1 (mantissa x, 0) := by
  have hlow := Nat.log2_self_le hx
  have hhigh : x < 2 ^ (x.log2 + 1) := Nat.lt_log2_self
  unfold mantissa
  split
  · rename_i hlarge
    obtain ⟨r, hr⟩ : ∃ r, x.log2 = 32 + r := ⟨x.log2 - 32, by omega⟩
    rw [hr, Nat.add_sub_cancel_left, Nat.shiftRight_eq_div_pow]
    rw [hr, pow_add] at hlow
    rw [hr, Nat.add_right_comm, pow_add] at hhigh
    have hpos := Nat.two_pow_pos r
    have hge : 2 ^ 32 ≤ x / 2 ^ r := (Nat.le_div_iff_mul_le hpos).mpr hlow
    have hsplit : 2 ^ (32 + r + 0) = 2 ^ r * 2 ^ 32 := by rw [Nat.add_zero, pow_add, Nat.mul_comm]
    refine ⟨hge, ?_, ?_, ?_⟩
    · rw [Nat.div_lt_iff_lt_mul hpos]
      exact hhigh
    · dsimp only
      rw [hsplit, ← Nat.mul_assoc]
      exact Nat.mul_le_mul_right _ (Nat.div_mul_le_self x _)
    · dsimp only
      rw [hsplit, ← Nat.mul_assoc, pow_one, pow_one]
      exact Nat.mul_le_mul_right _ (mul_le_of_div hpos hge)
  · rename_i hsmall
    obtain ⟨r, hr⟩ : ∃ r, 32 = x.log2 + r := ⟨32 - x.log2, by omega⟩
    have hpos := Nat.two_pow_pos r
    have hexact : x * 2 ^ r < 2 ^ 33 := by
      calc x * 2 ^ r < 2 ^ (x.log2 + 1) * 2 ^ r := Nat.mul_lt_mul_of_pos_right hhigh hpos
        _ = 2 ^ 33 := by
          rw [← pow_add]
          congr 1
          omega
    have hpow : 2 ^ 32 = 2 ^ x.log2 * 2 ^ r := by rw [← pow_add, ← hr]
    rw [show 32 - x.log2 = r by omega, Nat.shiftLeft_eq, Nat.mod_eq_of_lt (by omega)]
    have heq : x * 2 ^ r * 2 ^ (x.log2 + 0) = x * 2 ^ 32 := by
      rw [Nat.add_zero, hpow]
      ring
    refine ⟨?_, ?_, ?_, ?_⟩
    · dsimp only
      rw [hpow]
      exact Nat.mul_le_mul_right _ hlow
    · exact hexact
    · exact le_of_eq heq
    · dsimp only
      rw [pow_one, pow_one]
      calc x * 2 ^ 32 * 2 ^ 32 ≤ x * 2 ^ 32 * (2 ^ 32 + 1) := Nat.mul_le_mul_left _ (Nat.le_succ _)
        _ = x * 2 ^ r * (2 ^ 32 + 1) * 2 ^ (x.log2 + 0) := by rw [← heq]; ring

/-- **Run lemma.** Through the sixteen turns nothing overflows, and the state is that of the rounds. -/
theorem log2Turns_spec (hx : x ≠ 0) (hi : i ≤ 16) :
    log2Turns i (mantissa x, 0) = squareTurns (2 ^ 32) i (mantissa x, 0) ∧
    LogState (2 ^ 32) (x ^ 2 ^ i) (x.log2 * 2 ^ i) (2 ^ (i + 1) - 1) (log2Turns i (mantissa x, 0)) ∧
    (log2Turns i (mantissa x, 0)).2 < 2 ^ i := by
  have hrun := fun j => (logState_mantissa hx).run (by decide) j
  have hsame : log2Turns i (mantissa x, 0) = squareTurns (2 ^ 32) i (mantissa x, 0) := by
    induction i with
    | zero => rfl
    | succ i ih =>
        have hprev := ih (by omega)
        have hbits : (squareTurns (2 ^ 32) i (mantissa x, 0)).2 < 2 ^ 16 :=
          Nat.lt_of_lt_of_le (squareTurns_bits _ i) (Nat.pow_le_pow_right (by decide) (by omega))
        have hfits := turnFits_of_bounds (hrun i).low (hrun i).high hbits
        have hturn : log2Turns (i + 1) (mantissa x, 0) = log2Turn (log2Turns i (mantissa x, 0)) :=
          Function.iterate_succ_apply' _ _ _
        rw [hturn, hprev, log2Turn_eq hfits, squareTurns_succ]
  rw [hsame]
  exact ⟨rfl, hrun i, squareTurns_bits _ i⟩

/-! ## The logarithm -/

/-- The logarithm of `x` in units of `2 ^ -16`, as the loop finds it. -/
def fixedLog (x : Nat) : Nat := x.log2 * 2 ^ 16 + (log2Turns 16 (mantissa x, 0)).2

/-- On the way to the logarithm of `x` nothing leaves its type. -/
structure LoopFits (x : Nat) : Prop where
  exponent : x.log2 < 64
  shift : x.log2 < 32 → x <<< (32 - x.log2) < 2 ^ 64
  turns : ∀ i ≤ 16, TurnFits (log2Turns i (mantissa x, 0))
  joined : (x.log2 <<< 16) ||| (log2Turns 16 (mantissa x, 0)).2 = fixedLog x
  whole : fixedLog x ≤ 64 <<< 16

theorem fixedLog_bits (hx : x ≠ 0) : (log2Turns 16 (mantissa x, 0)).2 < 2 ^ 16 := (log2Turns_spec hx (Nat.le_refl _)).2.2

theorem loopFits (hx : x ≠ 0) (hx64 : x < 2 ^ 64) : LoopFits x := by
  have hbits := fixedLog_bits hx
  have hlog : x.log2 < 64 := (Nat.log2_lt hx).mpr hx64
  refine ⟨hlog, fun hsmall => ?_, fun i hi => ?_, ?_, ?_⟩
  · have hhigh : x < 2 ^ (x.log2 + 1) := Nat.lt_log2_self
    rw [Nat.shiftLeft_eq]
    calc x * 2 ^ (32 - x.log2) < 2 ^ (x.log2 + 1) * 2 ^ (32 - x.log2) :=
        Nat.mul_lt_mul_of_pos_right hhigh (Nat.two_pow_pos _)
      _ = 2 ^ 33 := by
        rw [← pow_add]
        congr 1
        omega
      _ ≤ 2 ^ 64 := by decide
  · obtain ⟨-, hstate, hbits⟩ := log2Turns_spec hx hi
    exact turnFits_of_bounds hstate.low hstate.high (Nat.lt_of_lt_of_le hbits (Nat.pow_le_pow_right (by decide) hi))
  · rw [fixedLog, Nat.shiftLeft_eq, Nat.mul_comm, Nat.two_pow_add_eq_or_of_lt hbits]
  · rw [fixedLog, Nat.shiftLeft_eq]
    omega

/-- The result for every hash but the greatest, which is answered without the loop. -/
theorem negLog2Q16_eq {h : UInt64} (hlt : h.toNat + 1 < 2 ^ 64) :
    negLog2Q16 h = (64 <<< 16) - (((h.toNat + 1).log2 <<< 16) ||| (log2Turns 16 (mantissa (h.toNat + 1), 0)).2) := by
  unfold negLog2Q16
  dsimp only
  rw [if_neg (Nat.ne_of_lt hlt), log2Rounds_eq]
  rfl

theorem negLog2Q16_max {h : UInt64} (hmax : h.toNat + 1 = 2 ^ 64) : negLog2Q16 h = 0 := if_pos hmax

/-- **The fixed-point logarithm is exact but for one unit of the last place.** For every hash `h`, with `c` what the result
    leaves of `64 * 2 ^ 16`: `c` is at most the logarithm of `h + 1` in units of `2 ^ -16`, and by less than two units. On
    the way the mantissa stays in `[2 ^ 32, 2 ^ 33)` through the sixteen turns, and no shift, product or subtraction leaves
    its type. -/
theorem negLog2Q16_accurate (h : UInt64) :
    (2 ^ (64 * 2 ^ 16 - negLog2Q16 h) ≤ (h.toNat + 1) ^ 2 ^ 16 ∧
      (h.toNat + 1) ^ 2 ^ 16 < 2 ^ (64 * 2 ^ 16 - negLog2Q16 h + 2)) ∧
    (h.toNat + 1 < 2 ^ 64 →
      ((h.toNat + 1).log2 < 32 → (h.toNat + 1) <<< (32 - (h.toNat + 1).log2) < 2 ^ 64) ∧
      (∀ i ≤ 16, TurnFits (log2Turns i (mantissa (h.toNat + 1), 0))) ∧
      negLog2Q16 h = (64 <<< 16) - (((h.toNat + 1).log2 <<< 16) ||| (log2Turns 16 (mantissa (h.toNat + 1), 0)).2) ∧
      ((h.toNat + 1).log2 <<< 16) ||| (log2Turns 16 (mantissa (h.toNat + 1), 0)).2 ≤ 64 <<< 16) := by
  have hle := h.toNat_lt
  by_cases hmax : h.toNat + 1 = 2 ^ 64
  · rw [negLog2Q16_max hmax, hmax, ← pow_mul, Nat.sub_zero]
    exact ⟨⟨le_refl _, Nat.pow_lt_pow_right (by decide) (Nat.lt_add_of_pos_right (by decide))⟩,
      fun hlt => absurd hlt (lt_irrefl _)⟩
  · have hx : h.toNat + 1 ≠ 0 := Nat.succ_ne_zero _
    have hx64 : h.toNat + 1 < 2 ^ 64 := by omega
    have hresult := negLog2Q16_eq hx64
    have hfits := loopFits hx hx64
    have hwhole := hfits.whole
    obtain ⟨-, hstate, -⟩ := log2Turns_spec (i := 16) hx (Nat.le_refl _)
    have hc : 64 * 2 ^ 16 - negLog2Q16 h = fixedLog (h.toNat + 1) := by
      rw [hresult, hfits.joined]
      rw [Nat.shiftLeft_eq] at hwhole ⊢
      omega
    refine ⟨?_, fun _ => ⟨hfits.shift, hfits.turns, hresult, ?_⟩⟩
    · rw [hc]
      exact hstate.bounds (by decide) (by decide)
    · rw [hfits.joined]
      exact hwhole

end Tartine.Kcore
