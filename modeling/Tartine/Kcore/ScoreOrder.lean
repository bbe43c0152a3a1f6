import Tartine.Kcore.LogAccuracy

/-!
# `Kcore.ScoreOrder` — the score follows the hash and the weight

The score is the weight over the logarithm that `neg_log2_q16` finds, sixteen bits by sixteen rounded squarings. Rounding
does not disturb the order: of two hashes with the same exponent the smaller has the smaller mantissa, and keeps it until
the greater finds a bit that the other does not (`Behind`). Between exponents the integer part decides.

* `mantissa_mono`, `fixedLog_mono` — the mantissa within an exponent, and the logarithm throughout;
* `scoreFrom_le` — the score, from the logarithm and the weight;
* `score_monotone` — both for all hashes and weights, and no value on the way leaves its type.
-/

namespace Tartine.Kcore

open Basis

variable {x y : Nat} {h h' raw raw' : UInt64} {w w' : UInt32}

/-! ## The logarithm -/

theorem log2_mono (hx : x ≠ 0) (hle : x ≤ y) : x.log2 ≤ y.log2 :=
  (Nat.le_log2 (by omega)).mpr ((Nat.log2_self_le hx).trans hle)

/-- Within an exponent the mantissas are in the order of the numbers. -/
theorem mantissa_mono (hx : x ≠ 0) (hy : y < 2 ^ 64) (hle : x ≤ y) (hlog : x.log2 = y.log2) : mantissa x ≤ mantissa y := by
  unfold mantissa
  rw [hlog]
  split
  · rw [Nat.shiftRight_eq_div_pow, Nat.shiftRight_eq_div_pow]
    exact Nat.div_le_div_right hle
  · rename_i hsmall
    have hxfit := (loopFits hx (by omega)).shift (by omega)
    have hyfit := (loopFits (by omega) hy).shift (by omega)
    rw [hlog] at hxfit
    rw [Nat.mod_eq_of_lt hxfit, Nat.mod_eq_of_lt hyfit, Nat.shiftLeft_eq, Nat.shiftLeft_eq]
    exact Nat.mul_le_mul_right _ hle

/-- **The logarithm found does not fall as the number grows.** -/
theorem fixedLog_mono (hx : x ≠ 0) (hy : y < 2 ^ 64) (hle : x ≤ y) : fixedLog x ≤ fixedLog y := by
  have hy0 : y ≠ 0 := by omega
  unfold fixedLog
  rcases Nat.lt_or_eq_of_le (log2_mono hx hle) with hlog | hlog
  · -- the fraction of the smaller does not make up for one whole unit
    have hbits := fixedLog_bits hx
    omega
  · have hstart : Behind (mantissa x, 0) (mantissa y, 0) := Or.inr ⟨rfl, mantissa_mono hx hy hle hlog⟩
    rw [(log2Turns_spec hx (Nat.le_refl 16)).1, (log2Turns_spec hy0 (Nat.le_refl 16)).1, hlog]
    exact Nat.add_le_add_left (hstart.turns 16).bits_le _

theorem negLog2Q16_le (hle : h ≤ h') : negLog2Q16 h' ≤ negLog2Q16 h := by
  have hnat : h.toNat ≤ h'.toNat := UInt64.le_iff_toNat_le.mp hle
  have hlt := h'.toNat_lt
  by_cases hmax : h'.toNat + 1 = 2 ^ 64
  · rw [negLog2Q16_max hmax]
    exact Nat.zero_le _
  · have hy : h'.toNat + 1 < 2 ^ 64 := by omega
    have hx : h.toNat + 1 < 2 ^ 64 := by omega
    rw [negLog2Q16_eq hx, negLog2Q16_eq hy, (loopFits (Nat.succ_ne_zero _) hx).joined,
      (loopFits (Nat.succ_ne_zero _) hy).joined]
    exact Nat.sub_le_sub_left (fixedLog_mono (Nat.succ_ne_zero _) hy (Nat.succ_le_succ hnat)) _

/-! ## The score -/

/-- A smaller logarithm and a greater weight make no smaller score. -/
theorem scoreFrom_le (hlog : negLog2Q16 raw' ≤ negLog2Q16 raw) (hw : w ≤ w') : scoreFrom raw w ≤ scoreFrom raw' w' := by
  have hmax : max w.toNat 1 ≤ max w'.toNat 1 := max_le_max_right 1 (UInt32.le_iff_toNat_le.mp hw)
  unfold scoreFrom
  rw [Nat.shiftLeft_eq, Nat.shiftLeft_eq]
  exact Nat.div_le_div (Nat.mul_le_mul_right _ hmax) (Nat.succ_le_succ hlog) (Nat.succ_ne_zero _)

/-- On the way to the score nothing leaves its type: the loop's values, if it runs, the denominator, which is not zero, the
    weight as it is shifted, and the quotient. -/
structure ScoreFits (raw : UInt64) (weightMilli : UInt32) : Prop where
  loop : raw.toNat + 1 < 2 ^ 64 → LoopFits (raw.toNat + 1) ∧ negLog2Q16 raw = (64 <<< 16) - fixedLog (raw.toNat + 1)
  denom_pos : 0 < negLog2Q16 raw + 1
  denom : negLog2Q16 raw + 1 < 2 ^ 64
  shifted : max weightMilli.toNat 1 <<< 64 < 2 ^ 128
  score : scoreFrom raw weightMilli < 2 ^ 128

theorem negLog2Q16_le_max (raw : UInt64) : negLog2Q16 raw ≤ 64 <<< 16 := by
  have hlt := raw.toNat_lt
  by_cases hmax : raw.toNat + 1 = 2 ^ 64
  · rw [negLog2Q16_max hmax]
    exact Nat.zero_le _
  · rw [negLog2Q16_eq (by omega)]
    exact Nat.sub_le _ _

theorem scoreFits (raw : UInt64) (w : UInt32) : ScoreFits raw w := by
  have hwlt := w.toNat_lt
  have hle := negLog2Q16_le_max raw
  rw [Nat.shiftLeft_eq] at hle
  have hshifted : max w.toNat 1 <<< 64 < 2 ^ 128 := by
    rw [Nat.shiftLeft_eq]
    omega
  refine ⟨fun hlt => ?_, Nat.succ_pos _, by omega, hshifted, ?_⟩
  · have hfits := loopFits (Nat.succ_ne_zero _) hlt
    exact ⟨hfits, by rw [negLog2Q16_eq hlt, hfits.joined]⟩
  · exact Nat.lt_of_le_of_lt (Nat.div_le_self _ _) hshifted

/-- **The score is monotone.** The logarithm does not rise with the hash, the score does not fall with the hash and the
    weight, and for no hash and weight anything on the way leaves its type or is divided by zero. -/
theorem score_monotone :
    (∀ h h' : UInt64, h ≤ h' → negLog2Q16 h' ≤ negLog2Q16 h) ∧
    (∀ (h h' : UInt64) (w w' : UInt32), h ≤ h' → w ≤ w' → scoreFrom h w ≤ scoreFrom h' w') ∧
    ∀ (h : UInt64) (w : UInt32), ScoreFits h w :=
  ⟨fun _ _ => negLog2Q16_le, fun _ _ _ _ hle hw => scoreFrom_le (negLog2Q16_le hle) hw, scoreFits⟩

/-- The theorem at two hashes with different exponents. -/
theorem score_monotone_twoHashes : negLog2Q16 2 ≤ negLog2Q16 1 ∧ scoreFrom 1 1000 ≤ scoreFrom 2 2000 ∧ ScoreFits 1 1000 := by
  obtain ⟨hlog, hscore, hfits⟩ := score_monotone
  exact ⟨hlog 1 2 (by decide), hscore 1 2 1000 2000 (by decide) (by decide), hfits 1 1000⟩

end Tartine.Kcore
