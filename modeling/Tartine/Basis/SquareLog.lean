import Mathlib.Algebra.Order.Ring.Nat
import Mathlib.Tactic.Linarith
import Mathlib.Tactic.Ring

/-!
# `Basis.SquareLog` — the binary logarithm by squaring, in fixed point

A number `x` with `2 ^ e ≤ x < 2 ^ (e + 1)` has a mantissa in `[1, 2)`, kept as a multiple of `1 / N` and rounded down.
Squaring it doubles the logarithm: if the square is at least 2 the next bit of the logarithm is one, and the square is
halved. Every round rounds down again.

The rounded mantissa never exceeds the exact one, and the exact one exceeds it by a factor of at most `(1 + 1 / N) ^ k`,
where `k` doubles and grows by one in every round. As long as that factor is less than 2, the bits are those of the
logarithm, short by at most one unit of the last place.

* `LogState.step` — what a round keeps;
* `LogState.bounds` — the bits and the number, after any number of rounds;
* `Behind.turns` — rounds keep the order of two states, whatever they round away: the bits decide first.
-/

namespace Basis

/-- One round, on the mantissa and the bits so far. -/
def squareTurn (N : Nat) (s : Nat × Nat) : Nat × Nat :=
  if 2 * N * N ≤ s.1 * s.1 then (s.1 * s.1 / (2 * N), 2 * s.2 + 1) else (s.1 * s.1 / N, 2 * s.2)

/-- After rounds that raise `x` to `y`, with `e` the exponent's share of the logarithm of `y`: the mantissa is in `[N, 2N)`,
    not above the exact one, and below it by at most `k` roundings. -/
structure LogState (N y e k : Nat) (s : Nat × Nat) : Prop where
  low : N ≤ s.1
  high : s.1 < 2 * N
  below : s.1 * 2 ^ (e + s.2) ≤ y * N
  above : y * N * N ^ k ≤ s.1 * (N + 1) ^ k * 2 ^ (e + s.2)

variable {N x y e k : Nat} {s : Nat × Nat}

/-- Rounding down to a multiple of `1 / N` loses a factor of at most `1 + 1 / N`. -/
theorem mul_le_of_div {a b : Nat} (hb : 0 < b) (h : N ≤ a / b) : a * N ≤ a / b * (N + 1) * b := by
  have hlt : a < b * (a / b + 1) := Nat.lt_mul_div_succ a hb
  calc a * N ≤ b * (a / b + 1) * N := Nat.mul_le_mul_right N hlt.le
    _ = (a / b * N + N) * b := by ring
    _ ≤ (a / b * N + a / b) * b := Nat.mul_le_mul_right b (Nat.add_le_add_left h _)
    _ = a / b * (N + 1) * b := by ring

/-! ## One round -/

/-- A round that finds the bit `b`: the square, halved `b` times and rounded down. -/
theorem LogState.square (hN : 0 < N) (h : LogState N y e k s) (b : Nat) (hlow : N ≤ s.1 * s.1 / (N * 2 ^ b))
    (hhigh : s.1 * s.1 / (N * 2 ^ b) < 2 * N) :
    LogState N (y ^ 2) (2 * e) (2 * k + 1) (s.1 * s.1 / (N * 2 ^ b), 2 * s.2 + b) := by
  have hD : 0 < N * 2 ^ b := Nat.mul_pos hN (Nat.two_pow_pos b)
  have hexp : 2 ^ (2 * e + (2 * s.2 + b)) = 2 ^ (e + s.2) * 2 ^ (e + s.2) * 2 ^ b := by
    rw [← pow_add, ← pow_add]
    congr 1
    ring
  refine ⟨hlow, hhigh, ?_, ?_⟩
  · refine Nat.le_of_mul_le_mul_right (c := N) ?_ hN
    calc s.1 * s.1 / (N * 2 ^ b) * 2 ^ (2 * e + (2 * s.2 + b)) * N
        = s.1 * s.1 / (N * 2 ^ b) * (N * 2 ^ b) * (2 ^ (e + s.2) * 2 ^ (e + s.2)) := by rw [hexp]; ring
      _ ≤ s.1 * s.1 * (2 ^ (e + s.2) * 2 ^ (e + s.2)) := Nat.mul_le_mul_right _ (Nat.div_mul_le_self _ _)
      _ = s.1 * 2 ^ (e + s.2) * (s.1 * 2 ^ (e + s.2)) := by ring
      _ ≤ y * N * (y * N) := Nat.mul_le_mul h.below h.below
      _ = y ^ 2 * N * N := by ring
  · -- the exact square is over by twice the old factor, and the rounding of this round adds one
    have hround := mul_le_of_div hD hlow
    refine Nat.le_of_mul_le_mul_right (c := N) ?_ hN
    calc y ^ 2 * N * N ^ (2 * k + 1) * N = y * N * N ^ k * (y * N * N ^ k) * N := by ring
      _ ≤ s.1 * (N + 1) ^ k * 2 ^ (e + s.2) * (s.1 * (N + 1) ^ k * 2 ^ (e + s.2)) * N :=
        Nat.mul_le_mul_right N (Nat.mul_le_mul h.above h.above)
      _ = s.1 * s.1 * N * ((N + 1) ^ (2 * k) * (2 ^ (e + s.2) * 2 ^ (e + s.2))) := by ring
      _ ≤ s.1 * s.1 / (N * 2 ^ b) * (N + 1) * (N * 2 ^ b) *
          ((N + 1) ^ (2 * k) * (2 ^ (e + s.2) * 2 ^ (e + s.2))) := Nat.mul_le_mul_right _ hround
      _ = s.1 * s.1 / (N * 2 ^ b) * (N + 1) ^ (2 * k + 1) * 2 ^ (2 * e + (2 * s.2 + b)) * N := by rw [hexp]; ring

/-- **A round doubles the logarithm.** -/
theorem LogState.step (hN : 0 < N) (h : LogState N y e k s) :
    LogState N (y ^ 2) (2 * e) (2 * k + 1) (squareTurn N s) := by
  have hlow := h.low
  have hhigh := h.high
  unfold squareTurn
  split
  · rename_i hbit
    have hD : 2 * N = N * 2 ^ 1 := by ring
    rw [hD]
    refine h.square hN 1 ?_ ?_
    · rw [Nat.le_div_iff_mul_le (by omega)]
      linarith
    · rw [Nat.div_lt_iff_lt_mul (by omega)]
      nlinarith
  · rename_i hbit
    have hD : N = N * 2 ^ 0 := by ring
    have hsq := h.square hN 0 (by
      rw [← hD, Nat.le_div_iff_mul_le hN]
      exact Nat.mul_le_mul hlow hlow) (by
      rw [← hD, Nat.div_lt_iff_lt_mul hN]
      omega)
    rwa [← hD] at hsq

/-! ## All rounds -/

/-- The state after `i` rounds. -/
def squareTurns (N i : Nat) (s : Nat × Nat) : Nat × Nat := (squareTurn N)^[i] s

theorem squareTurns_succ (N i : Nat) (s : Nat × Nat) : squareTurns N (i + 1) s = squareTurn N (squareTurns N i s) :=
  Function.iterate_succ_apply' _ _ _

/-- **Run lemma.** From the mantissa of `x`, rounded down once. -/
theorem LogState.run (hN : 0 < N) (h : LogState N x e 1 s) (i : Nat) :
    LogState N (x ^ 2 ^ i) (e * 2 ^ i) (2 ^ (i + 1) - 1) (squareTurns N i s) := by
  induction i with
  | zero => simpa [squareTurns] using h
  | succ i ih =>
      have hnext := ih.step hN
      rw [← squareTurns_succ] at hnext
      have hk : 2 * (2 ^ (i + 1) - 1) + 1 = 2 ^ (i + 1 + 1) - 1 := by
        have := Nat.two_pow_pos (i + 1)
        rw [pow_succ 2 (i + 1)]
        omega
      rw [← pow_mul, ← pow_succ, hk] at hnext
      rwa [show 2 * (e * 2 ^ i) = e * 2 ^ (i + 1) by ring] at hnext

/-- The bits are as many as the rounds. -/
theorem squareTurns_bits (N : Nat) {m : Nat} (i : Nat) : (squareTurns N i (m, 0)).2 < 2 ^ i := by
  induction i with
  | zero => exact Nat.one_pos
  | succ i ih =>
      rw [squareTurns_succ, pow_succ]
      unfold squareTurn
      split
      · show 2 * _ + 1 < _
        omega
      · show 2 * _ < _
        omega

/-- The roundings together stay below a factor of two, as long as they are few. -/
theorem succ_pow_le (hk : 2 * k ≤ N) (hN : 0 < N) : (N + 1) ^ k ≤ 2 * N ^ k := by
  have hmain : ∀ j, j ≤ k → (N + 1) ^ j * (N - j) ≤ N ^ j * N := by
    intro j
    induction j with
    | zero => simp
    | succ j ih =>
        intro hj
        have hprev := ih (by omega)
        obtain ⟨r, hr⟩ : ∃ r, N = r + (j + 1) := ⟨N - (j + 1), by omega⟩
        have hle : (N + 1) * (N - (j + 1)) ≤ N * (N - j) := by
          have h1 : N - (j + 1) = r := by omega
          have h2 : N - j = r + 1 := by omega
          rw [h1, h2]
          nlinarith
        calc (N + 1) ^ (j + 1) * (N - (j + 1)) = (N + 1) ^ j * ((N + 1) * (N - (j + 1))) := by ring
          _ ≤ (N + 1) ^ j * (N * (N - j)) := Nat.mul_le_mul_left _ hle
          _ = (N + 1) ^ j * (N - j) * N := by ring
          _ ≤ N ^ j * N * N := Nat.mul_le_mul_right N hprev
          _ = N ^ (j + 1) * N := by ring
  have hk' := hmain k (Nat.le_refl k)
  have hhalf : N ≤ 2 * (N - k) := by omega
  refine Nat.le_of_mul_le_mul_right (c := N) ?_ hN
  calc (N + 1) ^ k * N ≤ (N + 1) ^ k * (2 * (N - k)) := Nat.mul_le_mul_left _ hhalf
    _ = 2 * ((N + 1) ^ k * (N - k)) := by ring
    _ ≤ 2 * (N ^ k * N) := Nat.mul_le_mul_left 2 hk'
    _ = 2 * N ^ k * N := by ring

/-- **The bits found are the logarithm's, short by at most one unit of the last place.** -/
theorem LogState.bounds (hN : 0 < N) (hk : 2 * k ≤ N) (h : LogState N y e k s) :
    2 ^ (e + s.2) ≤ y ∧ y < 2 ^ (e + s.2 + 2) := by
  constructor
  · refine Nat.le_of_mul_le_mul_left (c := N) ?_ hN
    calc N * 2 ^ (e + s.2) ≤ s.1 * 2 ^ (e + s.2) := Nat.mul_le_mul_right _ h.low
      _ ≤ y * N := h.below
      _ = N * y := Nat.mul_comm y N
  · have hpos : 0 < N * N ^ k := Nat.mul_pos hN (Nat.pow_pos hN)
    refine Nat.lt_of_mul_lt_mul_right (a := N * N ^ k) ?_
    calc y * (N * N ^ k) = y * N * N ^ k := by ring
      _ ≤ s.1 * (N + 1) ^ k * 2 ^ (e + s.2) := h.above
      _ < 2 * N * (N + 1) ^ k * 2 ^ (e + s.2) := by
        have hfac : 0 < (N + 1) ^ k * 2 ^ (e + s.2) := Nat.mul_pos (Nat.pow_pos (Nat.succ_pos N)) (Nat.two_pow_pos _)
        rw [Nat.mul_assoc, Nat.mul_assoc (2 * N)]
        exact Nat.mul_lt_mul_of_pos_right h.high hfac
      _ ≤ 2 * N * (2 * N ^ k) * 2 ^ (e + s.2) := Nat.mul_le_mul_right _ (Nat.mul_le_mul_left _ (succ_pow_le hk hN))
      _ = 2 ^ (e + s.2 + 2) * (N * N ^ k) := by ring

/-! ## Two runs side by side -/

/-- The bits of the one are the smaller, or they are the same and its mantissa is not the greater. -/
def Behind (s t : Nat × Nat) : Prop := s.2 < t.2 ∨ (s.2 = t.2 ∧ s.1 ≤ t.1)

variable {t : Nat × Nat}

theorem Behind.bits_le (h : Behind s t) : s.2 ≤ t.2 := by
  rcases h with h | ⟨h, -⟩
  · exact h.le
  · exact h.le

/-- **A round keeps the order.** Bits that differ stay apart; from the same bits the smaller mantissa has the smaller
    square, which finds no greater bit, and with the same bit it is divided by the same number. -/
theorem Behind.turn (h : Behind s t) : Behind (squareTurn N s) (squareTurn N t) := by
  unfold squareTurn
  rcases h with hbits | ⟨hbits, hmantissa⟩
  · left
    split
    · split
      · show 2 * s.2 + 1 < 2 * t.2 + 1
        omega
      · show 2 * s.2 + 1 < 2 * t.2
        omega
    · split
      · show 2 * s.2 < 2 * t.2 + 1
        omega
      · show 2 * s.2 < 2 * t.2
        omega
  · have hsq : s.1 * s.1 ≤ t.1 * t.1 := Nat.mul_le_mul hmantissa hmantissa
    rw [hbits]
    split
    · rename_i hbit
      rw [if_pos (hbit.trans hsq)]
      exact Or.inr ⟨rfl, Nat.div_le_div_right hsq⟩
    · split
      · exact Or.inl (Nat.lt_succ_self _)
      · exact Or.inr ⟨rfl, Nat.div_le_div_right hsq⟩

/-- **Run lemma.** -/
theorem Behind.turns (h : Behind s t) (i : Nat) : Behind (squareTurns N i s) (squareTurns N i t) := by
  induction i with
  | zero => exact h
  | succ i ih =>
      rw [squareTurns_succ, squareTurns_succ]
      exact ih.turn

end Basis
