import Mathlib.Logic.Function.Iterate

/-!
# `Basis.ShiftRegister` — a register that divides by a polynomial, bit by bit

A cyclic redundancy check runs a register of `w` bits over a message: the register moves down by one bit for each bit of
the message, and the polynomial is added in if the two bits that come together, the one that drops out and the one of the
message, differ. Addition is exclusive or, so a move is linear. Hence a whole block of bits can be added to the register
first and the register moved afterwards, and the moves of the block are a table word of the bits that drop out, besides the
others moving down.

* `shift_xor`, `shifts_xor` — moves are linear;
* `feed_range` — a block of bits, fed one by one or at once;
* `shifts_table` — a block of moves, by a look at the bits that drop out.

Width, polynomial and block are arbitrary.
-/

namespace Basis

variable {w : Nat} {p c d m : BitVec w} {k : Nat}

/-! ## Moves -/

/-- One move: the polynomial is added for a bit that drops out. -/
def shift (p c : BitVec w) : BitVec w := if c.getLsbD 0 then p ^^^ (c >>> 1) else c >>> 1

/-- What the polynomial adds for a bit. -/
def taken (p : BitVec w) (bit : Bool) : BitVec w := if bit then p else 0#w

theorem taken_xor (p : BitVec w) (a b : Bool) : taken p (a ^^ b) = taken p a ^^^ taken p b := by
  unfold taken
  cases a with
  | false => cases b <;> simp
  | true => cases b <;> simp

theorem shift_eq (p c : BitVec w) : shift p c = taken p (c.getLsbD 0) ^^^ (c >>> 1) := by
  unfold shift taken
  split
  · rfl
  · rw [BitVec.zero_xor]

/-- **A move is linear.** -/
theorem shift_xor (p c d : BitVec w) : shift p (c ^^^ d) = shift p c ^^^ shift p d := by
  rw [shift_eq, shift_eq, shift_eq, BitVec.getLsbD_xor, taken_xor, BitVec.ushiftRight_xor_distrib]
  ac_rfl

/-- `k` moves. -/
def shifts (p : BitVec w) (k : Nat) (c : BitVec w) : BitVec w := (shift p)^[k] c

theorem shifts_succ (p : BitVec w) (k : Nat) (c : BitVec w) : shifts p (k + 1) c = shifts p k (shift p c) := rfl

theorem shifts_xor (p : BitVec w) (k : Nat) (c d : BitVec w) : shifts p k (c ^^^ d) = shifts p k c ^^^ shifts p k d := by
  induction k generalizing c d with
  | zero => rfl
  | succ k ih => rw [shifts_succ, shift_xor, ih, ← shifts_succ, ← shifts_succ]

/-- Bits that do not drop out only move down. -/
theorem shifts_of_clear (h : ∀ i < k, d.getLsbD i = false) : shifts p k d = d >>> k := by
  induction k generalizing d with
  | zero => exact (BitVec.ushiftRight_zero d).symm
  | succ k ih =>
      have hmove : shift p d = d >>> 1 := by
        unfold shift
        rw [h 0 (Nat.succ_pos k)]
        rfl
      rw [shifts_succ, hmove, ih, ← BitVec.shiftRight_add, Nat.add_comm 1 k]
      intro i hi
      rw [BitVec.getLsbD_ushiftRight]
      exact h (1 + i) (by omega)

/-! ## Blocks -/

/-- **Block of moves.** With `m` the mask of the `k` lowest bits: what they bring in is a word that depends on them alone,
    and the others move down. -/
theorem shifts_table (hm : ∀ i, m.getLsbD i = (decide (i < k) && decide (i < w))) (p c : BitVec w) :
    shifts p k c = shifts p k (c &&& m) ^^^ (c >>> k) := by
  have hsplit : c = (c &&& m) ^^^ (c &&& ~~~m) := by
    refine BitVec.eq_of_getLsbD_eq fun i hi => ?_
    rw [BitVec.getLsbD_xor, BitVec.getLsbD_and, BitVec.getLsbD_and, BitVec.getLsbD_not, decide_eq_true hi]
    cases c.getLsbD i with
    | false => rfl
    | true => cases m.getLsbD i <;> rfl
  have hclear : ∀ i < k, (c &&& ~~~m).getLsbD i = false := by
    intro i hi
    rw [BitVec.getLsbD_and, BitVec.getLsbD_not, hm i, decide_eq_true hi]
    cases decide (i < w) with
    | false => simp
    | true => simp
  have hhigh : (c &&& ~~~m) >>> k = c >>> k := by
    refine BitVec.eq_of_getLsbD_eq fun i hi => ?_
    rw [BitVec.getLsbD_ushiftRight, BitVec.getLsbD_ushiftRight, BitVec.getLsbD_and, BitVec.getLsbD_not, hm (k + i),
      decide_eq_false (by omega : ¬k + i < k)]
    by_cases hout : k + i < w
    · simp [hout]
    · rw [BitVec.getLsbD_of_ge c (k + i) (by omega)]
      rfl
  calc shifts p k c = shifts p k ((c &&& m) ^^^ (c &&& ~~~m)) := by rw [← hsplit]
    _ = shifts p k (c &&& m) ^^^ (c >>> k) := by rw [shifts_xor, shifts_of_clear hclear, hhigh]

/-- One bit of the message. -/
def feed (p c : BitVec w) (bit : Bool) : BitVec w := taken p (c.getLsbD 0 ^^ bit) ^^^ (c >>> 1)

/-- **Block of bits.** The `k` lowest bits of `d`, fed from the lowest up, are added at once and moved through; what is left
    of `d` was added along with them and is taken out again. -/
theorem feed_range (p c d : BitVec w) (k : Nat) :
    ((List.range k).map d.getLsbD).foldl (feed p) c = shifts p k (c ^^^ d) ^^^ (d >>> k) := by
  induction k generalizing c d with
  | zero =>
      show c = c ^^^ d ^^^ d >>> 0
      rw [BitVec.ushiftRight_zero, BitVec.xor_assoc, BitVec.xor_self, BitVec.xor_zero]
  | succ k ih =>
      have hrest : (List.range k).map (d.getLsbD ∘ Nat.succ) = (List.range k).map (d >>> 1).getLsbD := by
        refine List.map_congr_left fun i _ => ?_
        rw [BitVec.getLsbD_ushiftRight, Nat.add_comm]
        rfl
      have hfirst : feed p c (d.getLsbD 0) ^^^ (d >>> 1) = shift p (c ^^^ d) := by
        rw [shift_eq, BitVec.getLsbD_xor, BitVec.ushiftRight_xor_distrib, ← BitVec.xor_assoc]
        rfl
      rw [List.range_succ_eq_map, List.map_cons, List.foldl_cons, List.map_map, hrest, ih, hfirst, ← shifts_succ,
        ← BitVec.shiftRight_add, Nat.add_comm 1 k]

end Basis
