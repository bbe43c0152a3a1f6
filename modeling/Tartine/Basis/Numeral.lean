import Mathlib.Data.List.Induction

/-!
# `Basis.Numeral` — numbers as digits, read and written

A numeral in a radix is a non-empty sequence of digits, and denotes a number by position. `fromStrRadix` is how a standard
library reads one into a bounded integer, digit by digit with a check at each; it also lets one plus sign stand before the
digits. `Nat.toDigits` is how one is written.

* `fromStrRadix_eq_some` — what is read, and as which number;
* `numeral_toDigits` — what is written is a numeral of the number.
-/

namespace Basis

/-! ## Digits -/

/-- `char::to_digit`: letters of either case stand for ten and more. -/
def toDigit (radix : Nat) (c : Char) : Option Nat :=
  let d :=
    if '0' ≤ c ∧ c ≤ '9' then c.toNat - 48
    else if 'a' ≤ c ∧ c ≤ 'z' then c.toNat - 97 + 10
    else if 'A' ≤ c ∧ c ≤ 'Z' then c.toNat - 65 + 10
    else radix
  if d < radix then some d else none

/-- A non-empty sequence of digits, and the number it denotes. -/
inductive Numeral (radix : Nat) : List Char → Nat → Prop where
  | digit {c : Char} {d : Nat} (hd : toDigit radix c = some d) : Numeral radix [c] d
  | snoc {s : List Char} {n : Nat} {c : Char} {d : Nat} (hs : Numeral radix s n) (hd : toDigit radix c = some d) : Numeral radix (s ++ [c]) (n * radix + d)

variable {radix max n acc d : Nat} {c : Char} {s : List Char}

theorem Numeral.ne_nil (h : Numeral radix s n) : s ≠ [] := by
  cases h with
  | digit hd => simp
  | snoc hs hd => simp

/-- Every character of a numeral is a digit. -/
theorem Numeral.isDigit (h : Numeral radix s n) : ∀ c ∈ s, (toDigit radix c).isSome := by
  induction h with
  | digit hd =>
      intro c hc
      rw [List.mem_singleton.mp hc, hd]
      rfl
  | snoc hs hd ih =>
      intro c hc
      rcases List.mem_append.mp hc with hc | hc
      · exact ih c hc
      · rw [List.mem_singleton.mp hc, hd]
        rfl

theorem Numeral.not_mem (h : Numeral radix s n) (hc : toDigit radix c = none) : c ∉ s := by
  intro hmem
  have := h.isDigit c hmem
  rw [hc] at this
  cases this

/-- A zero in front changes nothing. -/
theorem Numeral.zero_cons (hr : toDigit radix '0' = some 0) (h : Numeral radix s n) : Numeral radix ('0' :: s) n := by
  induction h with
  | digit hd =>
      have := Numeral.snoc (.digit hr) hd
      rwa [Nat.zero_mul, Nat.zero_add] at this
  | snoc hs hd ih => exact .snoc ih hd

theorem Numeral.zeros_append (hr : toDigit radix '0' = some 0) (h : Numeral radix s n) (k : Nat) :
    Numeral radix (List.replicate k '0' ++ s) n := by
  induction k with
  | zero => exact h
  | succ k ih => exact ih.zero_cons hr

/-! ## Reading -/

/-- The digits of a number, folded into it; a number above `max` is an overflow. -/
def readDigits (radix max : Nat) : Nat → List Char → Option Nat
  | acc, []      => some acc
  | acc, c :: cs =>
      match toDigit radix c with
      | none   => none
      | some d => if max < acc * radix + d then none else readDigits radix max (acc * radix + d) cs

/-- `from_str_radix` of an unsigned type: one plus sign is skipped; an empty text or a sign alone is an error. -/
def fromStrRadix (radix max : Nat) (src : List Char) : Option Nat :=
  match src with
  | []          => none
  | ['+']       => none
  | ['-']       => none
  | '+' :: rest => readDigits radix max 0 rest
  | src         => readDigits radix max 0 src

theorem readDigits_append (acc : Nat) (s t : List Char) :
    readDigits radix max acc (s ++ t) = (readDigits radix max acc s).bind fun m => readDigits radix max m t := by
  induction s generalizing acc with
  | nil => rfl
  | cons c s ih =>
      rw [List.cons_append, readDigits, readDigits]
      cases toDigit radix c with
      | none => rfl
      | some d =>
          dsimp only
          split
          · rfl
          · exact ih _

theorem readDigits_single : readDigits radix max acc [c] = some n ↔
    ∃ d, toDigit radix c = some d ∧ n = acc * radix + d ∧ n ≤ max := by
  unfold readDigits readDigits
  cases toDigit radix c with
  | none => simp
  | some d =>
      dsimp only
      split
      · rename_i hover
        simp only [reduceCtorEq, Option.some.injEq, false_iff, not_exists, not_and]
        rintro d' rfl rfl hle
        exact absurd hover (Nat.not_lt.mpr hle)
      · rename_i hfit
        simp only [Option.some.injEq]
        constructor
        · rintro rfl
          exact ⟨d, rfl, rfl, Nat.not_lt.mp hfit⟩
        · rintro ⟨d', rfl, rfl, -⟩
          rfl

/-- **Digits are read as the number they denote**, up to the bound: on the way to it the number only grows. -/
theorem readDigits_eq_some (hradix : 0 < radix) (hs : s ≠ []) :
    readDigits radix max 0 s = some n ↔ Numeral radix s n ∧ n ≤ max := by
  induction s using List.reverseRecOn generalizing n with
  | nil => exact absurd rfl hs
  | append_singleton s c ih =>
      rw [readDigits_append]
      rcases s.eq_nil_or_concat with rfl | ⟨init, last, hconcat⟩
      · rw [show readDigits radix max 0 [] = some 0 from rfl, Option.bind_some, readDigits_single, Nat.zero_mul]
        constructor
        · rintro ⟨d, hd, rfl, hle⟩
          rw [Nat.zero_add] at hle ⊢
          exact ⟨.digit hd, hle⟩
        · rintro ⟨hnum, hle⟩
          generalize hlist : [] ++ [c] = l at hnum
          cases hnum with
          | digit hd =>
              obtain ⟨rfl, -⟩ := List.cons.inj hlist
              exact ⟨n, hd, (Nat.zero_add n).symm, hle⟩
          | snoc hs' hd => exact absurd (List.append_inj' hlist rfl).1.symm hs'.ne_nil
      · have hne : s ≠ [] := by simp [hconcat]
        constructor
        · intro h
          obtain ⟨m, hm, h⟩ := Option.bind_eq_some_iff.mp h
          obtain ⟨d, hd, rfl, hle⟩ := readDigits_single.mp h
          exact ⟨.snoc ((ih hne).mp hm).1 hd, hle⟩
        · rintro ⟨hnum, hle⟩
          generalize hlist : s ++ [c] = l at hnum
          cases hnum with
          | @digit c' d hd =>
              have hsplit : s ++ [c] = [] ++ [c'] := hlist
              exact absurd (List.append_inj' hsplit rfl).1 hne
          | @snoc s' m c' d hs' hd =>
              obtain ⟨rfl, hlast⟩ := List.append_inj' hlist rfl
              obtain ⟨rfl, -⟩ := List.cons.inj hlast
              have hm : m ≤ max := by
                calc m = m * 1 := (Nat.mul_one m).symm
                  _ ≤ m * radix := Nat.mul_le_mul_left m hradix
                  _ ≤ max := Nat.le_trans (Nat.le_add_right _ _) hle
              rw [(ih hne).mpr ⟨hs', hm⟩, Option.bind_some]
              exact readDigits_single.mpr ⟨d, hd, rfl, hle⟩

/-- A numeral, with or without a plus sign in front. -/
def SignedNumeral (radix : Nat) (s : List Char) (n : Nat) : Prop :=
  Numeral radix s n ∨ ∃ rest, s = '+' :: rest ∧ Numeral radix rest n

/-- **What the standard library reads**: a numeral of a number in range, with or without a plus sign. -/
theorem fromStrRadix_eq_some (hradix : 0 < radix) (hplus : toDigit radix '+' = none) (hminus : toDigit radix '-' = none) :
    fromStrRadix radix max s = some n ↔ SignedNumeral radix s n ∧ n ≤ max := by
  have hsigned : ∀ {rest m}, rest ≠ [] → (SignedNumeral radix ('+' :: rest) m ↔ Numeral radix rest m) := by
    intro rest m _
    constructor
    · rintro (hnum | ⟨rest', heq, hnum⟩)
      · exact absurd List.mem_cons_self (hnum.not_mem hplus)
      · obtain ⟨-, rfl⟩ := List.cons.inj heq
        exact hnum
    · exact fun hnum => Or.inr ⟨rest, rfl, hnum⟩
  unfold fromStrRadix
  split
  · simp only [reduceCtorEq, false_iff, not_and]
    rintro (hnum | ⟨rest, heq, -⟩)
    · exact absurd rfl hnum.ne_nil
    · cases heq
  · simp only [reduceCtorEq, false_iff, not_and]
    rintro (hnum | ⟨rest, heq, hnum⟩)
    · exact absurd List.mem_cons_self (hnum.not_mem hplus)
    · obtain ⟨-, rfl⟩ := List.cons.inj heq
      exact absurd rfl hnum.ne_nil
  · simp only [reduceCtorEq, false_iff, not_and]
    rintro (hnum | ⟨rest, heq, -⟩)
    · exact absurd List.mem_cons_self (hnum.not_mem hminus)
    · cases heq
  · rename_i rest hne
    have hrest : rest ≠ [] := by
      rintro rfl
      exact hne rfl
    rw [readDigits_eq_some hradix hrest, hsigned hrest]
  · rename_i hempty _ _ hplain
    rw [readDigits_eq_some hradix hempty]
    refine and_congr_left fun _ => ⟨Or.inl, ?_⟩
    rintro (hnum | ⟨rest, heq, -⟩)
    · exact hnum
    · exact absurd heq (hplain rest)

/-! ## Writing -/

/-- A digit is read as the number it was written for. -/
theorem toDigit_digitChar (hd : d < radix) (hradix : radix ≤ 16) : toDigit radix d.digitChar = some d := by
  have hsmall : ∀ r < 17, ∀ k < r, toDigit r k.digitChar = some k := by decide
  exact hsmall radix (Nat.lt_succ_of_le hradix) d hd

/-- **A number is written as a numeral of it.** -/
theorem numeral_toDigits (hradix : 1 < radix) (hle : radix ≤ 16) (n : Nat) : Numeral radix (Nat.toDigits radix n) n := by
  induction n using Nat.strongRecOn with
  | _ n ih =>
      by_cases hn : n < radix
      · rw [Nat.toDigits_of_lt_base hn]
        exact .digit (toDigit_digitChar hn hle)
      · have hdiv : n / radix < n := Nat.div_lt_self (by omega) hradix
        rw [Nat.toDigits_of_base_le hradix (by omega)]
        have hsnoc := Numeral.snoc (ih _ hdiv) (toDigit_digitChar (Nat.mod_lt n (by omega)) hle)
        rwa [Nat.mul_comm, Nat.div_add_mod] at hsnoc

end Basis
