import Mathlib.Data.List.Perm.Basic
import Mathlib.Data.List.Sort

/-!
# `Basis.Ordered` — ascending lists, and positions in them

A table with ordered keys is read as an ascending list. Two things are read off it: a run of keys with a common prefix,
found by skipping the smaller ones and stopping at the first without the prefix; and a **position**, which a reader keeps
to resume at. The run is a filter, by convexity. The position is worth something only as long as nothing before it
changes:

* `takeWhile_dropWhile_eq_filter` — skipping and stopping is filtering, where both conditions follow the order;
* `Ascending.take_eq` — two ascending lists that differ in one element agree on every position up to its rank;
* `compare_append_left`, `isPrefix_of_between` — a common prefix in the lexicographic order.
-/

namespace Basis

open Std

variable {α : Type}

/-! ## An element of a list that grew at its end -/

/-- An element of a list that grew at its end is the new one, or it was there before. -/
theorem snoc_eq_append_cons {l before after : List α} {a x : α} (h : l ++ [a] = before ++ x :: after) :
    (l = before ∧ a = x ∧ after = []) ∨ ∃ after', after = after' ++ [a] ∧ l = before ++ x :: after' := by
  rcases List.eq_nil_or_concat after with rfl | ⟨after', last, rfl⟩
  · obtain ⟨hl, hlast⟩ := List.append_inj' h rfl
    exact Or.inl ⟨hl, (List.cons.inj hlast).1, rfl⟩
  · rw [List.concat_eq_append, ← List.cons_append, ← List.append_assoc] at h
    obtain ⟨hl, hlast⟩ := List.append_inj' h rfl
    obtain ⟨rfl, -⟩ := List.cons.inj hlast
    exact Or.inr ⟨after', List.concat_eq_append, hl⟩

/-! ## Prefixes of a list that a condition follows -/

/-- A condition that fails for good where it first fails: stopping there is filtering. -/
theorem takeWhile_eq_filter {l : List α} {p : α → Bool} (h : l.Pairwise fun a b => p b → p a) :
    l.takeWhile p = l.filter p := by
  induction l with
  | nil => rfl
  | cons a l ih =>
      obtain ⟨hhead, htail⟩ := List.pairwise_cons.mp h
      by_cases ha : p a
      · rw [List.takeWhile_cons_of_pos ha, List.filter_cons_of_pos ha, ih htail]
      · rw [List.takeWhile_cons_of_neg ha, List.filter_cons_of_neg ha]
        exact (List.filter_eq_nil_iff.mpr fun b hb hpb => ha (hhead b hb hpb)).symm

/-- The elements such a condition holds of come first. -/
theorem take_filter {l : List α} {p : α → Bool} {k : Nat} (h : l.Pairwise fun a b => p b → p a) (hk : k ≤ l.countP p) :
    (l.filter p).take k = l.take k := by
  have hprefix : l.filter p <+: l := takeWhile_eq_filter h ▸ List.takeWhile_prefix p
  rw [List.prefix_iff_eq_take.mp hprefix, List.take_take, ← List.countP_eq_length_filter, Nat.min_eq_left hk]

/-- **Skipping and stopping is filtering**: `q` holds of a first part of the list and excludes `p`; after it `p` fails for
    good where it first fails. -/
theorem takeWhile_dropWhile_eq_filter {l : List α} {p q : α → Bool} (hexcl : ∀ a ∈ l, q a → ¬p a)
    (hq : l.Pairwise fun a b => q b → q a) (hp : l.Pairwise fun a b => ¬q a → p b → p a) :
    (l.dropWhile q).takeWhile p = l.filter p := by
  induction l with
  | nil => rfl
  | cons a l ih =>
      by_cases ha : q a
      · rw [List.dropWhile_cons_of_pos ha, List.filter_cons_of_neg (hexcl a List.mem_cons_self ha)]
        exact ih (fun b hb => hexcl b (List.mem_cons_of_mem a hb)) hq.tail hp.tail
      · rw [List.dropWhile_cons_of_neg ha]
        have hafter : ∀ b ∈ a :: l, ¬q b := by
          intro b hb
          rcases List.mem_cons.mp hb with rfl | hb
          · exact ha
          · exact fun hqb => ha ((List.pairwise_cons.mp hq).1 b hb hqb)
        exact takeWhile_eq_filter (hp.imp_of_mem fun hb _ h => h (hafter _ hb))

/-! ## Ascending lists -/

variable {cmp : α → α → Ordering}

/-- Every element is less than those after it. -/
def Ascending (cmp : α → α → Ordering) (l : List α) : Prop := l.Pairwise fun a b => cmp a b = .lt

/-- The number of elements less than `x`: the position `x` has in the list, or would have. -/
def rank (cmp : α → α → Ordering) (x : α) (l : List α) : Nat := l.countP fun y => cmp y x == .lt

theorem ne_of_cmp_lt [ReflCmp cmp] {a b : α} (h : cmp a b = .lt) : a ≠ b := by
  rintro rfl
  cases h.symm.trans ReflCmp.compare_self

theorem Ascending.nodup [ReflCmp cmp] {l : List α} (h : Ascending cmp l) : l.Nodup := h.imp ne_of_cmp_lt

section Trans

variable [TransCmp cmp]

/-- An ascending list is determined by its elements. -/
theorem Ascending.eq_of_mem_iff {l l' : List α} (hl : Ascending cmp l) (hl' : Ascending cmp l')
    (h : ∀ x, x ∈ l ↔ x ∈ l') : l = l' := by
  have hperm : l.Perm l' := (List.perm_ext_iff_of_nodup hl.nodup hl'.nodup).mpr h
  refine hperm.eq_of_pairwise ?_ hl hl'
  intro a b _ _ hab hba
  have hswap : cmp b a = (cmp a b).swap := OrientedCmp.eq_swap
  rw [hab, hba] at hswap
  cases hswap

/-- **Positions before a change**: two ascending lists that differ in one element agree up to its rank. -/
theorem Ascending.take_eq {l l' : List α} {x : α} {k : Nat} (hl : Ascending cmp l) (hl' : Ascending cmp l')
    (h : ∀ y, y ≠ x → (y ∈ l' ↔ y ∈ l)) (hk : k ≤ rank cmp x l) : l'.take k = l.take k := by
  have hdown : ∀ {l : List α}, Ascending cmp l →
      l.Pairwise fun a b => (cmp b x == .lt) = true → (cmp a x == .lt) = true := by
    intro l hl
    refine hl.imp fun {a b} hab hb => ?_
    simp only [beq_iff_eq] at hb ⊢
    exact TransCmp.lt_trans hab hb
  have hsame : l'.filter (fun y => cmp y x == .lt) = l.filter (fun y => cmp y x == .lt) := by
    refine Ascending.eq_of_mem_iff (List.Pairwise.filter _ hl') (List.Pairwise.filter _ hl) fun y => ?_
    simp only [List.mem_filter, beq_iff_eq]
    exact and_congr_left fun hy => h y (ne_of_cmp_lt hy)
  have hk' : k ≤ rank cmp x l' := by
    unfold rank at hk ⊢
    rw [List.countP_eq_length_filter] at hk ⊢
    rwa [hsame]
  rw [← take_filter (hdown hl) hk, ← take_filter (hdown hl') hk', hsame]

end Trans

/-! ## The lexicographic order and a common prefix -/

section Lex

variable [Ord α] [LawfulEqOrd α]

theorem compare_append_left (pre a b : List α) : compare (pre ++ a) (pre ++ b) = compare a b := by
  induction pre with
  | nil => rfl
  | cons c pre ih => rw [List.cons_append, List.cons_append, List.compare_cons_cons, ReflOrd.compare_self, ih]; rfl

/-- A list with the prefix is not less than it. -/
theorem not_lt_of_isPrefix {pre a : List α} (h : pre <+: a) : compare a pre ≠ .lt := by
  obtain ⟨t, rfl⟩ := h
  have := compare_append_left pre t []
  rw [List.append_nil] at this
  rw [this]
  cases t with
  | nil => simp
  | cons c t => simp

/-- **The lists with a common prefix are a run**: one between the prefix and a list that has it has it too. -/
theorem isPrefix_of_between {pre a b : List α} (hge : compare a pre ≠ .lt) (hlt : compare a b = .lt) (hb : pre <+: b) :
    pre <+: a := by
  induction pre generalizing a b with
  | nil => exact List.nil_prefix
  | cons c pre ih =>
      obtain ⟨t, rfl⟩ := hb
      cases a with
      | nil => simp at hge
      | cons d a =>
          rw [List.cons_append, List.compare_cons_cons] at hlt
          rw [List.compare_cons_cons] at hge
          cases hd : compare d c with
          | lt => rw [hd] at hge; exact absurd rfl hge
          | gt => rw [hd] at hlt; cases hlt
          | eq =>
              rw [hd] at hge hlt
              obtain rfl := LawfulEqOrd.eq_of_compare hd
              exact List.cons_prefix_cons.mpr ⟨rfl, ih hge hlt (List.prefix_append pre t)⟩

end Lex

end Basis
