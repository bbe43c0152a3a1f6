import Mathlib.Data.Finset.Card
import Mathlib.Data.List.ReduceOption
import Tartine.Basis.Greedy

/-!
# `Basis.TopSet` — the best `k` elements, and one key that rises

Taking the best remaining element `k` times leaves a set that can be described without the order of the turns: at most
`k` elements, all of them if there are no more, and none outside is better than one inside. Where keys are distinct the
set is determined by that, which is what comparing two rankings takes.

* `Greedy.topSet` — requests that accept everything are served with such a set;
* `TopSet.unique` — there is one;
* `TopSet.raise` — when one key rises, its element may come in, for at most one other.
-/

namespace Basis

variable {α β : Type} [LinearOrder β] {key key' : α → β} {S : Set α} {k : Nat} {T T' : Finset α}

/-- `T` is made of the `k` elements of `S` with the greatest keys, or of all if there are fewer. -/
structure TopSet (key : α → β) (S : Set α) (k : Nat) (T : Finset α) : Prop where
  mem : ∀ a ∈ T, a ∈ S
  card_le : T.card ≤ k
  full : T.card < k → ∀ a ∈ S, a ∈ T
  above : ∀ a ∈ T, ∀ b ∈ S, b ∉ T → key b ≤ key a

/-- An element of the pool that is not in the set leaves no room in it. -/
theorem TopSet.card_eq (h : TopSet key S k T) {a : α} (ha : a ∈ S) (haT : a ∉ T) : T.card = k :=
  le_antisymm h.card_le (not_lt.mp fun hlt => haT (h.full hlt a ha))

/-! ## What unconstrained requests are served with -/

variable [DecidableEq α]

/-- The elements handed out are as many as the requests served. -/
theorem card_reduceOption {os : List (Option α)}
    (hinj : ∀ {i j : Nat} {a : α}, os[i]? = some (some a) → os[j]? = some (some a) → i = j) :
    os.reduceOption.toFinset.card = os.reduceOption.length := by
  refine List.toFinset_card_of_nodup ?_
  induction os with
  | nil => exact List.nodup_nil
  | cons o os ih =>
      have hrest : os.reduceOption.Nodup := by
        refine ih fun {i j a} hi hj => ?_
        exact Nat.succ_injective (hinj (i := i + 1) (j := j + 1) hi hj)
      cases o with
      | none => rwa [List.reduceOption_cons_of_none]
      | some a =>
          rw [List.reduceOption_cons_of_some]
          refine List.nodup_cons.mpr ⟨fun hmem => ?_, hrest⟩
          obtain ⟨j, hj⟩ := List.mem_iff_getElem?.mp (List.reduceOption_mem_iff.mp hmem)
          exact absurd (hinj (i := 0) (j := j + 1) (a := a) rfl hj) (by omega)

/-- **Requests that accept everything are served with the best elements.** -/
theorem Greedy.topSet {os : List (Option α)} (h : Greedy key S ∅ (List.replicate k fun _ => True) os) :
    TopSet key S k os.reduceOption.toFinset := by
  have hmem : ∀ a, a ∈ os.reduceOption.toFinset ↔ some a ∈ os := by
    intro a
    rw [List.mem_toFinset, List.reduceOption_mem_iff]
  have hlen : os.length = k := by rw [h.length_eq, List.length_replicate]
  have htaken : ∀ {i : Nat} {a : α}, a ∈ takings ∅ (os.take i) → some a ∈ os := by
    rintro i a (hemp | htake)
    · exact absurd hemp (Set.notMem_empty a)
    · exact List.mem_of_mem_take htake
  have hpick : ∀ {i : Nat} {o : Option α}, os[i]? = some o →
      Picks key S (takings ∅ (os.take i)) (fun _ => True) o := by
    intro i o ho
    have hi := (List.getElem?_eq_some_iff.mp ho).1
    exact h.picks_getElem? (by rw [List.getElem?_replicate, if_pos (by omega)]) ho
  refine ⟨?_, ?_, ?_, ?_⟩
  · intro a ha
    obtain ⟨i, hi⟩ := List.mem_iff_getElem?.mp ((hmem a).mp ha)
    exact (hpick hi).1
  · rw [card_reduceOption h.getElem?_inj, ← hlen]
    exact List.reduceOption_length_le os
  · -- some request got nothing: by then everything was taken
    intro hlt a ha
    rw [card_reduceOption h.getElem?_inj, ← hlen] at hlt
    have hnone : none ∈ os := by
      by_contra hno
      refine absurd hlt (Nat.not_lt.mpr (le_of_eq ?_))
      rw [eq_comm, List.reduceOption_length_eq_iff]
      intro o ho
      cases o with
      | none => exact absurd ho hno
      | some a => rfl
    obtain ⟨i, hi⟩ := List.mem_iff_getElem?.mp hnone
    exact (hmem a).mpr (htaken (hpick hi a ha trivial))
  · intro a ha b hb hbT
    obtain ⟨i, hi⟩ := List.mem_iff_getElem?.mp ((hmem a).mp ha)
    obtain ⟨-, -, -, hmax⟩ := hpick hi
    exact hmax b hb trivial (fun htake => hbT ((hmem b).mpr (htaken htake)))

/-! ## Two sets of best elements -/

/-- **Distinct keys leave one set of best elements.** -/
theorem TopSet.unique (hinj : Set.InjOn key S) (h : TopSet key S k T) (h' : TopSet key S k T') : T' = T := by
  have hsub : T ⊆ T' := by
    intro a ha
    by_contra haT'
    have hk := h'.card_eq (h.mem a ha) haT'
    -- then `T'` has an element that `T` has not, and each of the two is at least as good as the other
    have hnot : ¬T' ⊆ T := by
      intro hsub
      have heq := Finset.eq_of_subset_of_card_le hsub (by rw [hk]; exact h.card_le)
      exact haT' (heq ▸ ha)
    obtain ⟨b, hb, hbT⟩ := Finset.not_subset.mp hnot
    have hab := le_antisymm (h'.above b hb a (h.mem a ha) haT') (h.above a ha b (h'.mem b hb) hbT)
    exact haT' (hinj (h.mem a ha) (h'.mem b hb) hab ▸ hb)
  refine (Finset.eq_of_subset_of_card_le hsub ?_).symm
  by_contra hlt
  rw [not_le] at hlt
  have hall := h.full (Nat.lt_of_lt_of_le hlt h'.card_le)
  exact absurd (Finset.card_le_card fun a ha => hall a (h'.mem a ha)) (Nat.not_le.mpr hlt)

/-- **One key rises.** If its element was among the best, nothing changes; otherwise nothing changes, or it comes in and
    one other drops out. -/
theorem TopSet.raise {d : α} (hinj : Set.InjOn key S) (hinj' : Set.InjOn key' S) (hsame : ∀ a, a ≠ d → key' a = key a)
    (hrise : key d ≤ key' d) (h : TopSet key S k T) (h' : TopSet key' S k T') :
    (d ∈ T → T' = T) ∧ (d ∉ T → T' = T ∨ ∃ x ∈ T, T' = insert d (T.erase x)) := by
  have hle : ∀ a, key a ≤ key' a := by
    intro a
    by_cases ha : a = d
    · subst ha
      exact hrise
    · exact le_of_eq (hsame a ha).symm
  constructor
  · -- the old set is still one of best elements
    intro hd
    refine TopSet.unique hinj' ⟨h.mem, h.card_le, h.full, fun a ha b hb hbT => ?_⟩ h'
    have hbd : b ≠ d := fun heq => hbT (heq ▸ hd)
    rw [hsame b hbd]
    exact le_trans (h.above a ha b hb hbT) (hle a)
  · intro hd
    by_cases hd' : d ∈ T'
    · right
      have hk := h.card_eq (h'.mem d hd') hd
      have hk' : T'.card = k := by
        refine le_antisymm h'.card_le (not_lt.mp fun hlt => ?_)
        have hall := h'.full hlt
        have hcard := Finset.card_le_card fun a ha => hall a (h.mem a ha)
        omega
      -- what came in besides `d` would have been as good as what dropped out, before as after
      have hsub : T'.erase d ⊆ T := by
        intro c hc
        obtain ⟨hcd, hc⟩ := Finset.mem_erase.mp hc
        by_contra hcT
        have hnot : ¬T ⊆ T' := by
          intro hsub
          have heq := Finset.eq_of_subset_of_card_le hsub (by omega)
          exact hcT (heq ▸ hc)
        obtain ⟨x, hx, hxT'⟩ := Finset.not_subset.mp hnot
        have hxd : x ≠ d := fun heq => hd (heq ▸ hx)
        have hcx := h.above x hx c (h'.mem c hc) hcT
        have hxc := h'.above c hc x (h.mem x hx) hxT'
        rw [hsame c hcd, hsame x hxd] at hxc
        exact hcT (hinj (h'.mem c hc) (h.mem x hx) (le_antisymm hcx hxc) ▸ hx)
      have hcard : (T'.erase d).card + 1 = T.card := by
        rw [Finset.card_erase_add_one hd', hk, hk']
      obtain ⟨x, hx, hxerase⟩ := Finset.exists_mem_notMem_of_card_lt_card (s := T'.erase d) (t := T) (by omega)
      refine ⟨x, hx, ?_⟩
      have heq : T'.erase d = T.erase x := by
        refine Finset.eq_of_subset_of_card_le (fun c hc => ?_) ?_
        · refine Finset.mem_erase.mpr ⟨?_, hsub hc⟩
          rintro rfl
          exact hxerase hc
        · rw [Finset.card_erase_of_mem hx]
          omega
      rw [← heq, Finset.insert_erase hd']
    · left
      refine TopSet.unique hinj h ⟨h'.mem, h'.card_le, h'.full, fun a ha b hb hbT' => ?_⟩
      have had : a ≠ d := fun heq => hd' (heq ▸ ha)
      have hba := h'.above a ha b hb hbT'
      rw [hsame a had] at hba
      exact le_trans (hle b) hba

end Basis
