import Mathlib.Data.List.MinMax
import Tartine.Basis.TopSet
import Tartine.Kcore.PlacementOrder
import Tartine.Kcore.ScoreOrder

/-!
# `Kcore.PlacementWeight` — raising a disk's weight only attracts data to it

The score is the weight over the logarithm of the hash, so it does not fall when the weight rises, and the rank with it.
Hence a heavier disk may come into the set that `hrw_select` picks, in place of one other, and changes it in no other way.

Nothing here bounds the candidate list. Beyond `2 ^ 32` entries several candidates share one `u32` index, and excluding one
of them excludes all; the selection then ranks the indices, each by its best candidate (`indexRank`).

* `hrwSelectOne_picks_index` — one turn picks the best index not excluded;
* `hrwSelect_raise` — the sets picked before and after the weight of a candidate is raised.
-/

namespace Tartine.Kcore

open Basis

variable {candidates : List DiskCandidate} {key : UInt64} {excluded out : List UInt32} {u : UInt32} {i : Nat}
  {c d : DiskCandidate} {w : UInt32}

/-! ## Indices and their ranks -/

/-- The candidate at position `i` is active and has the index `u`. -/
def Stands (candidates : List DiskCandidate) (u : UInt32) (i : Nat) (c : DiskCandidate) : Prop :=
  candidates[i]? = some c ∧ c.active ≠ 0 ∧ UInt32.ofNat i = u

/-- The indices of the active candidates. -/
def indexPool (candidates : List DiskCandidate) : Set UInt32 := {u | ∃ i c, Stands candidates u i c}

/-- The ranks of the active candidates with the index. -/
def ranksOf (candidates : List DiskCandidate) (key : UInt64) (u : UInt32) : List (ℕ ×ₗ ℕ ×ₗ ℕ ×ₗ ℕ) :=
  (candidates.zipIdx.filter fun ci => ci.1.active ≠ 0 ∧ UInt32.ofNat ci.2 = u).map fun ci => rankKey key ci.1

/-- The best of them. -/
def indexRank (candidates : List DiskCandidate) (key : UInt64) (u : UInt32) : WithBot (ℕ ×ₗ ℕ ×ₗ ℕ ×ₗ ℕ) :=
  (ranksOf candidates key u).maximum

theorem mem_ranksOf {r : ℕ ×ₗ ℕ ×ₗ ℕ ×ₗ ℕ} :
    r ∈ ranksOf candidates key u ↔ ∃ i c, Stands candidates u i c ∧ rankKey key c = r := by
  unfold ranksOf Stands
  simp only [List.mem_map, List.mem_filter, decide_eq_true_eq, Prod.exists, List.mk_mem_zipIdx_iff_getElem?]
  constructor
  · rintro ⟨c, i, ⟨hc, hact, hu⟩, hr⟩
    exact ⟨i, c, ⟨hc, hact, hu⟩, hr⟩
  · rintro ⟨i, c, ⟨hc, hact, hu⟩, hr⟩
    exact ⟨c, i, ⟨hc, hact, hu⟩, hr⟩

theorem rankKey_le_indexRank (h : Stands candidates u i c) : (rankKey key c : WithBot _) ≤ indexRank candidates key u :=
  List.le_maximum_of_mem' (mem_ranksOf.mpr ⟨i, c, h, rfl⟩)

theorem indexRank_le {m : WithBot (ℕ ×ₗ ℕ ×ₗ ℕ ×ₗ ℕ)} (h : ∀ i c, Stands candidates u i c → (rankKey key c : WithBot _) ≤ m) :
    indexRank candidates key u ≤ m := by
  refine List.maximum_le_of_forall_le fun r hr => ?_
  obtain ⟨i, c, hstands, rfl⟩ := mem_ranksOf.mp hr
  exact h i c hstands

/-- An index of the pool has a candidate of its rank. -/
theorem exists_of_mem_indexPool (h : u ∈ indexPool candidates) (key : UInt64) :
    ∃ i c, Stands candidates u i c ∧ indexRank candidates key u = rankKey key c := by
  obtain ⟨i, c, hstands⟩ := h
  have hne : ranksOf candidates key u ≠ [] := List.ne_nil_of_mem (mem_ranksOf.mpr ⟨i, c, hstands, rfl⟩)
  obtain ⟨r, hr⟩ := WithBot.ne_bot_iff_exists.mp (List.maximum_ne_bot_of_ne_nil hne)
  obtain ⟨j, c', hstands', hrank⟩ := mem_ranksOf.mp (List.maximum_mem hr.symm)
  exact ⟨j, c', hstands', by rw [hrank]; exact hr.symm⟩

/-- **One turn picks the best index that is not excluded.** -/
theorem hrwSelectOne_picks_index (candidates : List DiskCandidate) (key : UInt64) (excluded : List UInt32) :
    Picks (indexRank candidates key) (indexPool candidates) {u | u ∈ excluded} (fun _ => True)
      (hrwSelectOne candidates key excluded classAny) := by
  have hnil : BestOf key excluded classAny [] none := by
    intro ci hci
    cases hci
  have hbest := hnil.foldl candidates.zipIdx
  rw [List.nil_append] at hbest
  unfold hrwSelectOne
  cases hfold : candidates.zipIdx.foldl (selectStep key excluded classAny) none with
  | none =>
      rw [hfold] at hbest
      rintro u ⟨i, c, hc, hact, rfl⟩ -
      by_contra hex
      exact hbest (c, i) (List.mk_mem_zipIdx_iff_getElem?.mpr hc) ⟨hact, hex, Or.inl rfl⟩
  | some b =>
      rw [hfold] at hbest
      obtain ⟨⟨c, i⟩, hmem, ⟨hact, hex, -⟩, rfl, hmax⟩ := hbest
      have hstands : Stands candidates (UInt32.ofNat i) i c := ⟨List.mk_mem_zipIdx_iff_getElem?.mp hmem, hact, rfl⟩
      refine ⟨⟨i, c, hstands⟩, trivial, hex, fun v _ _ hv => ?_⟩
      -- every candidate of an index that is not excluded was compared with the best one
      refine le_trans (indexRank_le fun j c' hc' => ?_) (rankKey_le_indexRank hstands)
      obtain ⟨hget, hact', rfl⟩ := hc'
      exact WithBot.coe_le_coe.mpr (hmax (c', j) (List.mk_mem_zipIdx_iff_getElem?.mpr hget) ⟨hact', hv, Or.inl rfl⟩)

/-! ## The set picked -/

/-- The indices that `hrw_select` wrote. -/
def picked (candidates : List DiskCandidate) (key : UInt64) (out : List UInt32) : Finset UInt32 :=
  ((hrwSelect candidates key out).2.take (hrwSelect candidates key out).1).toFinset

/-- The turns are a greedy run over the indices. -/
theorem outcomes_anySlot_greedy (candidates : List DiskCandidate) (key : UInt64) (k : Nat) (excluded : List UInt32) :
    Greedy (indexRank candidates key) (indexPool candidates) {u | u ∈ excluded} (List.replicate k fun _ => True)
      (outcomes candidates key (List.replicate k anySlot) excluded) := by
  induction k generalizing excluded with
  | zero => exact .nil
  | succ k ih =>
      rw [List.replicate_succ, List.replicate_succ, outcomes, chooseSlot_anySlot]
      refine .cons (hrwSelectOne_picks_index candidates key excluded) ?_
      have htaking : taking {u | u ∈ excluded} (hrwSelectOne candidates key excluded classAny) =
          {u | u ∈ excluded ++ (hrwSelectOne candidates key excluded classAny).toList} := by
        ext u
        simp [taking, eq_comm]
      rw [htaking]
      exact ih _

/-- **`hrw_select` picks the best indices**, as many as the output and the cap allow. -/
theorem picked_topSet (candidates : List DiskCandidate) (key : UInt64) (out : List UInt32) :
    TopSet (indexRank candidates key) (indexPool candidates) (min out.length maxSelect) (picked candidates key out) := by
  have hloop := @hrwSelectLoop_eq candidates key (min out.length maxSelect) [] out (by simp) (by simp)
  rw [List.nil_append] at hloop
  have hgreedy := outcomes_anySlot_greedy candidates key (min out.length maxSelect) []
  have hempty : ({u | u ∈ ([] : List UInt32)} : Set UInt32) = ∅ := by simp
  rw [hempty] at hgreedy
  have htop := hgreedy.topSet
  unfold picked hrwSelect
  rwa [hloop, List.take_left]

/-! ## Raising a weight -/

/-- The rank does not fall when the weight rises. -/
theorem rankKey_le_of_weight (h : c.weightMilli ≤ w) : rankKey key c ≤ rankKey key { c with weightMilli := w } := by
  unfold rankKey Ranked.key rank
  rw [Prod.Lex.toLex_le_toLex]
  have hscore : scoreFrom (hashU128U64 (diskId128 c.diskIdHi c.diskIdLo) key) c.weightMilli ≤
      scoreFrom (hashU128U64 (diskId128 c.diskIdHi c.diskIdLo) key) w := scoreFrom_le (Nat.le_refl _) h
  rcases hscore.lt_or_eq with hlt | heq
  · exact Or.inl hlt
  · exact Or.inr ⟨heq, le_refl _⟩

/-- Distinct ids give distinct ranks, to the indices as to the candidates. -/
theorem indexRank_injOn (hdistinct : candidates.Pairwise (fun a b => a.id ≠ b.id)) (key : UInt64) :
    Set.InjOn (indexRank candidates key) (indexPool candidates) := by
  intro u hu v hv heq
  obtain ⟨i, c, ⟨hc, -, rfl⟩, hrank⟩ := exists_of_mem_indexPool hu key
  obtain ⟨j, c', ⟨hc', -, rfl⟩, hrank'⟩ := exists_of_mem_indexPool hv key
  rw [hrank, hrank', WithBot.coe_inj] at heq
  rw [index_inj_of_distinct hdistinct hc hc' (rankKey_inj heq)]

section Raised

/-- The listing with the weight of the candidate at position `i` replaced. -/
def reweighed (candidates : List DiskCandidate) (i : Nat) (w : UInt32) : List DiskCandidate :=
  candidates.modify i fun c => { c with weightMilli := w }

theorem stands_reweighed {j : Nat} : Stands (reweighed candidates i w) u j c ↔
    ∃ c₀, Stands candidates u j c₀ ∧ c = if i = j then { c₀ with weightMilli := w } else c₀ := by
  unfold Stands reweighed
  rw [List.getElem?_modify]
  constructor
  · rintro ⟨hget, hact, hu⟩
    obtain ⟨c₀, hc₀, rfl⟩ := Option.map_eq_some_iff.mp hget
    refine ⟨c₀, ⟨hc₀, ?_, hu⟩, rfl⟩
    split at hact
    · exact hact
    · exact hact
  · rintro ⟨c₀, ⟨hc₀, hact, hu⟩, rfl⟩
    refine ⟨by rw [hc₀]; rfl, ?_, hu⟩
    split
    · exact hact
    · exact hact

theorem indexPool_reweighed : indexPool (reweighed candidates i w) = indexPool candidates := by
  ext u
  constructor
  · rintro ⟨j, c, hc⟩
    obtain ⟨c₀, hc₀, -⟩ := stands_reweighed.mp hc
    exact ⟨j, c₀, hc₀⟩
  · rintro ⟨j, c₀, hc₀⟩
    exact ⟨j, _, stands_reweighed.mpr ⟨c₀, hc₀, rfl⟩⟩

theorem distinct_reweighed (hdistinct : candidates.Pairwise (fun a b => a.id ≠ b.id)) :
    (reweighed candidates i w).Pairwise (fun a b => a.id ≠ b.id) := by
  have hids : (reweighed candidates i w).map DiskCandidate.id = candidates.map DiskCandidate.id := by
    refine List.ext_getElem? fun j => ?_
    rw [List.getElem?_map, List.getElem?_map, reweighed, List.getElem?_modify]
    cases candidates[j]? with
    | none => rfl
    | some c =>
        by_cases hij : i = j
        · simp [hij, DiskCandidate.id]
        · simp [hij]
  have hpair : (candidates.map DiskCandidate.id).Pairwise (· ≠ ·) := List.pairwise_map.mpr hdistinct
  rw [← hids] at hpair
  exact List.pairwise_map.mp hpair

/-- Only the index of the candidate changes its rank. -/
theorem indexRank_reweighed_of_ne (hu : u ≠ UInt32.ofNat i) :
    indexRank (reweighed candidates i w) key u = indexRank candidates key u := by
  have hne : ∀ {j c}, Stands candidates u j c → i ≠ j := by
    rintro j c ⟨-, -, rfl⟩ rfl
    exact hu rfl
  refine le_antisymm (indexRank_le fun j c hc => ?_) (indexRank_le fun j c hc => ?_)
  · obtain ⟨c₀, hc₀, rfl⟩ := stands_reweighed.mp hc
    rw [if_neg (hne hc₀)]
    exact rankKey_le_indexRank hc₀
  · refine rankKey_le_indexRank (i := j) (stands_reweighed.mpr ⟨c, hc, ?_⟩)
    rw [if_neg (hne hc)]

/-- The rank of a disk does not fall when its weight rises. -/
theorem indexRank_le_reweighed (hd : candidates[i]? = some d) (hw : d.weightMilli ≤ w) :
    indexRank candidates key u ≤ indexRank (reweighed candidates i w) key u := by
  refine indexRank_le fun j c hc => ?_
  refine le_trans (WithBot.coe_le_coe.mpr ?_) (rankKey_le_indexRank (i := j) (stands_reweighed.mpr ⟨c, hc, rfl⟩))
  split
  · rename_i hij
    subst hij
    obtain rfl := Option.some.inj (hd.symm.trans hc.1)
    exact rankKey_le_of_weight hw
  · exact le_refl _

/-- **Raising a disk's weight only attracts data to it.** For candidates with distinct ids, any key and any output length,
    let the weight of candidate `d` be raised and nothing else be changed. If `d` was picked, the same set is picked;
    otherwise the same set, or the old one with `d` in place of at most one other disk. -/
theorem hrwSelect_raise (hdistinct : candidates.Pairwise (fun a b => a.id ≠ b.id)) (hd : candidates[i]? = some d)
    (hw : d.weightMilli < w) (key : UInt64) (out : List UInt32) :
    (UInt32.ofNat i ∈ picked candidates key out →
      picked (reweighed candidates i w) key out = picked candidates key out) ∧
    (UInt32.ofNat i ∉ picked candidates key out →
      picked (reweighed candidates i w) key out = picked candidates key out ∨
      ∃ kept ⊆ picked candidates key out, (picked candidates key out \ kept).card ≤ 1 ∧
        picked (reweighed candidates i w) key out = insert (UInt32.ofNat i) kept) := by
  have hinj := indexRank_injOn hdistinct key
  have hinj' := indexRank_injOn (distinct_reweighed (i := i) (w := w) hdistinct) key
  have htop := picked_topSet (reweighed candidates i w) key out
  rw [indexPool_reweighed] at hinj' htop
  obtain ⟨hin, hout⟩ := TopSet.raise hinj hinj' (fun u hu => indexRank_reweighed_of_ne hu)
    (indexRank_le_reweighed hd (UInt32.le_of_lt hw)) (picked_topSet candidates key out) htop
  refine ⟨hin, fun hnew => ?_⟩
  rcases hout hnew with hsame | ⟨x, hx, hswap⟩
  · exact Or.inl hsame
  · refine Or.inr ⟨_, Finset.erase_subset x _, ?_, hswap⟩
    rw [Finset.sdiff_erase_self hx]
    exact le_of_eq (Finset.card_singleton x)

/-- The theorem at two disks of equal weight, the second of which becomes four times as heavy. -/
theorem hrwSelect_raise_twoDisks :
    let candidates : List DiskCandidate := [⟨0, 1, 1000, 1, classHdd⟩, ⟨0, 2, 1000, 1, classHdd⟩]
    (UInt32.ofNat 1 ∈ picked candidates 7 [0] → picked (reweighed candidates 1 4000) 7 [0] = picked candidates 7 [0]) ∧
    (UInt32.ofNat 1 ∉ picked candidates 7 [0] →
      picked (reweighed candidates 1 4000) 7 [0] = picked candidates 7 [0] ∨
      ∃ kept ⊆ picked candidates 7 [0], (picked candidates 7 [0] \ kept).card ≤ 1 ∧
        picked (reweighed candidates 1 4000) 7 [0] = insert (UInt32.ofNat 1) kept) := by
  intro candidates
  exact @hrwSelect_raise candidates 1 _ 4000 (by decide) rfl (by decide) 7 [0]

end Raised

end Tartine.Kcore
