import Tartine.Kcore.PlacementOrder

/-!
# `Kcore.PlacementRanking` — selecting one by one is sorting once

`hrw_select` finds the best active candidate that is not yet chosen, again and again; `place_redundancy` does the same for
its unconstrained slots, with another way to run out. Both read off the same list: the active candidates, sorted by rank.

* `ranking` — the indices of the active candidates, best first;
* `outcomes_ranking` — what unconstrained slots are served with;
* `hrwSelect_eq_top` — `hrw_select` writes the top of the ranking, and `place_redundancy` the same and then `UNPLACED`.
-/

namespace Tartine.Kcore

open Basis

variable {candidates : List DiskCandidate} {key : UInt64} {slots : List ReplicaSlotSpec} {out : List UInt32}

/-! ## The ranking -/

/-- The indices of the active candidates, in listing order. -/
def activeIndices (candidates : List DiskCandidate) : List Nat :=
  (List.range candidates.length).filter (fun i => candidates[i]?.any (fun c => c.active ≠ 0))

/-- The indices of the active candidates by descending (score, raw hash, `id_hi`, `id_lo`). -/
def ranking (candidates : List DiskCandidate) (key : UInt64) : List Nat :=
  (activeIndices candidates).mergeSort (fun i j => decide (rankAt key candidates j ≤ rankAt key candidates i))

theorem mem_activeIndices {i : Nat} : i ∈ activeIndices candidates ↔ i ∈ pool candidates := by
  unfold activeIndices pool
  rw [List.mem_filter, List.mem_range, Set.mem_ofPred_eq]
  constructor
  · rintro ⟨hi, hactive⟩
    rw [List.getElem?_eq_getElem hi, Option.any_some, decide_eq_true_iff] at hactive
    exact ⟨candidates[i], List.getElem?_eq_getElem hi, hactive⟩
  · rintro ⟨c, hc, hactive⟩
    obtain ⟨hi, -⟩ := List.getElem?_eq_some_iff.mp hc
    refine ⟨hi, ?_⟩
    rw [hc, Option.any_some, decide_eq_true_iff]
    exact hactive

theorem ranking_perm (candidates : List DiskCandidate) (key : UInt64) :
    (ranking candidates key).Perm (activeIndices candidates) := List.mergeSort_perm _ _

/-- Distinct candidates have distinct ranks. -/
theorem WellListed.rankAt_injOn (hwl : WellListed candidates) (key : UInt64) :
    Set.InjOn (rankAt key candidates) (pool candidates) := by
  rintro i ⟨c, hc, -⟩ j ⟨c', hc', -⟩ h
  rw [rankAt_eq hc, rankAt_eq hc'] at h
  exact hwl.index_inj hc hc' (rankKey_inj h)

/-- The ranking descends strictly. -/
theorem ranking_pairwise (hwl : WellListed candidates) (key : UInt64) :
    (ranking candidates key).Pairwise (fun i j => rankAt key candidates j < rankAt key candidates i) := by
  have hsorted : (ranking candidates key).Pairwise (fun i j => rankAt key candidates j ≤ rankAt key candidates i) := by
    refine (List.pairwise_mergeSort ?_ ?_ (activeIndices candidates)).imp (fun h => of_decide_eq_true h)
    · intro a b c hab hbc
      exact decide_eq_true (le_trans (of_decide_eq_true hbc) (of_decide_eq_true hab))
    · intro a b
      rw [Bool.or_eq_true, decide_eq_true_iff, decide_eq_true_iff]
      exact le_total _ _
  have hnodup : (ranking candidates key).Nodup :=
    (ranking_perm candidates key).nodup_iff.mpr (List.nodup_range.filter _)
  refine (hsorted.and hnodup).imp_of_mem ?_
  rintro i j hi hj ⟨hle, hne⟩
  refine lt_of_le_of_ne hle (fun heq => hne ?_)
  have hpool : ∀ i ∈ ranking candidates key, i ∈ pool candidates :=
    fun i hi => mem_activeIndices.mp ((ranking_perm candidates key).mem_iff.mp hi)
  exact hwl.rankAt_injOn key (hpool i hi) (hpool j hj) heq.symm

/-! ## Unconstrained slots -/

/-- **Unconstrained slots are served from the top of the ranking**, and left empty once it is used up. -/
theorem outcomes_ranking (hwl : WellListed candidates) (key : UInt64)
    (hany : ∀ slot ∈ slots, slot.pinned = 0 ∧ slot.requiredClass = classAny) :
    outcomes candidates key slots [] = ((ranking candidates key).take slots.length).map (fun i => some (UInt32.ofNat i)) ++
      List.replicate (slots.length - (ranking candidates key).length) none := by
  have hwalk := outcomes_greedy hwl key slots [] ∅ (by simp)
  have hmem : ∀ i, i ∈ pool candidates ∧ i ∉ (∅ : Set Nat) ↔ i ∈ ranking candidates key := by
    intro i
    rw [(ranking_perm candidates key).mem_iff, mem_activeIndices]
    simp
  have haccepts : ∀ p ∈ slots.map (slotAt candidates), ∀ i ∈ pool candidates, p i := by
    rintro p hp i ⟨c, hc, -⟩
    obtain ⟨slot, hslot, rfl⟩ := List.mem_map.mp hp
    obtain ⟨hpinned, hclass⟩ := hany slot hslot
    refine ⟨c, hc, ?_⟩
    unfold ReplicaSlotSpec.Accepts
    rw [if_neg (not_not.mpr hpinned)]
    exact Or.inl hclass
  have htop := Greedy.top (ranking_pairwise hwl key) hmem haccepts
  rw [List.length_map] at htop
  -- the walk is one greedy run, the ranking another; the indices come back from `u32`
  have hsame := hwalk.unique (hwl.rankAt_injOn key) htop
  have hback := congrArg (List.map (Option.map UInt32.ofNat)) hsame
  have hid : Option.map UInt32.ofNat ∘ Option.map UInt32.toNat = (id : Option UInt32 → Option UInt32) := by
    funext o
    cases o with
    | none => rfl
    | some u => exact congrArg some UInt32.ofNat_toNat
  rw [List.map_map, hid, List.map_id] at hback
  rw [hback, List.map_append, List.map_map, List.map_replicate]
  rfl

theorem length_ranking (candidates : List DiskCandidate) (key : UInt64) :
    (ranking candidates key).length = (activeIndices candidates).length := (ranking_perm candidates key).length_eq

theorem reduceOption_indices (l : List Nat) :
    (l.map (fun i => some (UInt32.ofNat i))).reduceOption = l.map UInt32.ofNat := by
  induction l with
  | nil => rfl
  | cons i l ih => rw [List.map_cons, List.reduceOption_cons_of_some, ih, List.map_cons]

/-- **`hrw_select` is the top of the ranking and the uniform case of `place_redundancy`.** For candidates with distinct ids,
    any key and any output length, with `n` the least of the output length, 16 and the number of active candidates:
    `hrw_select` returns `n` and writes the first `n` active candidates in strictly descending order of (score, raw hash,
    `id_hi`, `id_lo`); `place_redundancy` on as many unconstrained slots as the output is long writes the same indices, and
    `UNPLACED` in the rest of its positions. Neither touches the output behind what it writes. -/
theorem hrwSelect_eq_top (hlen : candidates.length < 2 ^ 32 - 1)
    (hdistinct : candidates.Pairwise (fun a b => a.id ≠ b.id)) (key : UInt64) (out out' : List UInt32)
    (slots : List ReplicaSlotSpec) (hout : out'.length = out.length) (hslots : slots.length = out.length)
    (hany : ∀ slot ∈ slots, slot.pinned = 0 ∧ slot.requiredClass = classAny) :
    let n := min out.length (min maxSelect (activeIndices candidates).length)
    let top := ((ranking candidates key).take n).map UInt32.ofNat
    (ranking candidates key).Perm (activeIndices candidates) ∧
    (ranking candidates key).Pairwise (fun i j => rankAt key candidates j < rankAt key candidates i) ∧
    hrwSelect candidates key out = (n, top ++ out.drop n) ∧
    placeRedundancy candidates key slots out' = (min out.length maxSelect,
      top ++ List.replicate (min out.length maxSelect - n) unplaced ++ out'.drop (min out.length maxSelect)) := by
  intro n top
  have hwl : WellListed candidates := ⟨hlen, hdistinct⟩
  have hrank := length_ranking candidates key
  have htake : (ranking candidates key).take (min out.length maxSelect) = (ranking candidates key).take n := by
    rw [List.take_eq_take_iff]
    omega
  have htop : top.length = n := by
    rw [List.length_map, List.length_take, hrank]
    omega
  refine ⟨ranking_perm candidates key, ranking_pairwise hwl key, ?_, ?_⟩
  · have hserved : (outcomes candidates key (List.replicate (min out.length maxSelect) anySlot) []).reduceOption = top := by
      have hplain : ∀ slot ∈ List.replicate (min out.length maxSelect) anySlot,
          slot.pinned = 0 ∧ slot.requiredClass = classAny := by
        intro slot hslot
        rw [List.eq_of_mem_replicate hslot]
        exact ⟨rfl, rfl⟩
      rw [outcomes_ranking hwl key hplain, List.length_replicate, htake, List.reduceOption_append,
        List.reduceOption_replicate_none, List.append_nil, reduceOption_indices]
    have hloop := @hrwSelectLoop_eq candidates key (min out.length maxSelect) [] out (by simp) (by simp)
    rw [List.nil_append, hserved] at hloop
    dsimp only at hloop
    rwa [htop] at hloop
  · have hwalked : walked slots out' = min out.length maxSelect := by
      unfold walked
      omega
    refine Prod.ext hwalked ?_
    rw [placeRedundancy_snd, hwalked, outcomes_ranking hwl key (fun slot h => hany slot (List.mem_of_mem_take h)),
      List.length_take, hslots, Nat.min_eq_left (Nat.min_le_left _ _), htake, List.map_append, List.map_map,
      List.map_replicate, hrank]
    have hrest : min out.length maxSelect - (activeIndices candidates).length = min out.length maxSelect - n := by omega
    rw [hrest]
    rfl

/-- The theorem at three disks, one of them inactive, and an output of three entries: the third stays as it was, and is
    marked by `place_redundancy`. -/
theorem hrwSelect_eq_top_threeDisks :
    let candidates : List DiskCandidate := [⟨0, 1, 1000, 1, classHdd⟩, ⟨0, 2, 1000, 0, classHdd⟩, ⟨0, 3, 1000, 1, classSsd⟩]
    hrwSelect candidates 7 [9, 9, 9] = (2, ((ranking candidates 7).take 2).map UInt32.ofNat ++ [9]) ∧
    placeRedundancy candidates 7 [anySlot, anySlot, anySlot] [0, 0, 0] =
      (3, ((ranking candidates 7).take 2).map UInt32.ofNat ++ [unplaced] ++ []) := by
  intro candidates
  obtain ⟨-, -, hselect, hplace⟩ := @hrwSelect_eq_top candidates (by decide) (by decide) 7 [9, 9, 9] [0, 0, 0]
    [anySlot, anySlot, anySlot] rfl rfl (by decide)
  exact ⟨hselect, hplace⟩

end Tartine.Kcore
