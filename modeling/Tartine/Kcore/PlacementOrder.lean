import Mathlib.Data.List.ReduceOption
import Tartine.Kcore.PlacementGuarantees

/-!
# `Kcore.PlacementOrder` — the listing order of the candidates does not matter

The code hands around indices into the candidate list, so its intermediate results do depend on the order. What it
selects does not: a walk is a greedy run over the *set* of active candidates, and their ranks are pairwise distinct.

* `hrwSelect_disks` — `hrw_select` serves unconstrained slots until the first one left empty;
* `outcomeDisks_perm` — two listings of the same candidates serve every slot with the same disk.
-/

namespace Tartine.Kcore

open Basis

variable {candidates candidates' : List DiskCandidate} {key : UInt64} {slots : List ReplicaSlotSpec}
  {out : List UInt32}

/-! ## `hrw_select` is the walk over unconstrained slots -/

/-- The slot of plain replication: no class, no pinned disk. -/
def anySlot : ReplicaSlotSpec := ⟨classAny, 0, 0, 0⟩

theorem chooseSlot_anySlot (candidates : List DiskCandidate) (key : UInt64) (excluded : List UInt32) :
    chooseSlot candidates key excluded anySlot = hrwSelectOne candidates key excluded classAny := rfl

/-- Once a slot is left empty, the same slot stays empty: nothing was taken in between. -/
theorem outcomes_replicate_none {slot : ReplicaSlotSpec} {excluded : List UInt32}
    (h : chooseSlot candidates key excluded slot = none) (k : Nat) :
    outcomes candidates key (List.replicate k slot) excluded = List.replicate k none := by
  induction k with
  | zero => rfl
  | succ k ih =>
      rw [List.replicate_succ, outcomes, h, Option.toList_none, List.append_nil, ih]
      rfl

/-- The loop writes, after what it has written so far, the outcomes of the slots served, and nothing behind them. -/
theorem hrwSelectLoop_eq (k : Nat) :
    ∀ (excluded out : List UInt32), excluded.length + k ≤ out.length → out.take excluded.length = excluded →
      let served := excluded ++ (outcomes candidates key (List.replicate k anySlot) excluded).reduceOption
      hrwSelectLoop candidates key k excluded out = (served.length, served ++ out.drop served.length) := by
  induction k with
  | zero =>
      intro excluded out _ htake
      simp only [hrwSelectLoop, outcomes, List.replicate_zero, List.reduceOption_nil, List.append_nil]
      rw [← List.take_append_drop excluded.length out, htake]
      simp
  | succ k ih =>
      intro excluded out hlen htake
      rw [hrwSelectLoop]
      cases ho : hrwSelectOne candidates key excluded classAny with
      | none =>
          rw [outcomes_replicate_none (by rw [chooseSlot_anySlot]; exact ho), List.reduceOption_replicate_none,
            List.append_nil]
          simp only [Prod.mk.injEq, true_and]
          conv_lhs => rw [← List.take_append_drop excluded.length out, htake]
      | some idx =>
          have hlt : excluded.length < out.length := by omega
          have hset : (out.set excluded.length idx).take (excluded ++ [idx]).length = excluded ++ [idx] := by
            rw [List.length_append, List.length_singleton, List.set_eq_take_append_cons_drop, if_pos hlt, htake,
              List.take_append, Nat.add_sub_cancel_left, List.take_of_length_le (by omega)]
            rfl
          have hrest := ih (excluded ++ [idx]) (out.set excluded.length idx)
            (by rw [List.length_append, List.length_singleton, List.length_set]; omega) hset
          simp only [List.replicate_succ, outcomes, chooseSlot_anySlot, ho, Option.toList_some,
            List.reduceOption_cons_of_some]
          simp only [List.append_assoc, List.singleton_append] at hrest
          rw [hrest, List.drop_set_of_lt (by simp), List.append_assoc]

/-- The disks `hrw_select` wrote the indices of. -/
def hrwDisks (candidates : List DiskCandidate) (r : Nat × List UInt32) : List (Option DiskCandidate) :=
  (r.2.take r.1).map (fun u => candidates[u.toNat]?)

/-- **`hrw_select` serves unconstrained slots**, up to the first one left empty. -/
theorem hrwSelect_disks (hwl : WellListed candidates) (key : UInt64) (out : List UInt32) :
    hrwDisks candidates (hrwSelect candidates key out) =
      (outcomeDisks candidates key (List.replicate (min out.length maxSelect) anySlot)).reduceOption.map
        some := by
  have hloop := @hrwSelectLoop_eq candidates key (min out.length maxSelect) [] out (by simp) (by simp)
  rw [hrwDisks, hrwSelect, hloop, List.take_left, List.nil_append, outcomeDisks, List.map_map]
  have hmem : ∀ o ∈ outcomes candidates key (List.replicate (min out.length maxSelect) anySlot) [],
      ∀ u, o = some u → ∃ c, candidates[u.toNat]? = some c := by
    rintro o ho u rfl
    exact exists_of_mem_outcomes hwl ho
  generalize outcomes candidates key (List.replicate (min out.length maxSelect) anySlot) [] = os at hmem
  induction os with
  | nil => rfl
  | cons o os ih =>
      have hrest := ih (fun o' ho' => hmem o' (List.mem_cons_of_mem _ ho'))
      cases o with
      | none => simpa using hrest
      | some u =>
          obtain ⟨c, hc⟩ := hmem (some u) (by simp) u rfl
          simpa [hc, diskAt_eq hc] using hrest

/-! ## Two listings of the same candidates -/

theorem WellListed.perm (hwl : WellListed candidates) (h : candidates.Perm candidates') :
    WellListed candidates' :=
  ⟨by rw [← h.length_eq]; exact hwl.short, hwl.distinct.perm h (fun hne => hne.symm)⟩

theorem activeDisks_perm (h : candidates.Perm candidates') : activeDisks candidates = activeDisks candidates' := by
  ext c
  simp only [activeDisks, Set.mem_ofPred_eq, h.mem_iff]

/-- **Every slot is served with the same disk, however the candidates are listed.** -/
theorem outcomeDisks_perm (hwl : WellListed candidates) (h : candidates.Perm candidates') (key : UInt64)
    (slots : List ReplicaSlotSpec) :
    outcomeDisks candidates key slots = outcomeDisks candidates' key slots := by
  have hg := outcomeDisks_greedy hwl key slots
  have hg' := outcomeDisks_greedy (hwl.perm h) key slots
  rw [← activeDisks_perm h] at hg'
  exact hg.unique (hwl.rankKey_injOn key) hg'

theorem placedDisks_perm (hwl : WellListed candidates) (h : candidates.Perm candidates') :
    placedDisks candidates (placeRedundancy candidates key slots out) =
      placedDisks candidates' (placeRedundancy candidates' key slots out) := by
  rw [placedDisks_eq hwl, placedDisks_eq (hwl.perm h)]
  exact outcomeDisks_perm hwl h key _

theorem hrwDisks_perm (hwl : WellListed candidates) (h : candidates.Perm candidates') :
    hrwDisks candidates (hrwSelect candidates key out) = hrwDisks candidates' (hrwSelect candidates' key out) := by
  rw [hrwSelect_disks hwl, hrwSelect_disks (hwl.perm h), outcomeDisks_perm hwl h]

end Tartine.Kcore
