import Tartine.Core.Placement
import Tartine.Kcore.PlacementOrder

/-!
# `Core.PlacementOrder` — placement over a pool map does not depend on hash-map iteration

`place_redundancy` and `targets` list the disks of the pool in whatever order the hash map yields them. Here their
results are read back as disks, and shown to be the same for every such order.

* `placeRedundancy_eq`, `targets_eq` — the disks returned are the kernel core's, named by their ids;
* `placement_order_independent` — any two iteration orders, and any two listings of the same candidates.
-/

namespace Tartine.Placement

open Basis Kcore

/-! ## Ids and their halves -/

/-- The two halves determine the id. -/
theorem diskIdFromHiLo_diskIdToHiLo (id : DiskId) :
    diskIdFromHiLo (diskIdToHiLo id).1 (diskIdToHiLo id).2 = id := by
  obtain ⟨v⟩ := id
  have hv := v.isLt
  have hhi : v.toNat >>> 64 < 2 ^ 64 := by rw [Nat.shiftRight_eq_div_pow]; omega
  have hlo : v.toNat % 2 ^ 64 < 2 ^ 64 := Nat.mod_lt _ (by decide)
  simp only [diskIdFromHiLo, diskIdToHiLo, diskId128, UInt64.toNat_ofNat', Nat.mod_eq_of_lt hhi, Uuid.mk.injEq]
  rw [Nat.shiftLeft_eq, Nat.mul_comm, ← Nat.two_pow_add_eq_or_of_lt hlo, Nat.shiftRight_eq_div_pow,
    Nat.div_add_mod, BitVec.ofNat_toNat, BitVec.setWidth_eq]

/-- The id of two halves gives them back. -/
theorem diskIdToHiLo_diskIdFromHiLo (hi lo : UInt64) : diskIdToHiLo (diskIdFromHiLo hi lo) = (hi, lo) := by
  have hhi := hi.toNat_lt
  have hlo := lo.toNat_lt
  have hval : (diskIdFromHiLo hi lo).val.toNat = 2 ^ 64 * hi.toNat + lo.toNat := by
    show (BitVec.ofNat 128 (hi.toNat <<< 64 ||| lo.toNat)).toNat = _
    rw [Nat.shiftLeft_eq, Nat.mul_comm, ← Nat.two_pow_add_eq_or_of_lt hlo, BitVec.toNat_ofNat, Nat.mod_eq_of_lt (by omega)]
  unfold diskIdToHiLo
  rw [hval, Prod.mk.injEq]
  constructor
  · rw [Nat.shiftRight_eq_div_pow, Nat.mul_add_div (by decide), Nat.div_eq_of_lt hlo, Nat.add_zero, UInt64.ofNat_toNat]
  · rw [← UInt64.toNat_inj, UInt64.toNat_ofNat', Nat.mul_add_mod, Nat.mod_eq_of_lt hlo]

/-- The disk a candidate stands for. -/
def candidateDisk (c : DiskCandidate) : DiskId := diskIdFromHiLo c.diskIdHi c.diskIdLo

@[simp] theorem candidateDisk_toCandidate (id : DiskId) (entry : DiskEntry) :
    candidateDisk (toCandidate id entry) = id := diskIdFromHiLo_diskIdToHiLo id

theorem candidateDisk_congr {c c' : DiskCandidate} (h : c.id = c'.id) : candidateDisk c = candidateDisk c' := by
  have hhi : c.diskIdHi = c'.diskIdHi := congrArg Prod.fst h
  have hlo : c.diskIdLo = c'.diskIdLo := congrArg Prod.snd h
  rw [candidateDisk, candidateDisk, hhi, hlo]

/-- The candidates of one iteration over the pool map. -/
def candidatesOf (ord : IterOrder) (pool : PoolMap) (requireRole : DiskEntry → Bool) : List DiskCandidate :=
  ((pool.iter ord).filter (fun e => requireRole e.2)).map (fun e => toCandidate e.1 e.2)

variable {ord ord' : IterOrder} {pool : PoolMap} {requireRole : DiskEntry → Bool} {key : UInt64}

theorem candidatesOf_perm (ord ord' : IterOrder) (pool : PoolMap) (requireRole : DiskEntry → Bool) :
    (candidatesOf ord pool requireRole).Perm (candidatesOf ord' pool requireRole) := by
  have hperm : (pool.iter ord).Perm (pool.iter ord') := (ord.perm _).trans (ord'.perm _).symm
  exact (hperm.filter _).map _

/-- The ids listed beside the candidates are the candidates' own. -/
theorem ids_eq (ord : IterOrder) (pool : PoolMap) (requireRole : DiskEntry → Bool) :
    ((pool.iter ord).filter (fun e => requireRole e.2)).map Prod.fst =
      (candidatesOf ord pool requireRole).map candidateDisk := by
  rw [candidatesOf, List.map_map]
  apply List.map_congr_left
  intro e _
  exact (candidateDisk_toCandidate e.1 e.2).symm

/-- A pool map lists every disk once. -/
theorem wellListed_candidatesOf (ord : IterOrder) (requireRole : DiskEntry → Bool)
    (h : pool.disks.size < 2 ^ 32 - 1) : WellListed (candidatesOf ord pool requireRole) := by
  have hperm : (pool.iter ord).Perm pool.disks.toList := ord.perm _
  constructor
  · have hfilter := List.length_filter_le (fun e => requireRole e.2) (pool.iter ord)
    rw [candidatesOf, List.length_map]
    rw [hperm.length_eq, Std.ExtTreeMap.length_toList] at hfilter
    omega
  · have hkeys : (pool.iter ord).Pairwise (fun a b => a.1 ≠ b.1) := by
      refine List.Pairwise.perm ?_ hperm.symm (fun hne => hne.symm)
      refine Std.ExtTreeMap.distinct_keys_toList.imp (fun hne heq => hne ?_)
      rw [heq]
      exact Std.ReflCmp.compare_self
    rw [candidatesOf, List.pairwise_map]
    refine (hkeys.filter _).imp (fun {a b} hne heq => hne ?_)
    have hids := candidateDisk_congr heq
    rwa [candidateDisk_toCandidate, candidateDisk_toCandidate] at hids

/-! ## What the two entry points return -/

/-- Lookups that all succeed. -/
theorem mapM_map_eq_pure {m : Type → Type} [Monad m] [LawfulMonad m] {α β γ : Type} {f : β → m γ} {g : α → β}
    {h : α → γ} {l : List α} (hf : ∀ a ∈ l, f (g a) = pure (h a)) : (l.map g).mapM f = pure (l.map h) := by
  induction l with
  | nil => rfl
  | cons a l ih =>
      rw [List.map_cons, List.mapM_cons, hf a (by simp), ih (fun x hx => hf x (List.mem_cons_of_mem _ hx))]
      simp

/-- **A replicated scheme is placed on the disks the kernel core selects.** -/
theorem placeRedundancy_eq (hpool : pool.disks.size < 2 ^ 32 - 1) (slots : List ReplicaSlot) :
    placeRedundancy ord pool (.replicated slots) key requireRole =
      .ok ((outcomeDisks (candidatesOf ord pool requireRole) key
        ((slots.map slotToSpec).take maxSelect)).map (Option.map candidateDisk)) := by
  have hwl := wellListed_candidatesOf ord requireRole hpool
  have hwalk : walked (slots.map slotToSpec) (List.replicate (min (slots.map slotToSpec).length maxSelect) 0) =
      min (slots.map slotToSpec).length maxSelect := by
    unfold walked
    rw [List.length_replicate]
    omega
  have htake : (slots.map slotToSpec).take (min (slots.map slotToSpec).length maxSelect) =
      (slots.map slotToSpec).take maxSelect := by
    rw [← List.take_take, List.take_of_length_le (List.length_take_le' ..)]
  have hdef : placeRedundancy ord pool (.replicated slots) key requireRole =
      ((outcomes (candidatesOf ord pool requireRole) key ((slots.map slotToSpec).take maxSelect) []).map
        (·.getD unplaced)).mapM (diskOf ((candidatesOf ord pool requireRole).map candidateDisk)) := by
    rw [← ids_eq, ← htake, ← hwalk, ← take_placeRedundancy]
    rfl
  rw [hdef, outcomeDisks, List.map_map, List.map_map]
  refine mapM_map_eq_pure ?_
  intro o ho
  cases o with
  | none => rfl
  | some u =>
      obtain ⟨c, hc⟩ := exists_of_mem_outcomes hwl ho
      rw [diskOf, Option.getD_some, if_neg (outcomes_ne_unplaced hwl ho), List.getElem?_map, hc]
      simp [diskAt_eq hc]

/-- **`targets` returns the disks `hrw_select` selects.** -/
theorem targets_eq (hpool : pool.disks.size < 2 ^ 32 - 1) (n : Nat) :
    targets ord pool key n requireRole =
      some (((outcomeDisks (candidatesOf ord pool requireRole) key
        (List.replicate (min n maxSelect) anySlot)).reduceOption).map candidateDisk) := by
  have hwl := wellListed_candidatesOf ord requireRole hpool
  have hlook := hrwSelect_disks hwl key (List.replicate (min n maxSelect) 0)
  rw [List.length_replicate, Nat.min_assoc, Nat.min_self, hrwDisks] at hlook
  have hdef : targets ord pool key n requireRole =
      ((hrwSelect (candidatesOf ord pool requireRole) key (List.replicate (min n maxSelect) 0)).2.take
        (hrwSelect (candidatesOf ord pool requireRole) key (List.replicate (min n maxSelect) 0)).1).mapM
          (fun idx => ((candidatesOf ord pool requireRole).map candidateDisk)[idx.toNat]?) := by
    rw [← ids_eq]
    rfl
  rw [hdef]
  generalize hrwSelect (candidatesOf ord pool requireRole) key (List.replicate (min n maxSelect) 0) = r at hlook
  generalize (outcomeDisks (candidatesOf ord pool requireRole) key
    (List.replicate (min n maxSelect) anySlot)).reduceOption = disks at hlook
  -- every index returned is in range, so the lookup of its disk cannot fail
  have hf : ∀ idx ∈ r.2.take r.1, ((candidatesOf ord pool requireRole).map candidateDisk)[idx.toNat]? =
      some (candidateDisk (diskAt (candidatesOf ord pool requireRole) idx.toNat)) := by
    intro idx hidx
    have hmem : (candidatesOf ord pool requireRole)[idx.toNat]? ∈ disks.map some := by
      rw [← hlook]
      exact List.mem_map_of_mem hidx
    obtain ⟨c, -, hc⟩ := List.mem_map.mp hmem
    rw [List.getElem?_map, ← hc, diskAt_eq hc.symm, Option.map_some]
  have hlist : (r.2.take r.1).map (fun u => diskAt (candidatesOf ord pool requireRole) u.toNat) = disks := by
    have := congrArg (List.map (fun c => c.getD ⟨0, 0, 0, 0, 0⟩)) hlook
    simpa [List.map_map, Function.comp_def, diskAt] using this
  have hall := mapM_map_eq_pure (g := id) (l := r.2.take r.1)
    (f := fun idx => ((candidatesOf ord pool requireRole).map candidateDisk)[idx.toNat]?)
    (h := fun idx => candidateDisk (diskAt (candidatesOf ord pool requireRole) idx.toNat)) hf
  rw [List.map_id] at hall
  rw [hall, ← hlist, List.map_map]
  rfl

/-! ## Any two orders -/

/-- **Placement does not depend on iteration order.** For any two iteration orders of the pool's disks, placing a
    scheme and picking plain targets give the same disks (and never index outside the listing); and two listings of
    the same candidates, with distinct ids, serve every slot with the same disk. -/
theorem placement_order_independent :
    (∀ (pool : PoolMap) (requireRole : DiskEntry → Bool) (key : UInt64) (n : Nat) (scheme : RedundancyScheme)
        (ord ord' : IterOrder), pool.disks.size < 2 ^ 32 - 1 →
      placeRedundancy ord pool scheme key requireRole = placeRedundancy ord' pool scheme key requireRole ∧
      placeRedundancy ord pool scheme key requireRole ≠ .panic ∧
      ∃ ids, targets ord pool key n requireRole = some ids ∧ targets ord' pool key n requireRole = some ids) ∧
    (∀ (candidates candidates' : List DiskCandidate) (key : UInt64) (slots : List ReplicaSlotSpec)
        (out : List UInt32), candidates.Perm candidates' → candidates.Pairwise (fun a b => a.id ≠ b.id) →
        candidates.length < 2 ^ 32 - 1 →
      (placedDisks candidates (Kcore.placeRedundancy candidates key slots out)).map (Option.map DiskCandidate.id) =
        (placedDisks candidates' (Kcore.placeRedundancy candidates' key slots out)).map
          (Option.map DiskCandidate.id) ∧
      (hrwDisks candidates (hrwSelect candidates key out)).map (Option.map DiskCandidate.id) =
        (hrwDisks candidates' (hrwSelect candidates' key out)).map (Option.map DiskCandidate.id)) := by
  constructor
  · intro pool requireRole key n scheme ord ord' hpool
    have hwl := wellListed_candidatesOf ord requireRole hpool
    have hperm := candidatesOf_perm ord ord' pool requireRole
    refine ⟨?_, ?_, _, targets_eq hpool n, ?_⟩
    · cases scheme with
      | erasureCoded ds ps => rfl
      | replicated slots =>
          rw [placeRedundancy_eq hpool, placeRedundancy_eq hpool, outcomeDisks_perm hwl hperm]
    · cases scheme with
      | erasureCoded ds ps => simp [placeRedundancy]
      | replicated slots => simp [placeRedundancy_eq hpool]
    · rw [targets_eq hpool, outcomeDisks_perm hwl hperm]
  · intro candidates candidates' key slots out hperm hids hlen
    have hwl : WellListed candidates := ⟨hlen, hids⟩
    rw [placedDisks_perm hwl hperm, hrwDisks_perm hwl hperm]
    exact ⟨rfl, rfl⟩

/-- The three disks of the sample pool, listed backwards. -/
theorem placement_order_independent_threeDisks :
    (placedDisks threeDisks (Kcore.placeRedundancy threeDisks 7 threeSlots [0, 0, 0])).map
        (Option.map DiskCandidate.id) =
      (placedDisks threeDisks.reverse (Kcore.placeRedundancy threeDisks.reverse 7 threeSlots [0, 0, 0])).map
        (Option.map DiskCandidate.id) := by
  have hperm : threeDisks.Perm threeDisks.reverse := (List.reverse_perm threeDisks).symm
  exact (placement_order_independent.2 threeDisks threeDisks.reverse 7 threeSlots [0, 0, 0] hperm (by decide)
    (by decide)).1

end Tartine.Placement
