import Tartine.Core.Disk
import Tartine.Kcore.PlacementGreedy

/-!
# `Core.Placement` — placing a file's replicas over the pool map

`tartine-core/src/placement.rs`: a pool map and a redundancy scheme are turned into the fixed-layout candidates and
slot specs of the kernel core, and the indices it returns back into disk ids.

* `length_placeRedundancy` — one entry per slot, at most 16.
-/

namespace Tartine.Placement

open Basis Kcore

/-- `placement_key`. -/
def placementKey (inode seq : UInt64) : UInt64 := hashKey inode seq

/-- `disk_id_to_hi_lo`. -/
def diskIdToHiLo (id : DiskId) : UInt64 × UInt64 :=
  (UInt64.ofNat (id.val.toNat >>> 64), UInt64.ofNat id.val.toNat)

/-- `disk_id_from_hi_lo`. -/
def diskIdFromHiLo (hi lo : UInt64) : DiskId := ⟨diskId128 hi lo⟩

/-- A natural rounded to 53 significant bits, ties to even: the significand and the exponent left over. -/
def round53 (n : Nat) : Nat × Nat :=
  let k := n.log2 + 1 - 53
  let q := n >>> k
  let rest := n - q <<< k
  let half := 2 ^ k / 2
  if k = 0 then (n, 0)
  else if half < rest ∨ (half = rest ∧ q % 2 = 1) then (q + 1, k)
  else (q, k)

/-- `(weight.max(0.0) * 1000.0) as u32` on the weight's bit pattern: NaN and negative weights count as zero, the
    product is rounded to a double, and the cast truncates and saturates. -/
def weightMilli (weight : UInt64) : UInt32 :=
  let exp := (weight.toNat >>> 52) % 2 ^ 11
  let frac := weight.toNat % 2 ^ 52
  if 2 ^ 63 ≤ weight.toNat then 0
  else if exp = 2 ^ 11 - 1 then if frac = 0 then 0xffffffff else 0
  else
    let m := if exp = 0 then frac else frac + 2 ^ 52
    -- the value is `m * 2 ^ (max exp 1) / 2 ^ 1075`
    let (q, k) := round53 (m * 1000)
    let v := (q <<< (k + max exp 1)) >>> 1075
    UInt32.ofNat (min v (2 ^ 32 - 1))

def toCandidate (id : DiskId) (entry : DiskEntry) : DiskCandidate :=
  { diskIdHi := (diskIdToHiLo id).1
    diskIdLo := (diskIdToHiLo id).2
    weightMilli := weightMilli entry.weight
    active := if entry.state = .active then 1 else 0
    cls := entry.cls.toFfi }

/-- `targets`: up to `n` active disks for `key`, highest score first. `ids[idx]` out of range would panic (`none`). -/
def targets (ord : IterOrder) (pool : PoolMap) (key : UInt64) (n : Nat) (requireRole : DiskEntry → Bool) :
    Option (List DiskId) :=
  let disks := (pool.iter ord).filter (fun e => requireRole e.2)
  let ids := disks.map Prod.fst
  let candidates := disks.map (fun e => toCandidate e.1 e.2)
  let out := List.replicate (min n maxSelect) 0
  let filled := hrwSelect candidates key out
  (filled.2.take filled.1).mapM (fun idx => ids[idx.toNat]?)

inductive PlaceError where
  | erasureCodedUnimplemented
  deriving DecidableEq, Repr

def slotToSpec : ReplicaSlot → ReplicaSlotSpec
  | .anyOfClass none     => ⟨classAny, 0, 0, 0⟩
  | .anyOfClass (some c) => ⟨c.toFfi, 0, 0, 0⟩
  | .pinned id           => ⟨classAny, 1, (diskIdToHiLo id).1, (diskIdToHiLo id).2⟩

/-- One index the kernel core returned: a disk, or an unplaced slot. `ids[idx]` out of range would panic. -/
def diskOf (ids : List DiskId) (idx : UInt32) : Res PlaceError (Option DiskId) :=
  if idx = unplaced then .ok none
  else
    match ids[idx.toNat]? with
    | none    => .panic
    | some id => .ok (some id)

/-- `place_redundancy`. -/
def placeRedundancy (ord : IterOrder) (pool : PoolMap) (scheme : RedundancyScheme) (key : UInt64)
    (requireRole : DiskEntry → Bool) : Res PlaceError (List (Option DiskId)) :=
  match scheme with
  | .erasureCoded _ _ => .err .erasureCodedUnimplemented
  | .replicated slots =>
      let disks := (pool.iter ord).filter (fun e => requireRole e.2)
      let ids := disks.map Prod.fst
      let candidates := disks.map (fun e => toCandidate e.1 e.2)
      let specs := slots.map slotToSpec
      let out := List.replicate (min specs.length maxSelect) 0
      let placed := Kcore.placeRedundancy candidates key specs out
      (placed.2.take placed.1).mapM (diskOf ids)

/-! ## What placement returns -/

variable {ord : IterOrder} {pool : PoolMap} {scheme : RedundancyScheme} {key : UInt64}
  {requireRole : DiskEntry → Bool} {placed : List (Option DiskId)}

/-- **Only a replicated scheme is placed, and then slot by slot.** -/
theorem length_placeRedundancy (h : placeRedundancy ord pool scheme key requireRole = .ok placed) :
    ∃ slots, scheme = .replicated slots ∧ placed.length = min slots.length maxSelect := by
  cases scheme with
  | erasureCoded ds ps => cases h
  | replicated slots =>
      refine ⟨slots, rfl, ?_⟩
      unfold placeRedundancy at h
      dsimp only at h
      rw [placeRedundancy_fst, take_placeRedundancy] at h
      rw [← (Res.forall₂_of_mapM h).length_eq, List.length_map, length_outcomes, List.length_take]
      unfold walked
      simp only [List.length_map, List.length_replicate]
      omega

/-- **Placement does not panic**: every index that comes back is the index of a disk. -/
theorem placeRedundancy_ne_panic (ord : IterOrder) (pool : PoolMap) (scheme : RedundancyScheme) (key : UInt64)
    (requireRole : DiskEntry → Bool) : placeRedundancy ord pool scheme key requireRole ≠ .panic := by
  cases scheme with
  | erasureCoded ds ps => exact fun h => by cases h
  | replicated slots =>
      unfold placeRedundancy
      dsimp only
      refine Res.mapM_ne_panic fun idx hidx => ?_
      rw [placeRedundancy_fst, take_placeRedundancy] at hidx
      obtain ⟨o, ho, rfl⟩ := List.mem_map.mp hidx
      unfold diskOf
      split
      · exact fun h => by cases h
      · rename_i hplaced
        cases o with
        | none => exact absurd rfl hplaced
        | some u =>
            obtain ⟨i, hi, rfl⟩ := outcomes_index ho
            have hle : (UInt32.ofNat i).toNat ≤ i := by
              rw [UInt32.toNat_ofNat']
              exact Nat.mod_le _ _
            have hlt : (UInt32.ofNat i).toNat < (((pool.iter ord).filter (fun e => requireRole e.2)).map Prod.fst).length := by
              rw [List.length_map] at hi ⊢
              omega
            rw [Option.getD_some, List.getElem?_eq_getElem hlt]
            exact fun h => by cases h

end Tartine.Placement
