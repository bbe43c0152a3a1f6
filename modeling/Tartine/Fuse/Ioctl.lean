import Tartine.Core.Placement

/-!
# `Fuse.Ioctl` — the control interface's numbers and wire formats

`ioctl.rs`: command numbers, the reply of `GET_STATE`, and the 400-byte structure that carries a redundancy policy in
both directions. Buffers are byte lists; a field of a buffer whose length was checked is always there, so the reads of
the decoder have no failing case of their own.
-/

namespace Tartine.Fuse

open Basis Kcore Placement

def tartineIocMakeWritable : UInt32 := 0x40045401
def tartineIocGetState : UInt32 := 0x80185402
def tartineIocSetRedundancy : UInt32 := 0x41905403
def tartineIocGetRedundancy : UInt32 := 0x81905404

/-- Bit 0 of the flags of `MAKE_WRITABLE`: block until the conversion is complete. -/
def tartineConvertFlagWait : UInt32 := 1

def tartineModeAppendOnly : UInt32 := 0
def tartineModeConverting : UInt32 := 1
def tartineModeWritable : UInt32 := 2

/-! ## `TartineState` -/

structure TartineState where
  mode : UInt32
  bytesTotal : UInt64
  bytesConverted : UInt64
  deriving DecidableEq, Repr

/-- `to_bytes`: the mode, four bytes of padding, the two counts. -/
def TartineState.toBytes (s : TartineState) : Bytes :=
  leBytes 4 s.mode.toNat ++ List.replicate 4 0 ++ leBytes 8 s.bytesTotal.toNat ++ leBytes 8 s.bytesConverted.toNat

/-! ## Redundancy policies on the wire -/

def tartineRedundancyReplicated : UInt32 := 0
def tartineRedundancyErasureCoded : UInt32 := 1

def redundancyWireSize : Nat := 16 + maxSelect * 24

/-- `disk_class_from_wire`. -/
def diskClassFromWire (v : UInt8) : Option DiskClass :=
  if v = classHdd then some .hdd else if v = classSsd then some .ssd else if v = classNvme then some .nvme else none

/-- One slot of the wire format: class, pinned flag, six bytes of padding, the pinned id's two halves. -/
def encodeSlot (slot : ReplicaSlot) : Bytes :=
  let spec := slotToSpec slot
  [spec.requiredClass, spec.pinned] ++ List.replicate 6 0 ++ leBytes 8 spec.pinnedIdHi.toNat ++
    leBytes 8 spec.pinnedIdLo.toNat

/-- `encode_set_redundancy`: slots past the sixteenth are left out. -/
def encodeSetRedundancy : RedundancyScheme → Bytes
  | .replicated slots =>
      leBytes 4 tartineRedundancyReplicated.toNat ++ leBytes 4 (min slots.length maxSelect) ++ List.replicate 8 0 ++
        (slots.take maxSelect).flatMap encodeSlot ++ List.replicate ((maxSelect - slots.length) * 24) 0
  | .erasureCoded dataShards parityShards =>
      leBytes 4 tartineRedundancyErasureCoded.toNat ++ List.replicate 4 0 ++ [dataShards, parityShards] ++
        List.replicate (6 + maxSelect * 24) 0

/-- The `n` bytes of a buffer from `off`. -/
def field (buf : Bytes) (off n : Nat) : Bytes := (buf.drop off).take n

/-- The slot at position `i`. The source's classes `0..3` are the only ones known. -/
def decodeSlot (buf : Bytes) (i : Nat) : Option ReplicaSlot :=
  let base := 16 + i * 24
  let requiredClass := buf.getD base 0
  let pinned := buf.getD (base + 1) 0
  let hi := UInt64.ofNat (leNat (field buf (base + 8) 8))
  let lo := UInt64.ofNat (leNat (field buf (base + 16) 8))
  if pinned ≠ 0 then some (.pinned (diskIdFromHiLo hi lo))
  else if requiredClass = classAny then some (.anyOfClass none)
  else (diskClassFromWire requiredClass).map (fun c => .anyOfClass (some c))

/-- `decode_set_redundancy`. -/
def decodeSetRedundancy (buf : Bytes) : Option RedundancyScheme :=
  if buf.length ≠ redundancyWireSize then none
  else
    let schemeKind := UInt32.ofNat (leNat (field buf 0 4))
    if schemeKind = tartineRedundancyReplicated then
      let nSlots := leNat (field buf 4 4)
      -- no lower bound: a policy without slots is accepted
      if maxSelect < nSlots then none
      else ((List.range nSlots).mapM (decodeSlot buf)).map .replicated
    else if schemeKind = tartineRedundancyErasureCoded then some (.erasureCoded (buf.getD 8 0) (buf.getD 9 0))
    else none

/-- A decoded policy has at most sixteen slots. -/
theorem decodeSetRedundancy_slots {buf : Bytes} {slots : List ReplicaSlot}
    (h : decodeSetRedundancy buf = some (.replicated slots)) : slots.length ≤ 16 := by
  unfold decodeSetRedundancy at h
  split at h
  · cases h
  · dsimp only at h
    split at h
    · split at h
      · cases h
      · rename_i hle
        obtain ⟨slots', hmap, hslots⟩ := Option.map_eq_some_iff.mp h
        cases hslots
        have hlen : slots.length = leNat (field buf 4 4) := by
          rw [← (forall₂_of_mapM_some hmap).length_eq, List.length_range]
        unfold maxSelect at hle
        omega
    · split at h
      · cases h
      · cases h

end Tartine.Fuse
