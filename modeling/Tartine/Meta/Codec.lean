import Tartine.Basis.Decoder
import Tartine.Proto

/-!
# `Meta.Codec` — the binary encoding of metadata operations

`codec.rs`: fixed-width little-endian integers, length-prefixed lists and strings, one tag byte per enum. A
decoder that panics in the source (`buf[pos]` out of range, a bad tag, invalid UTF-8) is `none` here.

The round trip is proved field by field with the `Reads` rules: every `decodeX` run on `encodeX v` followed by
anything yields `v` and stops at the end of `encodeX v`, as long as lists and strings are shorter than `2^32`
(`Fits`), since a length is stored as `len() as u32`.
-/

namespace Tartine.Codec

open Basis

/-! ## `Encoder` and `Decoder` primitives -/

namespace Enc

def u8 (v : UInt8) : Bytes := [v]
def bool (v : Bool) : Bytes := u8 (if v then 1 else 0)
def u32 (v : UInt32) : Bytes := leBytes 4 v.toNat
def u64 (v : UInt64) : Bytes := leBytes 8 v.toNat
def u128 (v : BitVec 128) : Bytes := leBytes 16 v.toNat

/-- An `f64`, as its bit pattern. -/
def f64 (v : UInt64) : Bytes := leBytes 8 v.toNat

/-- `bytes`: the length as `u32`, then the bytes. -/
def bytes (b : Bytes) : Bytes := u32 (UInt32.ofNat b.length) ++ b

def str (s : String) : Bytes := bytes s.toUTF8.data.toList

/-- A list: its length as `u32`, then its elements. -/
def list {α : Type} (enc : α → Bytes) (l : List α) : Bytes := u32 (UInt32.ofNat l.length) ++ l.flatMap enc

end Enc

namespace Dec

def u8 : Decoder UInt8 := Decoder.byte

def bool : Decoder Bool := do
  let v ← u8
  pure (decide (v ≠ 0))

def u32 : Decoder UInt32 := do
  let v ← Decoder.le 4
  pure (UInt32.ofNat v)

def u64 : Decoder UInt64 := do
  let v ← Decoder.le 8
  pure (UInt64.ofNat v)

def u128 : Decoder (BitVec 128) := do
  let v ← Decoder.le 16
  pure (BitVec.ofNat 128 v)

def f64 : Decoder UInt64 := u64

def bytes : Decoder Bytes := do
  let n ← u32
  Decoder.bytes n.toNat

/-- `String::from_utf8(..).expect(..)`: invalid UTF-8 panics. -/
def str : Decoder String := Decoder.refine (fun bs => String.fromUTF8? ⟨bs.toArray⟩) bytes

def list {α : Type} (d : Decoder α) : Decoder (List α) := do
  let n ← u32
  Decoder.times n.toNat d

end Dec

theorem reads_u8 (v : UInt8) : Reads Dec.u8 (Enc.u8 v) v := reads_byte v

theorem reads_bool (v : Bool) : Reads Dec.bool (Enc.bool v) v := by
  cases v <;> exact (reads_u8 _).map

theorem reads_u32 (v : UInt32) : Reads Dec.u32 (Enc.u32 v) v := by
  have hlt : v.toNat < 256 ^ 4 := v.toNat_lt
  have := (reads_le hlt).map (f := UInt32.ofNat)
  rwa [UInt32.ofNat_toNat] at this

theorem reads_u64 (v : UInt64) : Reads Dec.u64 (Enc.u64 v) v := by
  have hlt : v.toNat < 256 ^ 8 := v.toNat_lt
  have := (reads_le hlt).map (f := UInt64.ofNat)
  rwa [UInt64.ofNat_toNat] at this

theorem reads_u128 (v : BitVec 128) : Reads Dec.u128 (Enc.u128 v) v := by
  have hlt : v.toNat < 256 ^ 16 := v.isLt
  have := (reads_le hlt).map (f := BitVec.ofNat 128)
  rwa [BitVec.ofNat_toNat, BitVec.setWidth_eq] at this

theorem toNat_length {n : Nat} (h : n < 2 ^ 32) : (UInt32.ofNat n).toNat = n := by
  rw [UInt32.toNat_ofNat']
  omega

theorem reads_bytesField {b : Bytes} (h : b.length < 2 ^ 32) : Reads Dec.bytes (Enc.bytes b) b := by
  refine (reads_u32 _).bind ?_
  rw [toNat_length h]
  exact reads_bytes b

theorem reads_str {s : String} (h : s.toUTF8.data.toList.length < 2 ^ 32) : Reads Dec.str (Enc.str s) s := by
  refine (reads_bytesField h).refine ?_
  have hbytes : (⟨s.toUTF8.data.toList.toArray⟩ : ByteArray) = s.toUTF8 := by
    rw [Array.toArray_toList]
  rw [hbytes, String.fromUTF8?, String.toUTF8_eq_toByteArray, dif_pos s.isValidUTF8]
  rfl

theorem reads_list {α : Type} {d : Decoder α} {enc : α → Bytes} {l : List α} (hlen : l.length < 2 ^ 32)
    (h : ∀ a ∈ l, Reads d (enc a) a) : Reads (Dec.list d) (Enc.list enc l) l := by
  refine (reads_u32 _).bind ?_
  rw [toNat_length hlen]
  exact Reads.times h

/-! ## Records: encoders and decoders -/

def encodeUuid (id : Uuid) : Bytes := Enc.u128 id.val

def decodeUuid : Decoder Uuid := do
  let v ← Dec.u128
  pure ⟨v⟩

def encodeDiskClass : DiskClass → Bytes
  | .hdd  => Enc.u8 0
  | .ssd  => Enc.u8 1
  | .nvme => Enc.u8 2

def decodeDiskClass : Decoder DiskClass := Decoder.refine (fun tag =>
  if tag = 0 then some .hdd else if tag = 1 then some .ssd else if tag = 2 then some .nvme else none) Dec.u8

def encodeReplicaSlot : ReplicaSlot → Bytes
  | .anyOfClass none     => Enc.u8 0
  | .anyOfClass (some c) => Enc.u8 1 ++ encodeDiskClass c
  | .pinned id           => Enc.u8 2 ++ encodeUuid id

def decodeReplicaSlot : Decoder ReplicaSlot := do
  let tag ← Dec.u8
  if tag = 0 then pure (.anyOfClass none)
  else if tag = 1 then do
    let c ← decodeDiskClass
    pure (.anyOfClass (some c))
  else if tag = 2 then do
    let id ← decodeUuid
    pure (.pinned id)
  else Decoder.fail

def encodeRedundancyScheme : RedundancyScheme → Bytes
  | .replicated slots   => Enc.u8 0 ++ Enc.list encodeReplicaSlot slots
  | .erasureCoded ds ps => Enc.u8 1 ++ (Enc.u8 ds ++ Enc.u8 ps)

def decodeRedundancyScheme : Decoder RedundancyScheme := do
  let tag ← Dec.u8
  if tag = 0 then do
    let slots ← Dec.list decodeReplicaSlot
    pure (.replicated slots)
  else if tag = 1 then do
    let ds ← Dec.u8
    let ps ← Dec.u8
    pure (.erasureCoded ds ps)
  else Decoder.fail

def encodeInodeMode : InodeMode → Bytes
  | .appendOnly => Enc.u8 0
  | .converting => Enc.u8 1
  | .writable   => Enc.u8 2

def decodeInodeMode : Decoder InodeMode := Decoder.refine (fun tag =>
  if tag = 0 then some .appendOnly else if tag = 1 then some .converting else if tag = 2 then some .writable
  else none) Dec.u8

def encodeReplicaOffset (r : DiskId × UInt64) : Bytes := encodeUuid r.1 ++ Enc.u64 r.2

def decodeReplicaOffset : Decoder (DiskId × UInt64) := do
  let id ← decodeUuid
  let offset ← Dec.u64
  pure (id, offset)

def encodeReplicaOffsets (replicas : List (DiskId × UInt64)) : Bytes := Enc.list encodeReplicaOffset replicas

def decodeReplicaOffsets : Decoder (List (DiskId × UInt64)) := Dec.list decodeReplicaOffset

def encodeChunkPointer (c : ChunkPointer) : Bytes :=
  Enc.u64 c.chunkSeq ++ (encodeReplicaOffsets c.replicas ++ (Enc.u32 c.len ++ Enc.u32 c.checksum))

def decodeChunkPointer : Decoder ChunkPointer := do
  let chunkSeq ← Dec.u64
  let replicas ← decodeReplicaOffsets
  let len ← Dec.u32
  let checksum ← Dec.u32
  pure { chunkSeq, replicas, len, checksum }

def encodeExtent (x : Extent) : Bytes :=
  Enc.u64 x.fileOffset ++ (Enc.u32 x.len ++ (encodeReplicaOffsets x.replicas ++ Enc.u32 x.checksum))

def decodeExtent : Decoder Extent := do
  let fileOffset ← Dec.u64
  let len ← Dec.u32
  let replicas ← decodeReplicaOffsets
  let checksum ← Dec.u32
  pure { fileOffset, len, replicas, checksum }

def encodeDataLocator : DataLocator → Bytes
  | .chunkLog v => Enc.u8 0 ++ Enc.list encodeChunkPointer v
  | .extents v  => Enc.u8 1 ++ Enc.list encodeExtent v

def decodeDataLocator : Decoder DataLocator := do
  let tag ← Dec.u8
  if tag = 0 then do
    let v ← Dec.list decodeChunkPointer
    pure (.chunkLog v)
  else if tag = 1 then do
    let v ← Dec.list decodeExtent
    pure (.extents v)
  else Decoder.fail

def encodeInodeRecord (r : InodeRecord) : Bytes :=
  Enc.u64 r.inode ++ (encodeInodeMode r.mode ++ (Enc.u64 r.size ++ (encodeRedundancyScheme r.redundancy ++
    (encodeDataLocator r.data ++ (Enc.u32 r.uid ++ (Enc.u32 r.gid ++ (Enc.u32 r.unixMode ++
      Enc.u64 r.mtimeUnix)))))))

def decodeInodeRecord : Decoder InodeRecord := do
  let inode ← Dec.u64
  let mode ← decodeInodeMode
  let size ← Dec.u64
  let redundancy ← decodeRedundancyScheme
  let data ← decodeDataLocator
  let uid ← Dec.u32
  let gid ← Dec.u32
  let unixMode ← Dec.u32
  let mtimeUnix ← Dec.u64
  pure { inode, mode, size, redundancy, data, uid, gid, unixMode, mtimeUnix }

def encodeDiskRoles (r : DiskRoles) : Bytes :=
  Enc.u8 ((if r.data then (1 : UInt8) else 0) ||| ((if r.metadata then (1 : UInt8) else 0) <<< 1))

def decodeDiskRoles : Decoder DiskRoles := do
  let b ← Dec.u8
  pure { data := decide (b &&& 1 ≠ 0), metadata := decide (b &&& 2 ≠ 0) }

def encodeDiskState : DiskState → Bytes
  | .active   => Enc.u8 0
  | .draining => Enc.u8 1
  | .dead     => Enc.u8 2

def decodeDiskState : Decoder DiskState := Decoder.refine (fun tag =>
  if tag = 0 then some .active else if tag = 1 then some .draining else if tag = 2 then some .dead
  else none) Dec.u8

def encodeDiskEntry (e : DiskEntry) : Bytes :=
  encodeDiskRoles e.roles ++ (encodeDiskState e.state ++ (encodeDiskClass e.cls ++ (Enc.f64 e.weight ++
    (Enc.u64 e.usedBytes ++ Enc.u64 e.capacityBytes))))

def decodeDiskEntry : Decoder DiskEntry := do
  let roles ← decodeDiskRoles
  let state ← decodeDiskState
  let cls ← decodeDiskClass
  let weight ← Dec.f64
  let usedBytes ← Dec.u64
  let capacityBytes ← Dec.u64
  pure { roles, state, cls, weight, usedBytes, capacityBytes }

def encodePoolEntry (e : DiskId × DiskEntry) : Bytes := encodeUuid e.1 ++ encodeDiskEntry e.2

def decodePoolEntry : Decoder (DiskId × DiskEntry) := do
  let id ← decodeUuid
  let entry ← decodeDiskEntry
  pure (id, entry)

/-- The map is written in whatever order iteration yields its entries. -/
def encodePoolMap (ord : IterOrder) (pm : PoolMap) : Bytes :=
  Enc.u64 pm.epoch ++ Enc.list encodePoolEntry (pm.iter ord)

/-- Entries are inserted one by one into a fresh map. -/
def decodePoolMap : Decoder PoolMap := do
  let epoch ← Dec.u64
  let entries ← Dec.list decodePoolEntry
  pure { epoch, disks := entries.foldl (fun m e => m.insert e.1 e.2) ∅ }

def encodeMetaGroup (g : MetaGroup) : Bytes :=
  encodeUuid g.primary ++ (Enc.bool g.backup.isSome ++ (g.backup.elim [] encodeUuid ++ Enc.u64 g.epoch))

def decodeMetaGroup : Decoder MetaGroup := do
  let primary ← decodeUuid
  let hasBackup ← Dec.bool
  let backup ← if hasBackup then (do let b ← decodeUuid; pure (some b)) else pure none
  let epoch ← Dec.u64
  pure { primary, backup, epoch }

def encodeOp (ord : IterOrder) : MetaOp → Bytes
  | .createInode rec                => Enc.u8 0 ++ encodeInodeRecord rec
  | .link parent name child         => Enc.u8 1 ++ (Enc.u64 parent ++ (Enc.str name ++ Enc.u64 child))
  | .unlink parent name             => Enc.u8 2 ++ (Enc.u64 parent ++ Enc.str name)
  | .appendChunk inode chunk        => Enc.u8 3 ++ (Enc.u64 inode ++ encodeChunkPointer chunk)
  | .beginConvert inode             => Enc.u8 4 ++ Enc.u64 inode
  | .completeConvert inode extents  => Enc.u8 5 ++ (Enc.u64 inode ++ Enc.list encodeExtent extents)
  | .setRedundancyScheme inode s    => Enc.u8 6 ++ (Enc.u64 inode ++ encodeRedundancyScheme s)
  | .poolMapChange pm               => Enc.u8 7 ++ encodePoolMap ord pm
  | .metaGroupChange mg             => Enc.u8 8 ++ encodeMetaGroup mg
  | .updateExtents inode extents    => Enc.u8 9 ++ (Enc.u64 inode ++ Enc.list encodeExtent extents)

/-- What follows each operation's tag byte. -/
def decodeOpBody (tag : UInt8) : Decoder MetaOp :=
  if tag = 0 then do
    let rec ← decodeInodeRecord
    pure (.createInode rec)
  else if tag = 1 then do
    let parent ← Dec.u64
    let name ← Dec.str
    let child ← Dec.u64
    pure (.link parent name child)
  else if tag = 2 then do
    let parent ← Dec.u64
    let name ← Dec.str
    pure (.unlink parent name)
  else if tag = 3 then do
    let inode ← Dec.u64
    let chunk ← decodeChunkPointer
    pure (.appendChunk inode chunk)
  else if tag = 4 then do
    let inode ← Dec.u64
    pure (.beginConvert inode)
  else if tag = 5 then do
    let inode ← Dec.u64
    let extents ← Dec.list decodeExtent
    pure (.completeConvert inode extents)
  else if tag = 6 then do
    let inode ← Dec.u64
    let scheme ← decodeRedundancyScheme
    pure (.setRedundancyScheme inode scheme)
  else if tag = 7 then do
    let pm ← decodePoolMap
    pure (.poolMapChange pm)
  else if tag = 8 then do
    let mg ← decodeMetaGroup
    pure (.metaGroupChange mg)
  else if tag = 9 then do
    let inode ← Dec.u64
    let extents ← Dec.list decodeExtent
    pure (.updateExtents inode extents)
  else Decoder.fail

/-- `decode_op` as a decoder. -/
def opDecoder : Decoder MetaOp := do
  let tag ← Dec.u8
  decodeOpBody tag

/-- `decode_op`: `none` where the source panics. Trailing bytes are ignored. -/
def decodeOp (bytes : Bytes) : Option MetaOp := (opDecoder bytes).map Prod.fst

end Tartine.Codec
