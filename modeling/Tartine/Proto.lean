import Mathlib.Data.List.Basic
import Std.Data.ExtTreeMap

/-!
# `Proto` — the shared vocabulary: ids, disks, inodes, metadata operations

The types of `tartine-proto`. Machine integers keep their width (`UInt64`, `UInt32`, `UInt8`; a 128-bit id is a
`BitVec 128`), so a record can only hold what the source's record can hold. Hash maps are extensional finite maps
(`ExtTreeMap`): two of them are equal exactly when they have the same entries. An `f64` weight is its bit
pattern.
-/

namespace Tartine

/-- A 128-bit identifier. -/
structure Uuid where
  val : BitVec 128
  deriving DecidableEq, Repr

instance : Ord Uuid := ⟨fun a b => compare a.val b.val⟩

instance : Std.TransOrd Uuid := inferInstanceAs (Std.TransCmp (compareOn Uuid.val))

instance : Std.LawfulEqOrd Uuid where
  eq_of_compare {a b} h := by
    have hcmp : compare a.val b.val = .eq := h
    have hval : a.val = b.val := Std.LawfulEqCmp.eq_of_compare hcmp
    cases a; cases b
    exact congrArg Uuid.mk hval

abbrev InodeId := UInt64
abbrev DiskId := Uuid
abbrev Bytes := List UInt8

/-- A disk can serve file data, hold a metadata replica, or both. -/
structure DiskRoles where
  data : Bool
  metadata : Bool
  deriving DecidableEq, Repr

inductive DiskState where
  | active
  | draining
  | dead
  deriving DecidableEq, Repr

/-- A disk's storage tier. -/
inductive DiskClass where
  | hdd
  | ssd
  | nvme
  deriving DecidableEq, Repr

/-- `DiskClass::to_ffi`. -/
def DiskClass.toFfi : DiskClass → UInt8
  | .hdd  => 1
  | .ssd  => 2
  | .nvme => 3

structure DiskEntry where
  roles : DiskRoles
  state : DiskState
  cls : DiskClass
  /-- The bit pattern of the `f64` placement weight. -/
  weight : UInt64
  usedBytes : UInt64
  capacityBytes : UInt64
  deriving DecidableEq, Repr

/-- The pool's membership, versioned by `epoch`. -/
structure PoolMap where
  epoch : UInt64
  disks : Std.ExtTreeMap DiskId DiskEntry

/-- The order in which a hash map happens to be iterated: some permutation of its entries. -/
structure IterOrder where
  order : List (DiskId × DiskEntry) → List (DiskId × DiskEntry)
  perm : ∀ l, (order l).Perm l

/-- The disks of a pool map, as one iteration over it yields them. -/
def PoolMap.iter (ord : IterOrder) (pm : PoolMap) : List (DiskId × DiskEntry) := ord.order pm.disks.toList

/-- The metadata disks and the fencing epoch. -/
structure MetaGroup where
  primary : DiskId
  backup : Option DiskId
  epoch : UInt64
  deriving DecidableEq, Repr

/-- A file's lifecycle. -/
inductive InodeMode where
  | appendOnly
  | converting
  | writable
  deriving DecidableEq, Repr

/-- One chunk of an append-only file: its replicas are `(disk, offset in that disk's data region)`. -/
structure ChunkPointer where
  chunkSeq : UInt64
  replicas : List (DiskId × UInt64)
  len : UInt32
  checksum : UInt32
  deriving DecidableEq, Repr

/-- One extent of a writable file. -/
structure Extent where
  fileOffset : UInt64
  len : UInt32
  replicas : List (DiskId × UInt64)
  checksum : UInt32
  deriving DecidableEq, Repr

inductive DataLocator where
  | chunkLog (chunks : List ChunkPointer)
  | extents (extents : List Extent)
  deriving DecidableEq, Repr

/-- One replica slot: any active disk (of a class), or exactly this disk. -/
inductive ReplicaSlot where
  | anyOfClass (cls : Option DiskClass)
  | pinned (id : DiskId)
  deriving DecidableEq, Repr

/-- A file's redundancy policy. -/
inductive RedundancyScheme where
  | replicated (slots : List ReplicaSlot)
  | erasureCoded (dataShards parityShards : UInt8)
  deriving DecidableEq, Repr

structure InodeRecord where
  inode : InodeId
  mode : InodeMode
  size : UInt64
  redundancy : RedundancyScheme
  data : DataLocator
  uid : UInt32
  gid : UInt32
  unixMode : UInt32
  mtimeUnix : UInt64
  deriving DecidableEq, Repr

/-- Metadata mutations: logged before they are applied. -/
inductive MetaOp where
  | createInode (rec : InodeRecord)
  | link (parent : InodeId) (name : String) (child : InodeId)
  | unlink (parent : InodeId) (name : String)
  | appendChunk (inode : InodeId) (chunk : ChunkPointer)
  | beginConvert (inode : InodeId)
  | completeConvert (inode : InodeId) (extents : List Extent)
  | setRedundancyScheme (inode : InodeId) (scheme : RedundancyScheme)
  | poolMapChange (pm : PoolMap)
  | metaGroupChange (mg : MetaGroup)
  | updateExtents (inode : InodeId) (extents : List Extent)

end Tartine
