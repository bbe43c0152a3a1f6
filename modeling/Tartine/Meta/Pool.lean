import Tartine.Core.Placement
import Tartine.Core.Segment
import Tartine.Meta.Recovery

/-!
# `Meta.Pool` — disks, placement and metadata as one pool

`pool.rs`. An operation is a program over the disks and the pool (`PoolM`), written as the source writes it, `?` being
the sequencing of `Action`. Every operation that changes a file has two phases: it reads the inode, places and writes
the bytes on the disks chosen (the *data phase*), and then hands one metadata operation to `MetaStore::apply`. The data
phases are definitions of their own (`prepareAppend`, `prepareCompleteConvert`, `prepareWrite`), so that what an
operation hands to the log can be spoken of.

Disk `i` of the pool is the file at position `i` of the world; its id is `i + 1`. Cursors count bytes of a disk's data
region. A cursor, a file offset or an address past `2^64` panics, as the source's arithmetic does.
-/

namespace Tartine

open Basis Codec

/-! ## Constants and errors -/

def superblockReserveBytes : Nat := 4096
def walBaseOffset : Nat := superblockReserveBytes
def segmentBaseOffset : Nat := walBaseOffset + Wal.walCapacityBytes
def diskFileCapacityBytes : Nat := segmentBaseOffset + Segment.segmentSizeBytes

/-- The log's region ends before the data region, also when it starts at offset zero. -/
theorem walCapacity_le_segmentBase : Wal.walCapacityBytes ≤ segmentBaseOffset := Nat.le_add_left _ _

def rootInode : InodeId := 1

def sIfdir : UInt32 := 0o040000
def sIfreg : UInt32 := 0o100000

inductive PoolError where
  | io (e : IoError)
  | metaErr (e : MetaStoreError)
  | unplaceable
  | notFound
  | wrongMode
  | noDisks
  deriving DecidableEq, Repr

/-- A member disk and the bump-allocator cursor into its data region. -/
structure DiskHandle where
  disk : DiskRef
  cursor : Nat
  deriving DecidableEq, Repr

structure Pool where
  poolMap : PoolMap
  disks : Std.ExtTreeMap DiskId DiskHandle
  metaStore : MetaStore

/-- A pool operation: it finds disks and a pool, and leaves disks and a pool however it ends. -/
abbrev PoolM := Action (World × Pool) PoolError

namespace Pool

/-! ## `format` and `open` -/

/-- `disk_ids_for`: the id of the disk at position `i`. -/
def diskId (i : Nat) : DiskId := ⟨BitVec.ofNat 128 (i + 1)⟩

/-- The `f64` `1.0`. -/
def weightOne : UInt64 := 0x3ff0000000000000

/-- The entry of disk `i` of class `cls`. -/
def diskEntry (i : Nat) (cls : DiskClass) : DiskEntry :=
  { roles := ⟨true, decide (i < 2)⟩, state := .active, cls := cls, weight := weightOne, usedBytes := 0,
    capacityBytes := UInt64.ofNat diskFileCapacityBytes }

/-- The pool map over disks of the given classes. -/
def poolMapOf (classes : List DiskClass) : PoolMap :=
  { epoch := 0, disks := classes.zipIdx.foldl (fun m e => m.insert (diskId e.2) (diskEntry e.2 e.1)) ∅ }

/-- The handles of `n` disks, each with its own cursor. -/
def handlesOf (n : Nat) (cursor : Nat → Nat) : Std.ExtTreeMap DiskId DiskHandle :=
  (List.range n).foldl (fun m i => m.insert (diskId i) ⟨i, cursor i⟩) ∅

/-- The metadata group over `n` disks: the first, and the second if there is one. -/
def groupOf (n : Nat) : MetaGroup := ⟨diskId 0, if 2 ≤ n then some (diskId 1) else none, 0⟩

def backupOf (n : Nat) : Option DiskRef := if 2 ≤ n then some 1 else none

/-- `?` on a metadata result. -/
def liftMeta {α : Type} : Res MetaStoreError α → Res PoolError α := Res.mapErr .metaErr

/-- The metadata step of an operation: `self.meta.apply(op)?`. -/
def applyMeta (env : Env) (op : MetaOp) : PoolM Unit := fun (w, p) =>
  match p.metaStore.apply env w op with
  | (r, w, s) => (liftMeta r, w, { p with metaStore := s })

def rootRecord (n : Nat) (now : UInt64) : InodeRecord :=
  { inode := rootInode, mode := .writable, size := 0,
    redundancy := .replicated (List.replicate (min 2 n) (.anyOfClass none)), data := .extents [],
    uid := 0, gid := 0, unixMode := sIfdir ||| 0o755, mtimeUnix := now }

/-- The world once `n` disk files have been created. -/
def createDisks (w : World) (n : Nat) : World :=
  { w with disk := fun r => if r < n then .create diskFileCapacityBytes else w.disk r }

/-- `format_with_classes` over `n` fresh paths: creates the disk files, opens the metadata store on them and logs the
    root directory as its first operation. -/
def formatWithClasses (env : Env) (w : World) (n : Nat) (classes : List DiskClass) (now : UInt64) :
    Res PoolError Unit × World × Option Pool :=
  if n = 0 then (.err .noDisks, w, none)
  else if n ≠ classes.length then (.panic, w, none)
  else
    let w := createDisks w n
    match MetaStore.openStore w (groupOf n) 0 (backupOf n) with
    | .err e => (.err (.metaErr e), w, none)
    | .panic => (.panic, w, none)
    | .ok s  =>
        let p : Pool := ⟨poolMapOf classes, handlesOf n (fun _ => 0), s⟩
        match applyMeta env (.createInode (rootRecord n now)) (w, p) with
        | (.ok (), w, p) => (.ok (), w, some p)
        | (.err e, w, _) => (.err e, w, none)
        | (.panic, w, _) => (.panic, w, none)

/-- `format`: every disk is an `Hdd`. -/
def format (env : Env) (w : World) (n : Nat) (now : UInt64) : Res PoolError Unit × World × Option Pool :=
  formatWithClasses env w n (List.replicate n .hdd) now

/-- `open_with_classes`: scans every disk's data region for its cursor and replays the metadata log. -/
def openWithClasses (w : World) (n : Nat) (classes : List DiskClass) : Res PoolError Pool :=
  if n = 0 then .err .noDisks
  else if n ≠ classes.length then .panic
  else do
    let cursor := fun i => (Segment.scan (w.disk i) segmentBaseOffset).resumeAt
    let s ← liftMeta (MetaStore.openStore w (groupOf n) 0 (backupOf n))
    pure ⟨poolMapOf classes, handlesOf n cursor, s⟩

/-- `open`. -/
def openPool (w : World) (n : Nat) : Res PoolError Pool := openWithClasses w n (List.replicate n .hdd)

/-! ## Readers -/

def diskCount (p : Pool) : Nat := p.disks.toList.length

/-- `get_inode`. -/
def getInode (p : Pool) (id : InodeId) : Res PoolError (Option InodeRecord) := liftMeta (p.metaStore.getInode id)

/-- `get_inode(inode)?.ok_or(NotFound)?`. -/
def findInode (p : Pool) (id : InodeId) : Res PoolError InodeRecord := do
  match ← p.getInode id with
  | none     => .err .notFound
  | some rec => pure rec

/-- `read_replicated`: from the first replica only, `headerLen` bytes past its offset. -/
def readReplicated (w : World) (p : Pool) (replicas : List (DiskId × UInt64)) (headerLen len : Nat) :
    Res PoolError Bytes :=
  match replicas with
  | []                  => .err .unplaceable
  | (diskId, offset) :: _ =>
      match p.disks[diskId]? with
      | none        => .err .notFound
      | some handle =>
          if 2 ^ 64 ≤ segmentBaseOffset + offset.toNat + headerLen then .panic
          else
            match (w.disk handle.disk).readAt (segmentBaseOffset + offset.toNat + headerLen) len with
            | none     => .err (.io .unexpectedEof)
            | some buf => .ok buf

/-- `out[start..start + bytes.len()].copy_from_slice(&bytes)`: out of range panics. -/
def copyInto (out : Bytes) (start : Nat) (bytes : Bytes) : Res PoolError Bytes :=
  if start + bytes.length ≤ out.length then .ok (out.take start ++ bytes ++ out.drop (start + bytes.length))
  else .panic

/-- `read_full_content`: chunks one after another, or extents copied into a zeroed buffer. -/
def readFullContent (w : World) (p : Pool) (rec : InodeRecord) : Res PoolError Bytes :=
  match rec.data with
  | .chunkLog chunks =>
      chunks.foldlM (fun out chunk => do
        let bytes ← p.readReplicated w chunk.replicas Segment.headerLen chunk.len.toNat
        pure (out ++ bytes)) []
  | .extents extents =>
      extents.foldlM (fun out extent => do
        let bytes ← p.readReplicated w extent.replicas 0 extent.len.toNat
        copyInto out extent.fileOffset.toNat bytes) (List.replicate rec.size.toNat 0)

/-- `read`: the whole content, then the slice asked for. -/
def read (w : World) (p : Pool) (inode : InodeId) (offset len : UInt64) : Res PoolError Bytes := do
  let rec ← p.findInode inode
  let content ← p.readFullContent w rec
  let start := min offset.toNat content.length
  let stop := min (min (start + len.toNat) (2 ^ 64 - 1)) content.length
  pure ((content.take stop).drop start)

/-! ## Writers: the data phases -/

/-- `place`: every slot must be placed. -/
def place (ord : IterOrder) (p : Pool) (scheme : RedundancyScheme) (key : UInt64) : Res PoolError (List DiskId) := do
  let placed ← (Placement.placeRedundancy ord p.poolMap scheme key (fun e => e.roles.data)).mapErr
    (fun _ => PoolError.unplaceable)
  match placed.mapM id with
  | none     => .err .unplaceable
  | some ids => .ok ids

/-- One turn of the replica loop: write at the disk's cursor (`writeOne` returns the cursor after it) and report
    where. -/
def writeReplica (writeOne : World → DiskHandle → Res PoolError Nat × World) (id : DiskId) :
    PoolM (DiskId × UInt64) := fun (w, p) =>
  match p.disks[id]? with
  | none        => (.err .unplaceable, w, p)
  | some handle =>
      match writeOne w handle with
      | (.err e, w)     => (.err e, w, p)
      | (.panic, w)     => (.panic, w, p)
      | (.ok cursor, w) =>
          (.ok (id, UInt64.ofNat handle.cursor), w,
            { p with disks := p.disks.insert id { handle with cursor := cursor } })

/-- The replica loop shared by appends and extents. It stops at the first disk that fails; the disks before it keep
    their new cursors. -/
def writeReplicas (writeOne : World → DiskHandle → Res PoolError Nat × World) :
    List DiskId → PoolM (List (DiskId × UInt64))
  | []        => pure []
  | id :: ids => do
      let written ← writeReplica writeOne id
      let rest ← writeReplicas writeOne ids
      pure (written :: rest)

/-- One chunk record on one disk, through a `SegmentWriter` resumed at the disk's cursor. -/
def appendRecord (env : Env) (record : Segment.Record) (w : World) (handle : DiskHandle) :
    Res PoolError Nat × World :=
  let writer := Segment.SegmentWriter.resume handle.disk segmentBaseOffset handle.cursor
  match writer.append env w record with
  | (.error e, w, _)   => (.err (.io e), w)
  | (.ok _, w, writer) =>
      match writer.sync env w with
      | (.error e, w) => (.err (.io e), w)
      | (.ok (), w)   => (.ok writer.cursor, w)

/-- A whole file's content on one disk, unframed and without a bound on the region. -/
def storeExtent (env : Env) (content : Bytes) (w : World) (handle : DiskHandle) : Res PoolError Nat × World :=
  if 2 ^ 64 ≤ segmentBaseOffset + handle.cursor then (.panic, w)
  else
    match w.writeSync env handle.disk (segmentBaseOffset + handle.cursor) content with
    | (.error e, w) => (.err (.io e), w)
    | (.ok (), w)   =>
        if 2 ^ 64 ≤ handle.cursor + content.length then (.panic, w) else (.ok (handle.cursor + content.length), w)

/-- What `append` does before it writes: the file's mode, the next sequence number, the disks. -/
def planAppend (ord : IterOrder) (p : Pool) (inode : InodeId) : Res PoolError (UInt64 × List DiskId) := do
  let rec ← p.findInode inode
  if rec.mode ≠ .appendOnly ∧ rec.mode ≠ .converting then .err .wrongMode
  else
    match rec.data with
    | .extents _       => .err .wrongMode
    | .chunkLog chunks => do
        let chunkSeq := UInt64.ofNat chunks.length
        let ids ← p.place ord rec.redundancy (Placement.placementKey inode chunkSeq)
        pure (chunkSeq, ids)

/-- The data phase of `append`. -/
def prepareAppend (env : Env) (inode : InodeId) (payload : Bytes) : PoolM MetaOp := do
  let (chunkSeq, ids) ← Action.reads (fun (_, p) => p.planAppend env.ord inode)
  let record := Segment.Record.new inode chunkSeq payload
  let replicas ← writeReplicas (appendRecord env record) ids
  pure (.appendChunk inode ⟨chunkSeq, replicas, UInt32.ofNat payload.length, record.checksum⟩)

/-- `write_whole_file_extent`: no extent at all for empty content. -/
def writeWholeFileExtent (env : Env) (inode : InodeId) (redundancy : RedundancyScheme) (fileOffset : UInt64)
    (content : Bytes) : PoolM (List Extent) :=
  if content = [] then pure []
  else do
    let key := Placement.placementKey inode (UInt64.ofNat (2 ^ 64 - 1))
    let ids ← Action.reads (fun (_, p) => p.place env.ord redundancy key)
    let replicas ← writeReplicas (storeExtent env content) ids
    pure [⟨fileOffset, UInt32.ofNat content.length, replicas, Crc32c.checksum content⟩]

/-- What `complete_convert` stores: the file's content as it is. -/
def planCompleteConvert (w : World) (p : Pool) (inode : InodeId) : Res PoolError (RedundancyScheme × Bytes) := do
  let rec ← p.findInode inode
  if rec.mode ≠ .converting then .err .wrongMode
  else do
    let content ← p.readFullContent w rec
    pure (rec.redundancy, content)

/-- What `write` stores: the content, zero-extended to the end of the write, with `data` copied in. A vector holds at most
    `isize::MAX` bytes, and growing it past that is a panic. -/
def planWrite (w : World) (p : Pool) (inode : InodeId) (offset : UInt64) (data : Bytes) :
    Res PoolError (RedundancyScheme × Bytes) := do
  let rec ← p.findInode inode
  if rec.mode ≠ .writable then .err .wrongMode
  else do
    let content ← p.readFullContent w rec
    let stop := offset.toNat + data.length
    if 2 ^ 64 ≤ stop then .panic
    else if content.length < stop ∧ 2 ^ 63 ≤ stop then .panic
    else do
      let content := if content.length < stop then content ++ List.replicate (stop - content.length) 0 else content
      let content ← copyInto content offset.toNat data
      pure (rec.redundancy, content)

/-- The data phase of the two rewrites: store the planned content as the whole file and name the metadata operation. -/
def prepareExtents (env : Env) (inode : InodeId) (plan : World → Pool → Res PoolError (RedundancyScheme × Bytes))
    (mkOp : List Extent → MetaOp) : PoolM MetaOp := do
  let (redundancy, content) ← Action.reads (fun (w, p) => plan w p)
  let extents ← writeWholeFileExtent env inode redundancy 0 content
  pure (mkOp extents)

def prepareCompleteConvert (env : Env) (inode : InodeId) : PoolM MetaOp :=
  prepareExtents env inode (fun w p => p.planCompleteConvert w inode) (.completeConvert inode)

def prepareWrite (env : Env) (inode : InodeId) (offset : UInt64) (data : Bytes) : PoolM MetaOp :=
  prepareExtents env inode (fun w p => p.planWrite w inode offset data) (.updateExtents inode)

/-! ## Operations -/

def append (env : Env) (inode : InodeId) (payload : Bytes) : PoolM Unit := do
  let op ← prepareAppend env inode payload
  applyMeta env op

def beginConvert (env : Env) (inode : InodeId) : PoolM Unit := applyMeta env (.beginConvert inode)

def completeConvert (env : Env) (inode : InodeId) : PoolM Unit := do
  let op ← prepareCompleteConvert env inode
  applyMeta env op

def write (env : Env) (inode : InodeId) (offset : UInt64) (data : Bytes) : PoolM Unit := do
  let op ← prepareWrite env inode offset data
  applyMeta env op

def setRedundancy (env : Env) (inode : InodeId) (scheme : RedundancyScheme) : PoolM Unit :=
  applyMeta env (.setRedundancyScheme inode scheme)

def unlink (env : Env) (parent : InodeId) (name : String) : PoolM Unit := applyMeta env (.unlink parent name)

/-- `alloc_inode`. -/
def allocInode : PoolM InodeId := fun (w, p) =>
  match p.metaStore.allocInode with
  | .ok (inode, s) => (.ok inode, w, { p with metaStore := s })
  | .err e         => (.err (.metaErr e), w, p)
  | .panic         => (.panic, w, p)

/-- A new append-only file's record. -/
def newFile (inode : InodeId) (redundancy : RedundancyScheme) (uid gid unixMode : UInt32) (now : UInt64) :
    InodeRecord :=
  { inode := inode, mode := .appendOnly, size := 0, redundancy := redundancy, data := .chunkLog [], uid := uid,
    gid := gid, unixMode := unixMode, mtimeUnix := now }

/-- `create_file`: allocate, create, link. -/
def createFile (env : Env) (parent : InodeId) (name : String) (redundancy : RedundancyScheme)
    (uid gid unixMode : UInt32) (now : UInt64) : PoolM InodeId := do
  let inode ← allocInode
  applyMeta env (.createInode (newFile inode redundancy uid gid unixMode now))
  applyMeta env (.link parent name inode)
  pure inode

end Pool

end Tartine
